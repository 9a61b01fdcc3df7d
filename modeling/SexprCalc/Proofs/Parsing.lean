import SexprCalc.Proofs.Drafting
import SexprCalc.Proofs.Grammar

/-! Reading is inverse to taking the tokens at the leaves: a draft always stands for the tokens that
went into it, and the tokens of an expression put that expression into the draft. -/

namespace SexprCalc

open SexprCalc.Tree

namespace Draft

def openTokens : List OpenGroup → List Token
  | [] => []
  | g :: gs => openTokens gs ++ .opening :: g.expressions.reverse.flatMap yield

def tokens (d : Draft) : List Token :=
  d.expressions.reverse.flatMap yield ++ openTokens d.groups

def Fits (level : Nat) (t : Tree) : Prop :=
  t.IsExpression ∧ level + t.nesting ≤ maxNestingDepth

def GroupsFit : List OpenGroup → Prop
  | [] => True
  | g :: gs => gs.length < maxNestingDepth ∧ (∀ t ∈ g.expressions, Fits (gs.length + 1) t) ∧
      GroupsFit gs

structure Fit (d : Draft) : Prop where
  expressions : ∀ t ∈ d.expressions, Fits 0 t
  groups : GroupsFit d.groups

lemma tokens_add (d : Draft) (t : Tree) : (d.add t).tokens = d.tokens ++ t.yield := by
  rcases d with ⟨_ | ⟨g, gs⟩, ts⟩ <;> simp [add, tokens, openTokens]

lemma Fit.add {d : Draft} {t : Tree} (h : d.Fit) (ht : Fits d.groups.length t) : (d.add t).Fit := by
  rcases d with ⟨_ | ⟨g, gs⟩, ts⟩
  · exact ⟨by simpa [Draft.add] using ⟨ht, h.expressions⟩, trivial⟩
  · obtain ⟨hl, hg, hgs⟩ := h.groups
    exact ⟨h.expressions, hl, by simpa using ⟨ht, hg⟩, hgs⟩

lemma Fit.length_le {d : Draft} (h : d.Fit) : d.groups.length ≤ maxNestingDepth := by
  rcases d with ⟨_ | ⟨g, gs⟩, ts⟩
  · exact Nat.zero_le _
  · exact h.groups.1

lemma yield_leaf {t : Token} {leaf : Tree} (hl : t.leaf? = some leaf) : leaf.yield = [t] := by
  rcases Token.leaf?_cases hl with ⟨s, rfl, rfl⟩ | ⟨s, rfl, rfl⟩ <;> rfl

lemma fits_leaf {t : Token} {leaf : Tree} {level : Nat} (hw : t.WellFormed)
    (hl : t.leaf? = some leaf) (hm : level ≤ maxNestingDepth) : Fits level leaf := by
  rcases Token.leaf?_cases hl with ⟨s, rfl, rfl⟩ | ⟨s, rfl, rfl⟩
  · exact ⟨.number hw, hm⟩
  · exact ⟨.symbol hw, hm⟩

lemma fits_group {ts : List Tree} {level : Nat} (hm : level < maxNestingDepth)
    (h : ∀ t ∈ ts, Fits (level + 1) t) : Fits level (group ts.reverse) := by
  refine ⟨.group fun t ht => (h t (List.mem_reverse.mp ht)).1, ?_⟩
  have hn : (group ts.reverse).nesting ≤ (maxNestingDepth - level - 1) + 1 := by
    apply nesting_group_le_iff.mpr
    intro t ht
    have := (h t (List.mem_reverse.mp ht)).2
    omega
  omega

lemma Fit.step {d d' : Draft} {t : Located Token} (h : d.Fit) (hw : t.item.WellFormed)
    (hs : d.step t = .ok d') : d'.Fit ∧ d'.tokens = d.tokens ++ [t.item] := by
  rcases step_cases hs with ⟨ht, hlt, rfl⟩ | ⟨ht, g, gs, hg, rfl⟩ | ⟨leaf, hl, rfl⟩
  · refine ⟨⟨h.expressions, hlt, by simp, h.groups⟩, ?_⟩
    simp [tokens, openTokens, ht]
  · rcases d with ⟨groups, ts⟩
    obtain rfl : groups = g :: gs := hg
    obtain ⟨hm, hgt, hgs⟩ := h.groups
    have hfit : Fit ⟨gs, ts⟩ := ⟨h.expressions, hgs⟩
    refine ⟨hfit.add (fits_group hm hgt), ?_⟩
    rw [tokens_add, yield_group, ht]
    simp [tokens, openTokens]
  · exact ⟨h.add (fits_leaf hw hl h.length_le), by rw [tokens_add, yield_leaf hl]⟩

lemma Fit.steps {d d' : Draft} {ts : List (Located Token)} (h : d.Fit)
    (hw : ∀ t ∈ ts, t.item.WellFormed) (hs : d.steps ts = .ok d') :
    d'.Fit ∧ d'.tokens = d.tokens ++ ts.map Located.item := by
  induction ts generalizing d with
  | nil =>
    cases hs
    exact ⟨h, by simp⟩
  | cons t ts ih =>
    rw [Draft.steps] at hs
    split at hs
    · next d₁ h₁ =>
      obtain ⟨hf, ht⟩ := h.step (hw t List.mem_cons_self) h₁
      obtain ⟨hf', ht'⟩ := ih hf (fun u hu => hw u (List.mem_cons_of_mem t hu)) hs
      exact ⟨hf', by simp [ht', ht]⟩
    · cases hs

def addAll (d : Draft) (ts : List Tree) : Draft :=
  ts.foldl (fun d t => d.add t) d

lemma addAll_group (start : Nat) (es : List Tree) (gs : List OpenGroup) (done ts : List Tree) :
    addAll ⟨⟨start, es⟩ :: gs, done⟩ ts = ⟨⟨start, ts.reverse ++ es⟩ :: gs, done⟩ := by
  induction ts generalizing es with
  | nil => rfl
  | cons t ts ih => simpa [addAll, add] using ih (t :: es)

lemma addAll_root (done ts : List Tree) : addAll ⟨[], done⟩ ts = ⟨[], ts.reverse ++ done⟩ := by
  induction ts generalizing done with
  | nil => rfl
  | cons t ts ih => simpa [addAll, add] using ih (t :: done)

def Drafts (t : Tree) : Prop :=
  ∀ (d : Draft) (us : List (Located Token)), us.map Located.item = t.yield →
    d.groups.length + t.nesting ≤ maxNestingDepth → d.steps us = .ok (d.add t)

lemma steps_flatMap_yield {ts : List Tree} (h : ∀ t ∈ ts, Drafts t) (d : Draft)
    (us : List (Located Token)) (hu : us.map Located.item = ts.flatMap yield)
    (hn : ∀ t ∈ ts, d.groups.length + t.nesting ≤ maxNestingDepth) :
    d.steps us = .ok (d.addAll ts) := by
  induction ts generalizing d us with
  | nil =>
    obtain rfl : us = [] := by simpa using hu
    rfl
  | cons t ts ih =>
    rw [List.flatMap_cons] at hu
    obtain ⟨us₁, us₂, rfl, h₁, h₂⟩ := List.map_eq_append_iff.mp hu
    rw [steps_append, h t List.mem_cons_self d us₁ h₁ (hn t List.mem_cons_self)]
    apply ih (fun u hu => h u (List.mem_cons_of_mem t hu)) (d.add t) us₂ h₂
    intro u hu
    rw [length_groups_add]
    exact hn u (List.mem_cons_of_mem t hu)

lemma drafts_leaf {t : Token} {leaf : Tree} (hl : t.leaf? = some leaf) : Drafts leaf := by
  intro d us hu _
  rw [yield_leaf hl] at hu
  obtain ⟨u, rfl, hi⟩ := List.map_eq_singleton_iff.mp hu
  rw [steps, step_leaf d (hi ▸ hl)]
  rfl

lemma drafts_group {ts : List Tree} (h : ∀ t ∈ ts, Drafts t) : Drafts (group ts) := by
  intro d us hu hn
  rw [yield_group, List.cons_append] at hu
  obtain ⟨⟨o, u⟩, vs, rfl, ho, hv⟩ := List.map_eq_cons_iff.mp hu
  obtain ⟨ms, cs, rfl, hm, hc⟩ := List.map_eq_append_iff.mp hv
  obtain ⟨⟨o', u'⟩, rfl, hi⟩ := List.map_eq_singleton_iff.mp hc
  obtain rfl : u = .opening := ho
  obtain rfl : u' = .closing := hi
  have hp := nesting_group_pos ts
  have hlt : d.groups.length < maxNestingDepth := by omega
  have hopen : d.step ⟨o, .opening⟩ = .ok ⟨⟨o, []⟩ :: d.groups, d.expressions⟩ := by
    simp [step, hlt]
  -- The parentheses take one level, which is why what stands between them still fits.
  have hmid := steps_flatMap_yield h ⟨⟨o, []⟩ :: d.groups, d.expressions⟩ ms hm fun t ht => by
    have hle : (group ts).nesting ≤ (group ts).nesting - 1 + 1 := by omega
    have := nesting_group_le_iff.mp hle t ht
    simp only [List.length_cons]
    omega
  rw [steps, hopen]
  simp only [steps_append, hmid, addAll_group, List.append_nil]
  simp [steps, step]

lemma drafts_of_isExpression {t : Tree} (h : t.IsExpression) : Drafts t := by
  induction h with
  | @number s _ => exact drafts_leaf (t := .number s) rfl
  | @symbol s _ => exact drafts_leaf (t := .symbol s) rfl
  | group _ ih => exact drafts_group ih

end Draft

end SexprCalc
