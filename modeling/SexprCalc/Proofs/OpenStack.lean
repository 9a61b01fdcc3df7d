import SexprCalc.Proofs.Descent
import SexprCalc.Proofs.Faults

/-! The stack of a descent: whenever something is pulled, it holds the offsets of the parentheses
that are open, one for each call. -/

namespace SexprCalc

open Text Brackets

namespace Brackets

lemma OpenAt.lt_size {cs : List Char} {starts : List Nat} (h : OpenAt cs starts) :
    ∀ start ∈ starts, start < Utf8.size cs := by
  induction h with
  | closed _ => simp
  | @opened before cs starts _ _ ih =>
    have hs : Utf8.size before < Utf8.size (before ++ '(' :: cs) := by
      have := Char.utf8Size_pos '('
      rw [Utf8.size_append, Utf8.size_cons]
      omega
    exact List.forall_mem_cons.mpr ⟨hs, fun start h => Nat.lt_trans (ih start h) hs⟩

lemma OpenAt.decreasing {cs : List Char} {starts : List Nat} (h : OpenAt cs starts) :
    starts.Pairwise (· > ·) := by
  induction h with
  | closed _ => exact .nil
  | opened hb _ ih => exact .cons hb.lt_size ih

lemma OpenAt.mem_iff {cs : List Char} {starts : List Nat} (h : OpenAt cs starts) {start : Nat} :
    start ∈ starts ↔ ∃ p q, cs = p ++ '(' :: q ∧ start = Utf8.size p ∧ StaysOpen q := by
  induction h with
  | closed hc =>
    refine iff_of_false List.not_mem_nil ?_
    rintro ⟨p, q, hs, -, hq⟩
    exact hc.not_staysOpen hs hq
  | @opened before cs starts _ hc ih =>
    rw [List.mem_cons, ih]
    constructor
    · rintro (rfl | ⟨p, q, rfl, rfl, hq⟩)
      · exact ⟨before, cs, rfl, rfl, hc.1⟩
      · exact ⟨p, q ++ '(' :: cs, by simp, rfl, hq.append hc.1.opening⟩
    · rintro ⟨p, q, hs, rfl, hq⟩
      rcases Reading.split_cases hs with ⟨rfl, -, -⟩ | ⟨r, -, hr⟩ | ⟨r, rfl, rfl⟩
      · exact .inl rfl
      · exact absurd hq (hc.not_staysOpen hr)
      · exact .inr ⟨p, r, rfl, rfl, fun s hs => hq s (hs.trans (List.prefix_append ..))⟩

end Brackets

namespace Descent

open Watched

/-- Before `rest` just these parentheses are open, each of them in a call of its own. -/
structure Stands (cs : List Char) (calls : Nat) (parens : List Nat) (rest : Located (List Char)) :
    Prop where
  openAt : ∃ before, cs = before ++ rest.item ∧ rest.offset = Utf8.size before ∧
    OpenAt before parens.reverse
  length_eq : parens.length = calls
  calls_le : calls ≤ maxNestingDepth

inductive Moment.Sound (cs : List Char) : Moment → Prop
  | called {calls} : calls ≤ maxNestingDepth + 1 → Sound cs (.called calls)
  | pulling {calls parens rest} : Stands cs calls parens rest →
      Sound cs (.pulling calls parens rest)
  | unclosed {parens} : parens ≠ [] → Sound cs (.unclosed parens)
  | returned {parens} : Sound cs (.returned parens parens)

variable {cs : List Char} {calls : Nat} {parens : List Nat} {expressions : List Tree}
  {rest after origin : Located (List Char)} {t : Located Token}

namespace Stands

lemma next (h : Stands cs calls parens rest)
    (hp : Pull.next rest.offset rest.item = .token t after) : t.item.WellFormed ∧
      ∃ before, cs = before ++ t.item.text.toList ++ after.item ∧ t.offset = Utf8.size before ∧
        after.offset = Utf8.size (before ++ t.item.text.toList) ∧ OpenAt before parens.reverse := by
  obtain ⟨before, rfl, ho, hb⟩ := h.openAt
  obtain ⟨blanks, hs, hbs, hw, ht, hr, -⟩ := Pull.next_eq_token hp
  have hbl := balanced_other fun c hc => (Alphabet.plain_of_isBlank (hbs c hc)).2
  refine ⟨hw, before ++ blanks, by simp [hs], ?_, ?_, hb.append hbl⟩
  · rw [ht, ho, Utf8.size_append]
  · rw [hr, ht, ho, Utf8.size_append, Utf8.size_append]

lemma opening (h : Stands cs calls parens rest)
    (hp : Pull.next rest.offset rest.item = .token t after) (ht : t.item = .opening)
    (hlt : calls < maxNestingDepth) :
    Stands cs (calls + 1) (parens ++ [t.offset]) after := by
  obtain ⟨-, before, hs, ho, ha, hb⟩ := h.next hp
  refine ⟨⟨_, hs, ha, ?_⟩, by simp [h.length_eq], hlt⟩
  rw [ht, ho, List.reverse_concat]
  exact hb.opening

lemma closing {start : Nat} (h : Stands cs (calls + 1) (parens ++ [start]) rest)
    (hp : Pull.next rest.offset rest.item = .token t after) (ht : t.item = .closing) :
    Stands cs calls parens after := by
  obtain ⟨-, before, hs, -, ha, hb⟩ := h.next hp
  refine ⟨⟨_, hs, ha, ?_⟩, by simpa using h.length_eq, Nat.le_of_succ_le h.calls_le⟩
  rw [List.reverse_concat] at hb
  rw [ht]
  exact hb.closing

lemma leaf {leaf : Tree} (h : Stands cs calls parens rest)
    (hp : Pull.next rest.offset rest.item = .token t after) (hl : t.item.leaf? = some leaf) :
    Stands cs calls parens after := by
  obtain ⟨hw, before, hs, -, ha, hb⟩ := h.next hp
  have hbl := balanced_other fun c hc => (hw.leaf_plain hl c hc).2
  exact ⟨⟨_, hs, ha, hb.append hbl⟩, h.length_eq, h.calls_le⟩

end Stands

lemma stands_start (cs : List Char) : Stands cs 0 [] ⟨0, cs⟩ :=
  ⟨⟨[], rfl, rfl, .closed balanced_nil⟩, rfl, Nat.zero_le _⟩

lemma Stands.exists_before (h : Stands cs calls parens rest) :
    ∃ before, cs = before ++ rest.item ∧ rest.offset = Utf8.size before ∧
      parens.Pairwise (· < ·) ∧
      (∀ start, start ∈ parens ↔
        ∃ p q, before = p ++ '(' :: q ∧ start = Utf8.size p ∧ StaysOpen q) ∧
      parens.length = calls ∧ calls ≤ maxNestingDepth := by
  obtain ⟨before, hb, ho, hp⟩ := h.openAt
  refine ⟨before, hb, ho, ?_, fun start => ?_, h.length_eq, h.calls_le⟩
  · exact List.pairwise_reverse.mp hp.decreasing
  · rw [← hp.mem_iff, List.mem_reverse]

def Restores (cs : List Char) (calls : Nat) (parens : List Nat) (s : Descent (Closed origin)) :
    Prop :=
  Keeps (Moment.Sound cs) (fun c => c.parens = parens ∧ Stands cs calls parens c.rest) s

lemma restores_group {start : Nat} (h : rest.item.length < origin.item.length)
    (hm : calls ≤ maxNestingDepth) (hl : parens.length = calls)
    (hi : calls < maxNestingDepth →
      Restores cs calls parens (inside (calls + 1) (parens ++ [start]) [] rest h)) :
    Restores cs calls parens (group (calls + 1) start parens rest h) := by
  rw [group]
  apply (keeps_note (.called (Nat.succ_le_succ hm))).bind
  intro _ _
  split
  · exact keeps_fail _
  · next hlt =>
    apply (hi (hl ▸ Nat.lt_of_not_le hlt)).bind
    rintro ⟨tree, _, rest, _⟩ ⟨rfl, hs⟩
    exact (keeps_note .returned).bind fun _ _ => keeps_pure ⟨rfl, hs⟩

lemma restores_inside {start : Nat} (h : rest.item.length < origin.item.length)
    (hs : Stands cs (calls + 1) (parens ++ [start]) rest) :
    Restores cs calls parens
      (inside (calls + 1) (parens ++ [start]) expressions rest h) := by
  -- On the characters left: a group is read from fewer of them, and so is what comes after it.
  induction hl : rest.item.length using Nat.strongRecOn
    generalizing calls parens start expressions rest origin with
  | ind m ih =>
    subst hl
    rw [inside]
    apply (keeps_note (.pulling hs)).bind
    intro _ _
    split
    · exact (keeps_note (.unclosed (List.concat_ne_nil _ _))).bind fun _ _ => keeps_fail _
    · exact keeps_fail _
    · next t after hp =>
      have ha := Pull.next_lt hp
      obtain ⟨offset, t⟩ := t
      cases t with
      | opening =>
        have hg := restores_group ha hs.calls_le hs.length_eq
          fun hlt => ih _ ha _ (hs.opening hp rfl hlt) rfl
        apply hg.bind
        rintro ⟨tree, _, rest, hlt⟩ ⟨rfl, hc⟩
        exact ih _ hlt _ hc rfl
      | closing => exact keeps_pure ⟨List.dropLast_concat, hs.closing hp rfl⟩
      | number s => exact ih _ ha _ (hs.leaf hp rfl) rfl
      | symbol s => exact ih _ ha _ (hs.leaf hp rfl) rfl

lemma restores_opening (h : after.item.length < origin.item.length)
    (hs : Stands cs calls parens rest)
    (hp : Pull.next rest.offset rest.item = .token t after) (ht : t.item = .opening) :
    Restores cs calls parens (group (calls + 1) t.offset parens after h) :=
  restores_group h hs.calls_le hs.length_eq fun hlt => restores_inside h (hs.opening hp ht hlt)

lemma keeps_outside (hs : Stands cs 0 [] rest) :
    Keeps (Moment.Sound cs) (fun _ => True) (outside [] expressions rest) := by
  induction hl : rest.item.length using Nat.strongRecOn generalizing expressions rest with
  | ind m ih =>
    subst hl
    rw [outside]
    apply (keeps_note (.pulling hs)).bind
    intro _ _
    split
    · exact keeps_pure trivial
    · exact keeps_fail _
    · next t after hp =>
      have ha := Pull.next_lt hp
      obtain ⟨offset, t⟩ := t
      cases t with
      | opening =>
        apply (restores_opening ha hs hp rfl).bind
        rintro ⟨tree, _, rest, hlt⟩ ⟨rfl, hc⟩
        exact ih _ hlt hc rfl
      | closing => exact keeps_fail _
      | number s => exact ih _ ha (hs.leaf hp rfl) rfl
      | symbol s => exact ih _ ha (hs.leaf hp rfl) rfl

end Descent

end SexprCalc
