import Mathlib.Data.Set.Function
import SexprCalc.Proofs.Balance
import SexprCalc.Proofs.Parsing

namespace SexprCalc

open SexprCalc.Tree

namespace Draft

lemma finish_eq_ok_iff {d : Draft} {t : Tree} :
    d.finish = .ok t ↔ d.groups = [] ∧ t = root d.expressions.reverse := by
  rcases d with ⟨_ | ⟨g, gs⟩, ts⟩ <;> simp [finish, eq_comm]

lemma sentence_of_steps {d : Draft} {us : List (Located Token)} {t : Tree}
    (hw : ∀ u ∈ us, u.item.WellFormed) (hs : empty.steps us = .ok d) (hf : d.finish = .ok t) :
    t.IsSentence ∧ t.nesting ≤ maxNestingDepth ∧ t.yield = us.map Located.item := by
  have he : empty.Fit := ⟨fun _ ht => by simp [empty] at ht, trivial⟩
  obtain ⟨hfit, ht⟩ := he.steps hw hs
  obtain ⟨hg, rfl⟩ := finish_eq_ok_iff.mp hf
  have hexp (u : Tree) (hu : u ∈ d.expressions.reverse) : Fits 0 u :=
    hfit.expressions u (List.mem_reverse.mp hu)
  refine ⟨.root fun u hu => (hexp u hu).1, nesting_root_le_iff.mpr fun u hu => ?_, ?_⟩
  · simpa using (hexp u hu).2
  · simpa [tokens, hg, openTokens, yield_root, empty] using ht

lemma steps_of_sentence {us : List (Located Token)} {t : Tree} (ht : t.IsSentence)
    (hn : t.nesting ≤ maxNestingDepth) (hu : us.map Located.item = t.yield) :
    ∃ d, empty.steps us = .ok d ∧ d.finish = .ok t := by
  cases ht with
  | @root ts hts =>
    have hd := steps_flatMap_yield (fun u hu => drafts_of_isExpression (hts u hu)) empty us
      (hu.trans (yield_root ts)) (by simpa [empty] using nesting_root_le_iff.mp hn)
    refine ⟨⟨[], ts.reverse⟩, ?_, finish_eq_ok_iff.mpr ⟨rfl, ?_⟩⟩
    · simpa [empty, addAll_root] using hd
    · rw [List.reverse_reverse]
      rfl

end Draft

namespace Tree

lemma read_eq_ok_iff {text : String} {t : Tree} :
    Tree.read text = .ok t ↔ (Scan.ofText text).stop = none ∧
      ∃ d, Draft.empty.steps (Scan.ofText text).tokens = .ok d ∧ d.finish = .ok t := by
  rw [Tree.read, Tree.ofScan]
  cases hs : Draft.empty.steps (Scan.ofText text).tokens with
  | error e => simp
  | ok d => cases (Scan.ofText text).stop <;> simp

lemma read_eq_ok_iff_lex {text : String} {t : Tree} :
    Tree.read text = .ok t ↔
      t.IsSentence ∧ t.nesting ≤ maxNestingDepth ∧ Token.lex text = .ok t.yield := by
  rw [read_eq_ok_iff, Token.lex_eq_ok_iff]
  constructor
  · rintro ⟨hstop, d, hs, hf⟩
    obtain ⟨ht, hn, hy⟩ := Draft.sentence_of_steps (fun _ => Scan.wellFormed_of_mem) hs hf
    exact ⟨ht, hn, hstop, hy.symm⟩
  · rintro ⟨ht, hn, hstop, hy⟩
    exact ⟨hstop, Draft.steps_of_sentence ht hn hy⟩

lemma nesting_le_of_read {text : String} {t : Tree} (h : Tree.read text = .ok t) :
    t.nesting ≤ maxNestingDepth :=
  (read_eq_ok_iff_lex.mp h).2.1

lemma exists_expressions_of_read {text : String} {t : Tree} (h : Tree.read text = .ok t) :
    ∃ ts, (∀ t ∈ ts, t.IsExpression) ∧ t = root ts ∧ Token.lex text = .ok (ts.flatMap yield) := by
  obtain ⟨ht, -, hl⟩ := read_eq_ok_iff_lex.mp h
  cases ht with
  | @root ts hts => exact ⟨ts, hts, rfl, hl.trans (congrArg Except.ok (yield_root ts))⟩

lemma IsExpression.wellFormed {t : Tree} (h : t.IsExpression) : ∀ u ∈ t.yield, u.WellFormed := by
  induction h with
  | number hs => rintro u (_ | ⟨_, ⟨⟩⟩); exact hs
  | symbol hs => rintro u (_ | ⟨_, ⟨⟩⟩); exact hs
  | @group ts hts ih =>
    intro u hu
    change u ∈ (Tree.group ts).yield at hu
    simp only [yield_group, List.cons_append, List.mem_cons, List.mem_append, List.mem_flatMap,
      List.not_mem_nil, or_false] at hu
    rcases hu with rfl | ⟨t, ht, hu⟩ | rfl
    · trivial
    · exact ih t ht u hu
    · trivial

def sentences : Set Tree :=
  {t | t.IsSentence ∧ t.nesting ≤ maxNestingDepth}

def unplaced (ts : List Token) : List (Located Token) :=
  ts.map (Located.mk 0)

lemma map_item_unplaced (ts : List Token) : (unplaced ts).map Located.item = ts := by
  simp [unplaced, Function.comp_def]

lemma yield_mapsTo : Set.MapsTo yield sentences {ts | Token.Balanced ts} := by
  rintro t ⟨ht, hn⟩
  obtain ⟨d, hs, hf⟩ := Draft.steps_of_sentence ht hn (map_item_unplaced t.yield)
  obtain ⟨hg, -⟩ := Draft.finish_eq_ok_iff.mp hf
  refine ⟨?_, fun p hp => ?_, ?_⟩
  · cases ht with
    | @root ts hts =>
      intro u hu
      change u ∈ (root ts).yield at hu
      rw [yield_root] at hu
      obtain ⟨t, ht, hu⟩ := List.mem_flatMap.mp hu
      exact (hts t ht).wellFormed u hu
  · have hw := (Draft.exists_steps_iff (Nat.zero_le _)).mp ⟨d, hs⟩ p
      (by rwa [map_item_unplaced])
    simpa [Draft.empty] using hw
  · have hl := Draft.length_groups_steps hs
    simpa [hg, Draft.empty, map_item_unplaced] using hl.symm

lemma yield_injOn : Set.InjOn yield sentences := by
  rintro t ⟨ht, hn⟩ u ⟨hu, hm⟩ h
  obtain ⟨d, hs, hf⟩ := Draft.steps_of_sentence ht hn (map_item_unplaced t.yield)
  obtain ⟨d', hs', hf'⟩ := Draft.steps_of_sentence hu hm (map_item_unplaced u.yield)
  rw [h, hs'] at hs
  cases hs
  rw [hf'] at hf
  exact (Except.ok.inj hf).symm

lemma yield_surjOn : Set.SurjOn yield sentences {ts | Token.Balanced ts} := by
  rintro ts ⟨hw, hp, hc⟩
  have hsteps : ∃ d, Draft.empty.steps (unplaced ts) = .ok d := by
    apply (Draft.exists_steps_iff (Nat.zero_le _)).mpr
    intro p hq
    rw [map_item_unplaced] at hq
    simpa [Draft.empty] using hp p hq
  obtain ⟨d, hs⟩ := hsteps
  have hg : d.groups = [] := by
    have hl := Draft.length_groups_steps hs
    rw [map_item_unplaced, hc] at hl
    apply List.eq_nil_of_length_eq_zero
    simpa [Draft.empty] using hl
  have hu : ∀ u ∈ unplaced ts, u.item.WellFormed := by simpa [unplaced] using hw
  obtain ⟨ht, hn, hy⟩ :=
    Draft.sentence_of_steps hu hs (Draft.finish_eq_ok_iff.mpr ⟨hg, rfl⟩)
  exact ⟨_, ⟨ht, hn⟩, hy.trans (map_item_unplaced ts)⟩

/-- A text reads to a tree just when the tree is a sentence whose leaves are the tokens of the text,
so the spacing of a text makes no difference. Sentences correspond to balanced tokens. -/
theorem read_iff_yield :
    (∀ text t, Tree.read text = .ok t ↔
      t.IsSentence ∧ t.nesting ≤ maxNestingDepth ∧ Token.lex text = .ok t.yield) ∧
    (∀ text text' ts, Token.lex text = .ok ts → Token.lex text' = .ok ts →
      ∀ t, Tree.read text = .ok t ↔ Tree.read text' = .ok t) ∧
    Set.BijOn yield sentences {ts | Token.Balanced ts} := by
  refine ⟨fun _ _ => read_eq_ok_iff_lex, fun text text' ts h h' t => ?_,
    yield_mapsTo, yield_injOn, yield_surjOn⟩
  rw [read_eq_ok_iff_lex, read_eq_ok_iff_lex, h, h']

end Tree

end SexprCalc
