import Mathlib.Data.List.Forall2
import SexprCalc.Proofs.Results
import SexprCalc.Value.Words

namespace SexprCalc

open Text SexprCalc.Tree

/-- A numeral means the integer that it denotes if that is in range, and else a failure. All other
tokens mean themselves. -/
inductive Token.Means : Token → Word → Prop
  | opening : Means .opening .opening
  | closing : Means .closing .closing
  | number {s} {n : Int64} : Numeral.integer? s.toList = some n.toInt →
      Means (.number s) (.number n)
  | outOfRange {s n} : Numeral.integer? s.toList = some n → n < -2 ^ 63 ∨ 2 ^ 63 ≤ n →
      Means (.number s) (.failure "invalid number")
  | symbol (s : String) : Means (.symbol s) (.symbol s)

lemma toInt_not_outOfRange (n : Int64) : ¬(n.toInt < -2 ^ 63 ∨ 2 ^ 63 ≤ n.toInt) := by
  have := n.le_toInt
  have := n.toInt_lt
  omega

lemma Token.means_rightUnique : Relator.RightUnique Means := by
  intro t w w' h h'
  cases h with
  | @number s n hn =>
    cases h' with
    | number hn' => rw [Int64.toInt_inj.mp (Option.some.inj (hn.symm.trans hn'))]
    | outOfRange hn' hr =>
      rw [← Option.some.inj (hn.symm.trans hn')] at hr
      exact absurd hr (toInt_not_outOfRange n)
  | @outOfRange s n hn hr =>
    cases h' with
    | @number _ m hn' =>
      rw [Option.some.inj (hn.symm.trans hn')] at hr
      exact absurd hr (toInt_not_outOfRange m)
    | outOfRange _ _ => rfl
  | _ =>
    cases h'
    rfl

namespace Value

lemma ofNumeral_of_integer? {s : String} {n : Int} (hs : Numeral.integer? s.toList = some n)
    (hn : Numeral.InRange n) : ofNumeral s = number (.ofInt n) := by
  simp [ofNumeral, Numeral.read?, hs, hn]

lemma means_ofNumeral {s : String} (h : Token.IsNumeral s) :
    List.Forall₂ Token.Means [.number s] (ofNumeral s).words := by
  obtain ⟨n, hn⟩ := h.exists_integer?
  by_cases hr : Numeral.InRange n
  · rw [ofNumeral_of_integer? hn hr]
    obtain ⟨hlo, hhi⟩ := Numeral.inRange_iff.mp hr
    have hi : (Int64.ofInt n).toInt = n := Int64.toInt_ofInt_of_le hlo hhi
    exact .cons (.number (hn.trans (congrArg some hi.symm))) .nil
  · rw [ofNumeral_eq_badNumeral hn hr]
    rw [Numeral.inRange_iff] at hr
    exact .cons (.outOfRange hn (by omega)) .nil

lemma means_flatMap {ts : List Tree}
    (h : ∀ t ∈ ts, List.Forall₂ Token.Means t.yield (ofTree t).words) :
    List.Forall₂ Token.Means (ts.flatMap yield) ((ts.map ofTree).flatMap words) := by
  induction ts with
  | nil => exact .nil
  | cons t ts ih =>
    obtain ⟨ht, hts⟩ := List.forall_mem_cons.mp h
    exact List.rel_append ht (ih hts)

end Value

lemma Tree.IsExpression.means {t : Tree} (h : t.IsExpression) :
    List.Forall₂ Token.Means t.yield (Value.ofTree t).words := by
  induction h with
  | @number s hs =>
    change List.Forall₂ Token.Means [.number s] (Value.ofTree (.number s)).words
    rw [Value.ofTree_number]
    exact Value.means_ofNumeral hs
  | @symbol s _ =>
    change List.Forall₂ Token.Means [.symbol s] (Value.ofTree (.symbol s)).words
    rw [Value.ofTree_symbol]
    exact .cons (.symbol s) .nil
  | @group ts hts ih =>
    change List.Forall₂ Token.Means (Tree.group ts).yield (Value.ofTree (.group ts)).words
    rw [yield_group, Value.ofTree_group hts, Value.words_list]
    exact .cons .opening (List.rel_append (Value.means_flatMap ih) (.cons .closing .nil))

namespace Value

/-- The value of the tree of a text is a list, and the words of its cells are what the tokens of the
text mean, each of them one word, in their order and nothing else. -/
theorem words_of_read {text : String} {t : Tree} (h : Tree.read text = .ok t) :
    ∃ cells ts, ofTree t = list cells ∧ Token.lex text = .ok ts ∧
      ∀ ws, List.Forall₂ Token.Means ts ws ↔ cells.flatMap words = ws := by
  obtain ⟨ts, hts, rfl, hl⟩ := Tree.exists_expressions_of_read h
  have hm := means_flatMap fun t ht => (hts t ht).means
  refine ⟨ts.map ofTree, _, ofTree_root hts, hl, fun ws => ⟨?_, ?_⟩⟩
  · exact List.right_unique_forall₂' Token.means_rightUnique hm
  · rintro rfl
    exact hm

theorem words_of_read_mixed :
    let text := "- -5(( )99999999999999999999)"
    ∃ t, Tree.read text = .ok t ∧ ∃ cells ts, ofTree t = list cells ∧ Token.lex text = .ok ts ∧
      ∀ ws, List.Forall₂ Token.Means ts ws ↔ cells.flatMap words = ws := by
  intro text
  have hs : (Tree.read text).toOption.isSome = true := by decide +kernel
  cases h : Tree.read text with
  | ok t => exact ⟨t, rfl, words_of_read h⟩
  | error e =>
    rw [h] at hs
    cases hs

end Value

end SexprCalc
