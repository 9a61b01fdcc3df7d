import Mathlib.Data.Nat.Digits.Defs
import SexprCalc.Proofs.RoundTrip
import SexprCalc.Proofs.Wording

namespace SexprCalc

open Text

namespace Text.Numeral

def worth (digits : List Char) : Nat :=
  Nat.ofDigits 10 (digits.map fun c => c.toNat - '0'.toNat).reverse

inductive Denotes : List Char → Int → Prop
  | unsigned {digits} : digits ≠ [] → (∀ c ∈ digits, c.isDigit = true) →
      Denotes digits (worth digits)
  | plus {digits} : digits ≠ [] → (∀ c ∈ digits, c.isDigit = true) →
      Denotes ('+' :: digits) (worth digits)
  | minus {digits} : digits ≠ [] → (∀ c ∈ digits, c.isDigit = true) →
      Denotes ('-' :: digits) (-worth digits)

lemma worth_cons (c : Char) (cs : List Char) :
    worth (c :: cs) = (c.toNat - '0'.toNat) * 10 ^ cs.length + worth cs := by
  rw [worth, List.map_cons, Nat.ofDigits_reverse_cons, List.length_map, worth]
  ring

lemma ofDigitChars_eq (cs : List Char) (before : Nat) :
    Nat.ofDigitChars 10 cs before = before * 10 ^ cs.length + worth cs := by
  induction cs generalizing before with
  | nil => simp [worth]
  | cons c cs ih =>
    rw [Nat.ofDigitChars_cons, ih, worth_cons, List.length_cons, Nat.pow_succ]
    ring

lemma natural?_eq_some_iff {cs : List Char} {n : Nat} :
    natural? cs = some n ↔ cs ≠ [] ∧ (∀ c ∈ cs, c.isDigit = true) ∧ worth cs = n := by
  rw [natural?]
  split
  · next h => simp_all [ofDigitChars_eq]
  · next h => simp_all

lemma integer?_of_denotes {cs : List Char} {n : Int} (h : Denotes cs n) : integer? cs = some n := by
  have hn {ds : List Char} (hne : ds ≠ []) (hd : ∀ c ∈ ds, c.isDigit = true) :
      natural? ds = some (worth ds) :=
    natural?_eq_some_iff.mpr ⟨hne, hd, rfl⟩
  cases h with
  | unsigned hne hd =>
    obtain ⟨c, cs, rfl⟩ := List.exists_cons_of_ne_nil hne
    rw [integer?_of_isDigit c cs (hd c List.mem_cons_self), hn hne hd]
    rfl
  | plus hne hd =>
    rw [integer?, hn hne hd]
    rfl
  | minus hne hd =>
    rw [integer?, hn hne hd]
    rfl

lemma denotes_of_integer? {cs : List Char} {n : Int} (h : integer? cs = some n) : Denotes cs n := by
  unfold integer? at h
  split at h
  all_goals
    obtain ⟨m, hm, rfl⟩ := Option.map_eq_some_iff.mp h
    obtain ⟨hne, hd, rfl⟩ := natural?_eq_some_iff.mp hm
  · exact .minus hne hd
  · exact .plus hne hd
  · exact .unsigned hne hd

lemma integer?_eq_some_iff {cs : List Char} {n : Int} : integer? cs = some n ↔ Denotes cs n :=
  ⟨denotes_of_integer?, integer?_of_denotes⟩

lemma read?_eq_some_iff {cs : List Char} {n : Int64} : read? cs = some n ↔ Denotes cs n.toInt := by
  rw [← integer?_eq_some_iff, read?]
  cases h : integer? cs with
  | none => simp
  | some i =>
    simp only [Option.ite_none_right_eq_some, Option.some.injEq]
    constructor
    · rintro ⟨hr, rfl⟩
      obtain ⟨hlo, hhi⟩ := inRange_iff.mp hr
      exact (Int64.toInt_ofInt_of_le hlo hhi).symm
    · rintro rfl
      exact ⟨inRange_toInt n, Int64.ofInt_toInt n⟩

lemma read?_eq_none_iff {cs : List Char} :
    read? cs = none ↔ ∀ i, Denotes cs i → i < -2 ^ 63 ∨ 2 ^ 63 ≤ i := by
  have hr (i : Int) : ¬InRange i ↔ i < -2 ^ 63 ∨ 2 ^ 63 ≤ i := by
    rw [inRange_iff]
    omega
  simp only [← integer?_eq_some_iff, ← hr]
  rw [read?]
  cases integer? cs <;> simp

end Text.Numeral

namespace Value

lemma ofNumeral_eq_number_iff {s : String} {n : Int64} :
    ofNumeral s = number n ↔ Numeral.Denotes s.toList n.toInt := by
  rw [← Numeral.read?_eq_some_iff, ofNumeral]
  cases Numeral.read? s.toList with
  | none => simp [Fault.value]
  | some m => simp

lemma ofNumeral_eq_failure_iff {s : String} :
    ofNumeral s = failure "invalid number" ↔
      ∀ i, Numeral.Denotes s.toList i → i < -2 ^ 63 ∨ 2 ^ 63 ≤ i := by
  rw [← Numeral.read?_eq_none_iff, ofNumeral]
  cases Numeral.read? s.toList with
  | none => simp [Fault.value, Fault.message]
  | some m => simp

lemma render_number (n : Int64) : (number n).render = String.ofList (Numeral.write n) :=
  String.toList_inj.mp (toList_render_number n)

lemma evaluate_render_number (n : Int64) : evaluate (number n).render = .ok (number n) := by
  have hr : (number n).Readable := .number n
  have ht : Tree.read (number n).render = _ := hr.read_render (Nat.zero_le maxNestingDepth)
  rw [evaluate, ht, Except.map, hr.ofTree_root, eval_list_singleton]
  rfl

/-- A node whose tag names a number holds the integer that its contents denote, if that is in range.
With any other contents it is a failure. What is printed for a number denotes that number. -/
theorem ofTree_numeral {t : Tree} (h : t.Mentions "number") :
    (∀ n : Int64, ofTree t = number n ↔ Numeral.Denotes t.contents.toList n.toInt) ∧
    (ofTree t = failure "invalid number" ↔
      ∀ i, Numeral.Denotes t.contents.toList i → i < -2 ^ 63 ∨ 2 ^ 63 ≤ i) ∧
    ∀ n : Int64, (t.contents = (number n).render → ofTree t = number n) ∧
      evaluate (number n).render = .ok (number n) := by
  rw [ofTree_of_number h]
  refine ⟨fun n => ofNumeral_eq_number_iff, ofNumeral_eq_failure_iff, fun n => ⟨fun hc => ?_, ?_⟩⟩
  · rw [hc, render_number, ofNumeral_write]
  · exact evaluate_render_number n

theorem ofTree_numeral_lowest :
    let t : Tree := ⟨"symbol|number", "-0009223372036854775808", [.anchor]⟩
    let u : Tree := ⟨"symbol|number", "-0009223372036854775809", [.anchor]⟩
    t.Mentions "number" ∧ u.Mentions "number" ∧
      ofTree t = number Int64.minValue ∧
      Numeral.Denotes t.contents.toList Int64.minValue.toInt ∧
      ofTree u = failure "invalid number" ∧
      ∀ i, Numeral.Denotes u.contents.toList i → i < -2 ^ 63 ∨ 2 ^ 63 ≤ i := by
  intro t u
  have tag : "number".toList <:+: "symbol|number".toList := ⟨"symbol|".toList, [], rfl⟩
  have tt : t.Mentions "number" := tag
  have tu : u.Mentions "number" := tag
  have ht : ofTree t = number Int64.minValue := by decide +kernel
  have hu : ofTree u = failure "invalid number" := by decide +kernel
  exact ⟨tt, tu, ht, ((ofTree_numeral tt).1 _).mp ht, hu, (ofTree_numeral tu).2.1.mp hu⟩

end Value

end SexprCalc
