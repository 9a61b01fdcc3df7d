import Mathlib.Algebra.BigOperators.Group.List.Basic
import Mathlib.Algebra.Ring.Int.Defs
import SexprCalc.Proofs.Forms

namespace SexprCalc

lemma tdiv_tdiv (a b c : Int) : (a.tdiv b).tdiv c = a.tdiv (b * c) := by
  have nat (k m n : Nat) : ((k : Int).tdiv m).tdiv n = (k : Int).tdiv (m * n) := by
    rw [← Int.ofNat_tdiv, ← Int.ofNat_tdiv, Nat.div_div_eq_div_mul, Int.ofNat_tdiv, Int.natCast_mul]
  obtain ⟨k, rfl | rfl⟩ := a.eq_nat_or_neg <;> obtain ⟨m, rfl | rfl⟩ := b.eq_nat_or_neg <;>
    obtain ⟨n, rfl | rfl⟩ := c.eq_nat_or_neg <;>
    simp only [Int.neg_tdiv, Int.tdiv_neg, Int.neg_mul, Int.mul_neg, Int.neg_neg, nat]

namespace Operator

lemma ne_minValue_iff {n : Int64} : n ≠ .minValue ↔ n.toInt.natAbs < 2 ^ 63 := by
  have hm : Int64.minValue.toInt = -2 ^ 63 := rfl
  have hlo := n.le_toInt
  have hhi := n.toInt_lt
  rw [← Int64.toInt_inj.ne, hm]
  omega

lemma div_ne_minValue {n : Int64} (h : n ≠ .minValue) (m : Int64) : n / m ≠ .minValue := by
  have hq := Int.natAbs_tdiv_le_natAbs n.toInt m.toInt
  rw [ne_minValue_iff, Int64.toInt_div_of_ne_left n m h]
  exact Nat.lt_of_le_of_lt hq (ne_minValue_iff.mp h)

lemma minValue_div_ne {m : Int64} (hp : m ≠ 1) (hn : m ≠ -1) : .minValue / m ≠ .minValue := by
  have hm : m.toInt.natAbs ≠ 1 := by
    have h₁ : (1 : Int64).toInt = 1 := rfl
    have h₂ : (-1 : Int64).toInt = -1 := rfl
    rw [← Int64.toInt_inj.ne] at hp hn
    omega
  have hq : (2 ^ 63 : Nat) / m.toInt.natAbs < 2 ^ 63 := by
    rcases Nat.eq_zero_or_pos m.toInt.natAbs with h0 | h0
    · rw [h0]
      decide
    · exact Nat.div_lt_self (by decide) (by omega)
  rw [ne_minValue_iff, Int64.toInt_div_of_ne_right .minValue m hn, Int.natAbs_tdiv]
  exact hq

/-- The divisors from the first one on that is neither one nor minus one. -/
def effective (ns : List Int64) : List Int64 :=
  ns.dropWhile fun n => n = 1 ∨ n = -1

lemma effective_cases (ns : List Int64) :
    effective ns = [] ∨ ∃ m ms, effective ns = m :: ms ∧ m ≠ 1 ∧ m ≠ -1 := by
  cases h : effective ns with
  | nil => exact .inl rfl
  | cons m ms =>
    have hm := List.head?_dropWhile_not (fun n : Int64 => decide (n = 1 ∨ n = -1)) ns
    rw [← effective, h] at hm
    exact .inr ⟨m, ms, rfl, by simpa using hm⟩

lemma toInt_foldl_div {n : Int64} (h : n ≠ .minValue) (ms : List Int64) :
    (ms.foldl (· / ·) n).toInt = n.toInt.tdiv (ms.map Int64.toInt).prod := by
  induction ms generalizing n with
  | nil => simp
  | cons m ms ih =>
    rw [List.foldl_cons, ih (div_ne_minValue h m), Int64.toInt_div_of_ne_left n m h, tdiv_tdiv,
      List.map_cons, List.prod_cons]

lemma foldl_div_minValue (ms : List Int64) :
    ms.foldl (· / ·) Int64.minValue = (effective ms).foldl (· / ·) .minValue := by
  induction ms with
  | nil => rfl
  | cons m ms ih =>
    rw [effective, List.dropWhile_cons]
    split
    · next hm =>
      rw [List.foldl_cons, ← effective, ← ih]
      rcases of_decide_eq_true hm with rfl | rfl
      · rw [Int64.div_one]
      · rw [Int64.minValue_div_neg_one]
    · rfl

lemma toInt_foldl_div_minValue {m : Int64} (hp : m ≠ 1) (hn : m ≠ -1) (ms : List Int64) :
    ((m :: ms).foldl (· / ·) Int64.minValue).toInt =
      Int64.minValue.toInt.tdiv ((m :: ms).map Int64.toInt).prod := by
  rw [List.foldl_cons, toInt_foldl_div (minValue_div_ne hp hn),
    Int64.toInt_div_of_ne_right .minValue m hn, tdiv_tdiv, List.map_cons, List.prod_cons]

lemma foldLeft_div (n : Int64) (ms : List Int64) :
    div.foldLeft n ms =
      if 0 ∈ ms then .error .divisionByZero else .ok (ms.foldl (· / ·) n) := by
  induction ms generalizing n with
  | nil => rfl
  | cons m ms ih =>
    rw [foldLeft, apply]
    by_cases h : m = 0
    · simp [h]
    · simp [h, ih, eq_comm]

end Operator

namespace Value

open Operator

def division (n : Int64) (ms : List Int64) : Value :=
  .list (.symbol "/" :: (n :: ms).map .number)

lemma eval_division (n : Int64) (ms : List Int64) :
    (division n ms).eval =
      if 0 ∈ ms then Fault.divisionByZero.value else number (ms.foldl (· / ·) n) := by
  have ho : ofSymbol? "/" = some div := rfl
  have hn : ((n :: ms).map number).map eval = (n :: ms).map number := by
    rw [List.map_map]
    rfl
  rw [division, eval_call ho hn, Call.value, combine, if_neg (by simp), foldLeft_div]
  by_cases h : 0 ∈ ms
  · rw [if_pos h, if_pos h]
  · rw [if_neg h, if_neg h]

example : (division .minValue [-1, 3]).eval = number (-3074457345618258602) ∧
    (division .minValue [3, -1]).eval = number 3074457345618258602 := by
  decide

end Value

end SexprCalc
