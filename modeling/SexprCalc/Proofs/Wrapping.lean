import Mathlib.Algebra.BigOperators.Group.List.Basic
import Mathlib.Data.Int.ModEq
import SexprCalc.Proofs.Reduction

/-! Expressions without division are computed up to multiples of 2 ^ 64: to wrap around at every
step is to wrap around once. -/

namespace SexprCalc

/-- What an operator other than division makes of integers of any size. -/
def unbounded (name : String) (first : Int) (rest : List Int) : Int :=
  if name = "+" then first + rest.sum
  else if name = "*" then first * rest.prod
  else if rest = [] then -first
  else first - rest.sum

namespace Value

inductive DivisionFree : Value → Prop
  | number (n : Int64) : DivisionFree (.number n)
  | group {v} : DivisionFree v → DivisionFree (.list [v])
  | call {name operands} : name = "+" ∨ name = "-" ∨ name = "*" → operands ≠ [] →
      (∀ v ∈ operands, DivisionFree v) → DivisionFree (.list (.symbol name :: operands))

mutual

def integer : Value → Int
  | .number n => n.toInt
  | .list [v] => integer v
  | .list (.symbol name :: v :: vs) => unbounded name (integer v) (integers vs)
  | _ => 0

def integers : List Value → List Int
  | [] => []
  | v :: vs => integer v :: integers vs

end

lemma integers_eq (vs : List Value) : integers vs = vs.map integer := by
  induction vs with
  | nil => rfl
  | cons v vs ih => rw [integers, ih, List.map_cons]

lemma integer_call (name : String) (v : Value) (vs : List Value) :
    integer (.list (.symbol name :: v :: vs)) = unbounded name v.integer (vs.map integer) := by
  rw [integer, integers_eq]

end Value

namespace Operator

lemma foldLeft_ofInt {op : Operator} {f : Int → Int → Int}
    (h : ∀ x y, op.apply (.ofInt x) (.ofInt y) = .ok (.ofInt (f x y))) (x : Int) (zs : List Int) :
    op.foldLeft (.ofInt x) (zs.map Int64.ofInt) = .ok (.ofInt (zs.foldl f x)) := by
  induction zs generalizing x with
  | nil => rfl
  | cons z zs ih =>
    rw [List.map_cons, foldLeft, h]
    exact ih (f x z)

lemma foldl_sub (x : Int) (zs : List Int) : zs.foldl (· - ·) x = x - zs.sum := by
  induction zs generalizing x with
  | nil => simp
  | cons z zs ih => rw [List.foldl_cons, ih, List.sum_cons, sub_sub]

lemma combine_ofInt {name : String} (h : name = "+" ∨ name = "-" ∨ name = "*") :
    ∃ op, ofSymbol? name = some op ∧ ∀ (x : Int) (zs : List Int),
      op.combine (.ofInt x) (zs.map Int64.ofInt) = .ok (.ofInt (unbounded name x zs)) := by
  rcases h with rfl | rfl | rfl
  · refine ⟨add, rfl, fun x zs => ?_⟩
    have hs : zs.foldl (· + ·) x = x + zs.sum := by
      rw [← List.sum_cons, List.sum_eq_foldl, List.foldl_cons, zero_add]
    rw [combine, if_neg (by simp), foldLeft_ofInt fun x y => ?_, hs]
    · rfl
    · rw [apply, Int64.ofInt_add]
  · refine ⟨sub, rfl, fun x zs => ?_⟩
    cases zs with
    | nil => simp [combine, unbounded, Int64.ofInt_neg]
    | cons z zs =>
      rw [combine, if_neg (by simp), foldLeft_ofInt fun x y => ?_, foldl_sub]
      · rfl
      · rw [apply, Int64.ofInt_sub]
  · refine ⟨mul, rfl, fun x zs => ?_⟩
    have hp : zs.foldl (· * ·) x = x * zs.prod := by
      rw [← List.prod_cons, List.prod_eq_foldl, List.foldl_cons, one_mul]
    rw [combine, if_neg (by simp), foldLeft_ofInt fun x y => ?_, hp]
    · rfl
    · rw [apply, Int64.ofInt_mul]

end Operator

lemma toInt_modEq_iff {n : Int64} {z : Int} : n.toInt ≡ z [ZMOD 2 ^ 64] ↔ n = .ofInt z := by
  have hlo := n.le_toInt
  have hhi := n.toInt_lt
  rw [eq_comm, Int64.ofInt_eq_iff_bmod_eq_toInt, Int.bmod_eq_iff (by decide),
    Int.modEq_comm, Int.modEq_iff_dvd]
  constructor
  · intro hd
    exact ⟨by omega, by omega, by simpa using hd⟩
  · rintro ⟨-, -, hd⟩
    simpa using hd

namespace Value

lemma DivisionFree.eval_eq {v : Value} (h : v.DivisionFree) :
    v.eval = .number (.ofInt v.integer) := by
  induction h with
  | number n =>
    rw [integer, Int64.ofInt_toInt]
    rfl
  | group _ ih => rw [eval_list_singleton, ih, integer]
  | @call name operands hn ho _ ih =>
    obtain ⟨v, vs, rfl⟩ := List.exists_cons_of_ne_nil ho
    obtain ⟨op, hop, hc⟩ := Operator.combine_ofInt hn
    -- Every operand has been wrapped around already, which a further operation does not notice.
    have hvs : (v :: vs).map eval =
        (Int64.ofInt v.integer :: (vs.map integer).map Int64.ofInt).map Value.number := by
      simpa using ih
    rw [eval_call hop hvs, Call.value, hc, integer_call]

lemma DivisionFree.of_call {name : String} {operands : List Value}
    (h : DivisionFree (.list (.symbol name :: operands))) :
    (name = "+" ∨ name = "-" ∨ name = "*") ∧ operands ≠ [] ∧ ∀ v ∈ operands, v.DivisionFree := by
  cases h with
  | group h => cases h
  | call hn ho hv => exact ⟨hn, ho, hv⟩

lemma DivisionFree.of_mem {cells : List Value} (h : DivisionFree (.list cells)) {v : Value}
    (hv : v ∈ cells) (hs : ∀ name, v ≠ .symbol name) : v.DivisionFree := by
  cases h with
  | group h =>
    rw [List.mem_singleton.mp hv]
    exact h
  | call _ _ ho =>
    rcases List.mem_cons.mp hv with rfl | hv
    · exact absurd rfl (hs _)
    · exact ho v hv

lemma DivisionFree.of_fill {c : Context} {cells : List Value}
    (h : (c.fill (.list cells)).DivisionFree) : DivisionFree (.list cells) := by
  induction c with
  | hole => exact h
  | cell before c after ih =>
    refine ih (h.of_mem (by simp) fun name => ?_)
    cases c <;> exact nofun

/-- Operands in another order. Only what is subtracted may change places in a difference. -/
inductive Reordered : String → List Value → List Value → Prop
  | terms {vs ws} : vs.Perm ws → Reordered "+" vs ws
  | factors {vs ws} : vs.Perm ws → Reordered "*" vs ws
  | subtrahends {v vs ws} : vs.Perm ws → Reordered "-" (v :: vs) (v :: ws)

lemma Reordered.perm {name : String} {vs ws : List Value} (h : Reordered name vs ws) :
    vs.Perm ws := by
  cases h with
  | terms hp => exact hp
  | factors hp => exact hp
  | subtrahends hp => exact hp.cons _

lemma unbounded_sub_perm (x : Int) {xs ys : List Int} (hp : xs.Perm ys) :
    unbounded "-" x xs = unbounded "-" x ys := by
  cases xs with
  | nil => rw [hp.nil_eq]
  | cons z zs =>
    have hy : ys ≠ [] := fun h => by simp [h] at hp
    simp [unbounded, hp.sum_eq, hy]

lemma Reordered.unbounded_eq {name : String} {v w : Value} {vs ws : List Value}
    (h : Reordered name (v :: vs) (w :: ws)) :
    unbounded name v.integer (vs.map integer) = unbounded name w.integer (ws.map integer) := by
  cases h with
  | terms hp => simpa [unbounded] using (hp.map integer).sum_eq
  | factors hp => simpa [unbounded] using (hp.map integer).prod_eq
  | subtrahends hp => exact unbounded_sub_perm _ (hp.map integer)

lemma Reordered.eval_eq {name : String} {vs ws : List Value} (h : Reordered name vs ws)
    (hv : DivisionFree (.list (.symbol name :: vs))) :
    (list (.symbol name :: vs)).eval = (list (.symbol name :: ws)).eval := by
  obtain ⟨hn, ho, hm⟩ := hv.of_call
  obtain ⟨v, vs, rfl⟩ := List.exists_cons_of_ne_nil ho
  have hne : ws ≠ [] := fun hw => ho (List.perm_nil.mp (hw ▸ h.perm))
  obtain ⟨w, ws, rfl⟩ := List.exists_cons_of_ne_nil hne
  have hw : DivisionFree (.list (.symbol name :: w :: ws)) :=
    .call hn (by simp) fun u hu => hm u (h.perm.mem_iff.mpr hu)
  rw [hv.eval_eq, hw.eval_eq, integer_call, integer_call, h.unbounded_eq]

/-- An expression without division evaluates to the one 64-bit number that is congruent to the
integer it stands for. So the order of operands makes no difference, wherever they stand. -/
theorem eval_modEq {v : Value} (h : v.DivisionFree) :
    (∃ m, v.eval = number m ∧ ∀ n : Int64, n.toInt ≡ v.integer [ZMOD 2 ^ 64] ↔ n = m) ∧
      ∀ (c : Context) (name : String) (vs ws : List Value), Reordered name vs ws →
        c.fill (list (symbol name :: vs)) = v →
        (c.fill (list (symbol name :: ws))).eval = v.eval := by
  refine ⟨⟨.ofInt v.integer, h.eval_eq, fun n => toInt_modEq_iff⟩, ?_⟩
  rintro c name vs ws hr rfl
  exact (eval_fill_congr c (hr.eval_eq h.of_fill)).symm

theorem eval_modEq_nested :
    let last := list [symbol "-", number Int64.minValue]
    let c := Context.cell [symbol "-"] (.cell [] .hole []) [last]
    let v := c.fill (list [symbol "*", number 3, number Int64.maxValue, number (-2)])
    v.integer = -64563604257983430650 ∧ v.eval = number (-9223372036854775802) ∧
    (c.fill (list [symbol "*", number (-2), number Int64.maxValue, number 3])).eval = v.eval := by
  intro last c v
  have product : DivisionFree (list [symbol "*", number 3, number Int64.maxValue, number (-2)]) :=
    .call (by simp) (by simp) (by simp [DivisionFree.number])
  have negation : last.DivisionFree :=
    .call (by simp) (by simp) (by simp [DivisionFree.number])
  have hv : v.DivisionFree :=
    .call (by simp) (by simp) (by simp [Context.fill, product.group, negation])
  obtain ⟨⟨m, hm, hu⟩, hr⟩ := eval_modEq hv
  have hi : v.integer = -64563604257983430650 := by decide
  have hw : m = -9223372036854775802 := ((hu _).mp (by rw [hi]; decide)).symm
  exact ⟨hi, by rw [hm, hw], hr c "*" _ _ (.factors (by decide)) rfl⟩

end Value

end SexprCalc
