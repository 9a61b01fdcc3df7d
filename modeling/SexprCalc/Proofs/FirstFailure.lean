import Mathlib.Tactic.Lemma
import SexprCalc.Eval.Basic

namespace SexprCalc

namespace Form

lemma firstFailure?_eq_find? (index : Nat) (vs : List Value) :
    (firstFailure? index vs).map (fun found => Value.failure found.2) =
      vs.find? Value.isFailure := by
  induction vs generalizing index with
  | nil => rfl
  | cons v vs ih =>
    cases v with
    | number n => exact ih (index + 1)
    | failure m => rfl
    | symbol s => exact ih (index + 1)
    | list cells => exact ih (index + 1)

lemma value_of_find? {cells : List Value} {v : Value} (h : cells.find? Value.isFailure = some v) :
    (ofCells cells).value = v := by
  rw [← firstFailure?_eq_find? 0] at h
  obtain ⟨⟨index, message⟩, hf, rfl⟩ := Option.map_eq_some_iff.mp h
  simp [ofCells, hf, value]

end Form

namespace Value

mutual

/-- The parts of a value, itself included, each after its own parts. -/
def postorder : Value → List Value
  | .list cells => postorderEach cells ++ [.list cells]
  | v => [v]

def postorderEach : List Value → List Value
  | [] => []
  | v :: vs => postorder v ++ postorderEach vs

end

lemma postorderEach_eq (vs : List Value) : postorderEach vs = vs.flatMap postorder := by
  induction vs with
  | nil => rfl
  | cons v vs ih => rw [postorderEach, ih, List.flatMap_cons]

lemma postorder_list (cells : List Value) :
    postorder (.list cells) = cells.flatMap postorder ++ [.list cells] := by
  rw [postorder, postorderEach_eq]

lemma mem_postorder_self (v : Value) : v ∈ v.postorder := by
  cases v <;> simp [postorder]

lemma eval_list_of_first {before after : List Value} {v : Value}
    (hb : ∀ w ∈ before, w.eval.isFailure = false) (hv : v.eval.isFailure = true) :
    (list (before ++ v :: after)).eval = v.eval := by
  have hn : (before.map eval).find? isFailure = none := by
    simpa [List.find?_eq_none] using hb
  rw [eval_list]
  apply Form.value_of_find?
  rw [List.map_append, List.find?_append, hn, List.map_cons, List.find?_cons_of_pos hv]
  rfl

lemma eval_eq_of_find?_postorder {v u : Value}
    (h : v.postorder.find? (fun w => w.eval.isFailure) = some u) : v.eval = u.eval := by
  induction v generalizing u with
  | number n => simp_all [postorder]
  | failure m => simp_all [postorder]
  | symbol s => simp_all [postorder]
  | list cells ih =>
    rw [postorder_list, List.find?_append, List.find?_flatMap, Option.or_eq_some_iff] at h
    -- The first failing part lies in a cell, whose earlier siblings do not fail, or it is the list.
    rcases h with h | ⟨-, h⟩
    · obtain ⟨before, c, after, rfl, hc, hb⟩ := List.findSome?_eq_some_iff.mp h
      have he := ih c (by simp) hc
      have hu := List.find?_some hc
      rw [← he] at hu
      rw [eval_list_of_first ?_ hu, he]
      intro w hw
      have hn := List.find?_eq_none.mp (hb w hw) w (mem_postorder_self w)
      exact Bool.eq_false_iff.mpr hn
    · rw [List.mem_singleton.mp (List.mem_of_find?_eq_some h)]

/-- If any part of a value fails, the value fails as the first of them does, in the order in which
they are evaluated. -/
theorem eval_eq_first_failure (v : Value) (h : ∃ u ∈ v.postorder, u.eval.isFailure = true) :
    ∃ before u after, v.postorder = before ++ u :: after ∧
      (∀ w ∈ before, w.eval.isFailure = false) ∧ u.eval.isFailure = true ∧ v.eval = u.eval := by
  obtain ⟨u, hu⟩ := Option.isSome_iff_exists.mp (List.find?_isSome.mpr h)
  obtain ⟨hf, before, after, hs, hb⟩ := List.find?_eq_some_iff_append.mp hu
  refine ⟨before, u, after, hs, fun w hw => ?_, hf, eval_eq_of_find?_postorder hu⟩
  simpa using hb w hw

theorem eval_eq_first_failure_nested :
    let v := list [symbol "+", list [number 1, list [symbol "/", number 5, number 0]],
      failure "late"]
    (∃ before u after, v.postorder = before ++ u :: after ∧
      (∀ w ∈ before, w.eval.isFailure = false) ∧ u.eval.isFailure = true ∧ v.eval = u.eval) ∧
    v.eval = Fault.divisionByZero.value :=
  ⟨eval_eq_first_failure _ ⟨failure "late", by decide, rfl⟩, by decide⟩

end Value

end SexprCalc
