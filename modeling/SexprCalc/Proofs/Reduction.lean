import SexprCalc.Proofs.Forms

namespace SexprCalc

/-- A value with a hole in the place of one of its parts. -/
inductive Context
  | hole
  | cell (before : List Value) (inner : Context) (after : List Value)

def Context.fill : Context → Value → Value
  | hole, u => u
  | cell before c after, u => .list (before ++ c.fill u :: after)

namespace Value

inductive Normal : Value → Prop
  | number (n : Int64) : Normal (.number n)
  | failure (message : String) : Normal (.failure message)
  | symbol (name : String) : Normal (.symbol name)
  | empty : Normal (.list [])

end Value

lemma Call.normal_value (c : Call) : c.value.Normal := by
  cases c with
  | nonNumeric => exact .failure _
  | unknown => exact .failure _
  | idle => exact .empty
  | arithmetic op n ns =>
    rcases value_arithmetic_cases op n ns with h | ⟨m, h⟩
    · rw [h]
      exact .failure _
    · rw [h]
      exact .number m

lemma Call.value_ne_symbol (c : Call) (name : String) : c.value ≠ .symbol name := by
  cases c with
  | arithmetic op n ns =>
    rcases value_arithmetic_cases op n ns with h | ⟨m, h⟩ <;> rw [h] <;> exact nofun
  | _ => exact nofun

namespace Form

lemma normal_value {cells : List Value} (h : ∀ v ∈ cells, v.Normal) :
    (ofCells cells).value.Normal := by
  have hf := describes_ofCells cells
  generalize ofCells cells = f at hf
  cases hf with
  | failing _ => exact .failure _
  | empty => exact .empty
  | @single v _ => exact h v (by simp)
  | headless _ _ _ => exact .failure _
  | call _ _ => exact Call.normal_value _

lemma eq_singleton_of_value_eq_symbol {cells : List Value} {name : String}
    (h : (ofCells cells).value = .symbol name) : cells = [.symbol name] := by
  have hf := describes_ofCells cells
  generalize ofCells cells = f at hf h
  cases hf with
  | single _ => exact congrArg (fun v => [v]) h
  | call _ _ => exact absurd h (Call.value_ne_symbol _ name)
  | _ => cases h

end Form

namespace Value

lemma normal_eval (v : Value) : v.eval.Normal := by
  induction v with
  | number n => exact .number n
  | failure m => exact .failure m
  | symbol s => exact .symbol s
  | list cells ih =>
    rw [eval_list]
    apply Form.normal_value
    simpa using ih

lemma Normal.eval_eq {v : Value} (h : v.Normal) : v.eval = v := by
  cases h <;> rfl

lemma eval_eval (v : Value) : v.eval.eval = v.eval :=
  (normal_eval v).eval_eq

lemma symbol_mem_postorder {v : Value} {name : String} (h : v.eval = .symbol name) :
    .symbol name ∈ v.postorder := by
  induction v with
  | number n => cases h
  | failure m => cases h
  | symbol s =>
    rw [← h]
    exact mem_postorder_self _
  | list cells ih =>
    rw [eval_list] at h
    obtain ⟨v, rfl, hv⟩ := List.map_eq_singleton_iff.mp (Form.eq_singleton_of_value_eq_symbol h)
    rw [postorder_list, List.flatMap_singleton]
    exact List.mem_append_left _ (ih v (by simp) hv)

lemma eval_fill_congr (c : Context) {u v : Value} (h : u.eval = v.eval) :
    (c.fill u).eval = (c.fill v).eval := by
  induction c with
  | hole => exact h
  | cell before c after ih =>
    simp only [Context.fill, eval_list, List.map_append, List.map_cons, ih]

theorem mem_postorder_iff {u v : Value} : u ∈ v.postorder ↔ ∃ c : Context, c.fill u = v := by
  constructor
  · intro h
    induction v with
    | list cells ih =>
      rw [postorder_list] at h
      rcases List.mem_append.mp h with h | h
      · obtain ⟨v, hv, hu⟩ := List.mem_flatMap.mp h
        obtain ⟨c, hc⟩ := ih v hv hu
        obtain ⟨before, after, rfl⟩ := List.append_of_mem hv
        exact ⟨.cell before c after, by rw [Context.fill, hc]⟩
      · exact ⟨.hole, List.mem_singleton.mp h⟩
    | _ => exact ⟨.hole, List.mem_singleton.mp h⟩
  · rintro ⟨c, rfl⟩
    induction c with
    | hole => exact mem_postorder_self u
    | cell before c after ih =>
      rw [Context.fill, postorder_list]
      exact List.mem_append_left _ (List.mem_flatMap.mpr ⟨c.fill u, by simp, ih⟩)

/-- A value evaluates to one that has no cells and evaluates to itself; to a symbol only if that
symbol stands in it; and to the same when any part of it is evaluated first. -/
theorem eval_reduces (v : Value) :
    v.eval.Normal ∧ v.eval.eval = v.eval ∧
      (∀ name, v.eval = symbol name → symbol name ∈ v.postorder) ∧
      ∀ (c : Context) (u : Value), c.fill u = v → (c.fill u.eval).eval = v.eval := by
  refine ⟨normal_eval v, eval_eval v, fun _ => symbol_mem_postorder, ?_⟩
  rintro c u rfl
  exact eval_fill_congr c (eval_eval u)

end Value

end SexprCalc
