import Mathlib.Data.List.Forall2
import SexprCalc.Proofs.Reduction

namespace SexprCalc

namespace Value

inductive SameShape : Value → Value → Prop
  | number (m n : Int64) : SameShape (.number m) (.number n)
  | failure (message : String) : SameShape (.failure message) (.failure message)
  | symbol (name : String) : SameShape (.symbol name) (.symbol name)
  | list {vs ws} : List.Forall₂ SameShape vs ws → SameShape (.list vs) (.list ws)

def Agree (v w : Value) : Prop :=
  v = Fault.divisionByZero.value ∨ w = Fault.divisionByZero.value ∨ SameShape v w

lemma SameShape.agree {v w : Value} (h : SameShape v w) : Agree v w :=
  .inr (.inr h)

lemma SameShape.number?_eq_none {v w : Value} (h : SameShape v w) (hv : v.number? = none) :
    w.number? = none := by
  cases h with
  | number m n => cases hv
  | _ => rfl

lemma SameShape.isFailure_eq {v w : Value} (h : SameShape v w) : v.isFailure = w.isFailure := by
  cases h <;> rfl

lemma SameShape.eq_of_isFailure {v w : Value} (h : SameShape v w) (hv : v.isFailure = true) :
    v = w := by
  cases h with
  | failure m => rfl
  | _ => cases hv

lemma SameShape.refl (v : Value) : SameShape v v := by
  induction v with
  | number n => exact .number n n
  | failure m => exact .failure m
  | symbol s => exact .symbol s
  | list cells ih => exact .list (List.forall₂_same.mpr ih)

lemma SameShape.normal_cases {v w : Value} (h : SameShape v w) (hv : v.Normal) :
    v = w ∨ ∃ m n, v = .number m ∧ w = .number n := by
  cases hv with
  | number m =>
    cases h with
    | number _ n => exact .inr ⟨m, n, rfl, rfl⟩
  | failure m =>
    cases h
    exact .inl rfl
  | symbol s =>
    cases h
    exact .inl rfl
  | empty =>
    cases h with
    | list h =>
      cases h
      exact .inl rfl

lemma exists_mem_of_sameShape {vs ws : List Value} (h : List.Forall₂ SameShape vs ws) {v : Value}
    (hv : v ∈ vs) : ∃ w ∈ ws, SameShape v w := by
  induction h with
  | nil => cases hv
  | cons hs _ ih =>
    rcases List.mem_cons.mp hv with rfl | hv
    · exact ⟨_, List.mem_cons_self, hs⟩
    · obtain ⟨w, hw, hs⟩ := ih hv
      exact ⟨w, List.mem_cons_of_mem _ hw, hs⟩

lemma exists_numbers_of_sameShape {ms : List Int64} {ws : List Value}
    (h : List.Forall₂ SameShape (ms.map .number) ws) :
    ∃ ns : List Int64, ws = ns.map .number ∧ ns.length = ms.length := by
  induction ms generalizing ws with
  | nil =>
    cases h
    exact ⟨[], rfl, rfl⟩
  | cons m ms ih =>
    cases h with
    | cons h hs =>
      obtain ⟨ns, rfl, hl⟩ := ih hs
      cases h with
      | number _ n => exact ⟨n :: ns, rfl, by simp [hl]⟩

end Value

open Value

namespace Call

lemma agree_arithmetic (op : Operator) (m n : Int64) (ms ns : List Int64) :
    Agree (arithmetic op m ms).value (arithmetic op n ns).value := by
  rcases value_arithmetic_cases op m ms with h | ⟨k, h⟩
  · exact .inl h
  · rcases value_arithmetic_cases op n ns with h' | ⟨l, h'⟩
    · exact .inr (.inl h')
    · rw [h, h']
      exact (SameShape.number k l).agree

lemma agree_of (name : String) {vs ws : List Value} (h : List.Forall₂ SameShape vs ws) :
    Agree (Call.of name vs).value (Call.of name ws).value := by
  have hc := describes_of name vs
  generalize Call.of name vs = c at hc
  cases hc with
  | nonNumeric hv hn =>
    obtain ⟨w, hw, hs⟩ := exists_mem_of_sameShape h hv
    rw [Describes.of_eq (.nonNumeric hw (hs.number?_eq_none hn))]
    exact (SameShape.failure _).agree
  | unknown ms ho =>
    obtain ⟨ns, rfl, -⟩ := exists_numbers_of_sameShape h
    rw [Describes.of_eq (.unknown ns ho)]
    exact (SameShape.failure _).agree
  | idle ho =>
    cases h
    rw [Describes.of_eq (.idle ho)]
    exact (SameShape.list .nil).agree
  | arithmetic m ms ho =>
    obtain ⟨_ | ⟨n, ns⟩, rfl, hl⟩ := exists_numbers_of_sameShape h
    · cases hl
    · rw [Describes.of_eq (.arithmetic n ns ho)]
      exact agree_arithmetic ..

end Call

namespace Form

lemma find?_failure_cases {vs ws : List Value} (h : List.Forall₂ Agree vs ws) :
    vs.find? isFailure = some Fault.divisionByZero.value ∨
      ws.find? isFailure = some Fault.divisionByZero.value ∨
      (∃ v, vs.find? isFailure = some v ∧ ws.find? isFailure = some v) ∨
      List.Forall₂ SameShape vs ws ∧ (∀ v ∈ vs, v.isFailure = false) ∧
        ∀ w ∈ ws, w.isFailure = false := by
  induction h with
  | nil => exact .inr (.inr (.inr ⟨.nil, by simp, by simp⟩))
  | @cons v w vs ws ha _ ih =>
    rcases ha with rfl | rfl | hs
    · exact .inl (List.find?_cons_of_pos rfl)
    · exact .inr (.inl (List.find?_cons_of_pos rfl))
    · cases hv : v.isFailure with
      | true =>
        have hw : w.isFailure = true := hs.isFailure_eq ▸ hv
        refine .inr (.inr (.inl ⟨v, List.find?_cons_of_pos hv, ?_⟩))
        rw [hs.eq_of_isFailure hv, List.find?_cons_of_pos hw]
      | false =>
        have hw : w.isFailure = false := hs.isFailure_eq ▸ hv
        rw [List.find?_cons_of_neg (by simp [hv]), List.find?_cons_of_neg (by simp [hw])]
        rcases ih with h | h | h | ⟨h, hvs, hws⟩
        · exact .inl h
        · exact .inr (.inl h)
        · exact .inr (.inr (.inl h))
        · exact .inr (.inr (.inr ⟨.cons hs h, List.forall_mem_cons.mpr ⟨hv, hvs⟩,
            List.forall_mem_cons.mpr ⟨hw, hws⟩⟩))

lemma agree_of_sameShape {vs ws : List Value} (h : List.Forall₂ SameShape vs ws)
    (hv : ∀ v ∈ vs, v.isFailure = false) (hw : ∀ w ∈ ws, w.isFailure = false) :
    Agree (ofCells vs).value (ofCells ws).value := by
  have hf := describes_ofCells vs
  generalize ofCells vs = f at hf
  cases hf with
  | @failing before after m _ => exact nomatch hv (.failure m) (by simp)
  | empty =>
    cases h
    exact (SameShape.list .nil).agree
  | single _ =>
    cases h with
    | cons hs h =>
      cases h
      rw [Describes.ofCells_eq (.single (hw _ (by simp)))]
      exact hs.agree
  | headless _ ho hn =>
    cases h with
    | @cons _ w _ ws hs h =>
      have hne : ws ≠ [] := by
        rintro rfl
        exact ho (List.forall₂_nil_right_iff.mp h)
      have hwn : ∀ name, w ≠ .symbol name := by
        rintro name rfl
        cases hs
        exact hn name rfl
      rw [Describes.ofCells_eq (.headless hw hne hwn)]
      exact (SameShape.failure _).agree
  | @call name operands _ ho =>
    cases h with
    | @cons _ w _ ws hs h =>
      have hne : ws ≠ [] := by
        rintro rfl
        exact ho (List.forall₂_nil_right_iff.mp h)
      cases hs
      rw [Describes.ofCells_eq (.call (List.forall_mem_cons.mp hw).2 hne)]
      exact Call.agree_of name h

lemma agree_ofCells {vs ws : List Value} (h : List.Forall₂ Agree vs ws) :
    Agree (ofCells vs).value (ofCells ws).value := by
  -- The first failure decides; where there is none, the two lists have the same form.
  rcases find?_failure_cases h with h | h | ⟨v, h, h'⟩ | ⟨h, hv, hw⟩
  · exact .inl (value_of_find? h)
  · exact .inr (.inl (value_of_find? h))
  · rw [value_of_find? h, value_of_find? h']
    exact (SameShape.refl v).agree
  · exact agree_of_sameShape h hv hw

end Form

namespace Value

lemma agree_eval {v w : Value} (h : SameShape v w) : Agree v.eval w.eval := by
  induction v generalizing w with
  | number m =>
    cases h with
    | number _ n => exact (SameShape.number m n).agree
  | failure m =>
    cases h
    exact (SameShape.failure m).agree
  | symbol s =>
    cases h
    exact (SameShape.symbol s).agree
  | list vs ih =>
    cases h with
    | list h =>
      rw [eval_list, eval_list]
      apply Form.agree_ofCells
      induction h with
      | nil => exact .nil
      | cons hs _ ihs =>
        exact .cons (ih _ (by simp) hs) (ihs fun u hu => ih u (List.mem_cons_of_mem _ hu))

/-- Two values that differ in their numbers only evaluate to the same or both to numbers, unless one
of them evaluates to a division by zero. -/
theorem eval_sameShape {v w : Value} (h : SameShape v w) :
    v.eval = Fault.divisionByZero.value ∨ w.eval = Fault.divisionByZero.value ∨
      SameShape v.eval w.eval ∧
        (v.eval = w.eval ∨ ∃ m n, v.eval = number m ∧ w.eval = number n) := by
  rcases agree_eval h with hv | hw | hs
  · exact .inl hv
  · exact .inr (.inl hw)
  · exact .inr (.inr ⟨hs, hs.normal_cases (normal_eval v)⟩)

theorem eval_sameShape_divisors :
    let v := list [symbol "+", list [symbol "/", number 8, number 0], list [number 3, number 4]]
    let w := list [symbol "+", list [symbol "/", number 8, number 2], list [number 3, number 4]]
    (v.eval = Fault.divisionByZero.value ∨ w.eval = Fault.divisionByZero.value ∨
      SameShape v.eval w.eval ∧
        (v.eval = w.eval ∨ ∃ m n, v.eval = number m ∧ w.eval = number n)) ∧
    v.eval = Fault.divisionByZero.value ∧ w.eval = Fault.headNotSymbol.value := by
  intro v w
  have divisors : SameShape (list [symbol "/", number 8, number 0])
      (list [symbol "/", number 8, number 2]) :=
    .list (.cons (.refl _) (.cons (.refl _) (.cons (.number 0 2) .nil)))
  have h : SameShape v w := .list (.cons (.refl _) (.cons divisors (.cons (.refl _) .nil)))
  exact ⟨eval_sameShape h, by decide, by decide⟩

end Value

end SexprCalc
