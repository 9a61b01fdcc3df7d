import Mathlib.Algebra.Group.Int.Defs
import SexprCalc.Proofs.Reduction
import SexprCalc.Proofs.Sentences
import SexprCalc.Proofs.Translation

namespace SexprCalc

open Text

lemma Token.IsOperator.exists_ofSymbol? {name : String} (h : IsOperator name) :
    ∃ op, Operator.ofSymbol? name = some op := by
  rcases h with rfl | rfl | rfl | rfl
  · exact ⟨.add, rfl⟩
  · exact ⟨.sub, rfl⟩
  · exact ⟨.mul, rfl⟩
  · exact ⟨.div, rfl⟩

lemma Token.IsNumeral.exists_integer? {s : String} (h : IsNumeral s) :
    ∃ n, Numeral.integer? s.toList = some n := by
  obtain ⟨digits, hne, hd, hs⟩ := h
  have hn : Numeral.natural? digits = some (Nat.ofDigitChars 10 digits 0) :=
    if_pos ⟨hne, List.all_eq_true.mpr hd⟩
  rcases hs with hs | hs
  · obtain ⟨c, cs, rfl⟩ := List.exists_cons_of_ne_nil hne
    rw [hs, Numeral.integer?_of_isDigit c cs (hd c List.mem_cons_self), hn]
    exact ⟨_, rfl⟩
  · rw [hs, Numeral.integer?, hn]
    exact ⟨_, rfl⟩

lemma Text.Numeral.inRange_iff {n : Int} : InRange n ↔ -2 ^ 63 ≤ n ∧ n < 2 ^ 63 := by
  have hlo : Int64.minValue.toInt = -2 ^ 63 := rfl
  have hhi : Int64.maxValue.toInt = 2 ^ 63 - 1 := rfl
  rw [InRange, hlo, hhi, Int.le_sub_one_iff]

lemma Fault.value_ne_unknownOperator {f : Fault} (h : f ≠ .unknownOperator) :
    f.value ≠ unknownOperator.value := by
  cases f with
  | unknownOperator => exact absurd rfl h
  | _ => decide

namespace Value

inductive Outcome : Value → Prop
  | number (n : Int64) : Outcome (.number n)
  | symbol {name} : Token.IsOperator name → Outcome (.symbol name)
  | empty : Outcome (.list [])
  | failure {f : Fault} : f ≠ .unknownOperator → Outcome f.value

end Value

lemma Call.outcome_value {name : String} (h : Token.IsOperator name) (operands : List Value) :
    (Call.of name operands).value.Outcome := by
  have hc := describes_of name operands
  generalize Call.of name operands = c at hc
  cases hc with
  | nonNumeric _ _ => exact .failure (f := .nonNumericOperand) (by decide)
  | unknown _ hn =>
    obtain ⟨op, ho⟩ := h.exists_ofSymbol?
    cases hn.symm.trans ho
  | idle _ => exact .empty
  | @arithmetic op n ns _ =>
    rcases value_arithmetic_cases op n ns with hv | ⟨m, hv⟩ <;> rw [hv]
    · exact .failure (by decide)
    · exact .number m

lemma Form.outcome_value {cells : List Value} (h : ∀ v ∈ cells, v.Outcome) :
    (ofCells cells).value.Outcome := by
  have hf := describes_ofCells cells
  generalize ofCells cells = f at hf
  cases hf with
  | @failing _ _ message _ => exact h (.failure message) (by simp)
  | empty => exact .empty
  | @single v _ => exact h v (by simp)
  | headless _ _ _ => exact .failure (f := .headNotSymbol) (by decide)
  | @call name operands _ _ =>
    cases h (.symbol name) (by simp) with
    | symbol hn => exact Call.outcome_value hn operands

namespace Value

lemma outcome_eval_list {cells : List Value} (h : ∀ v ∈ cells, v.eval.Outcome) :
    (list cells).eval.Outcome := by
  rw [eval_list]
  exact Form.outcome_value (List.forall_mem_map.mpr h)

lemma outcome_eval_ofNumeral (s : String) : (ofNumeral s).eval.Outcome := by
  rw [ofNumeral]
  split
  · exact .number _
  · exact .failure (f := .badNumeral) (by decide)

lemma ofNumeral_eq_badNumeral {s : String} {n : Int} (hs : Numeral.integer? s.toList = some n)
    (hn : ¬Numeral.InRange n) : ofNumeral s = Fault.badNumeral.value := by
  simp [ofNumeral, Numeral.read?, hs, hn]

lemma isFailure_eval_of_mem_postorder {u v : Value} (hu : u ∈ v.postorder)
    (hf : u.eval.isFailure = true) : v.eval.isFailure = true := by
  have hs : (v.postorder.find? fun w => w.eval.isFailure).isSome = true :=
    List.find?_isSome.mpr ⟨u, hu, hf⟩
  obtain ⟨w, hw⟩ := Option.isSome_iff_exists.mp hs
  have hwf := List.find?_some hw
  rw [eval_eq_of_find?_postorder hw]
  exact hwf

end Value

namespace Tree

open Value

lemma IsExpression.outcome_eval {t : Tree} (h : t.IsExpression) : (ofTree t).eval.Outcome := by
  induction h with
  | @number s _ =>
    change (ofTree (.number s)).eval.Outcome
    rw [ofTree_number]
    exact outcome_eval_ofNumeral s
  | @symbol s hs =>
    change (ofTree (.symbol s)).eval.Outcome
    rw [ofTree_symbol]
    exact .symbol hs
  | @group ts hts ih =>
    change (ofTree (.group ts)).eval.Outcome
    rw [ofTree_group hts]
    exact outcome_eval_list (List.forall_mem_map.mpr ih)

lemma mem_postorder_of_mem_yield {ts : List Tree} {s : String}
    (h : ∀ t ∈ ts, .number s ∈ t.yield → ofNumeral s ∈ (ofTree t).postorder)
    (hs : .number s ∈ ts.flatMap yield) :
    ofNumeral s ∈ (Value.list (ts.map ofTree)).postorder := by
  obtain ⟨t, ht, hs⟩ := List.mem_flatMap.mp hs
  rw [postorder_list, List.flatMap_map]
  exact List.mem_append_left _ (List.mem_flatMap.mpr ⟨t, ht, h t ht hs⟩)

lemma IsExpression.ofNumeral_mem_postorder {t : Tree} {s : String} (h : t.IsExpression)
    (hs : .number s ∈ t.yield) : ofNumeral s ∈ (ofTree t).postorder := by
  induction h with
  | @number s' _ =>
    have hy : yield (.number s') = [.number s'] := rfl
    change .number s ∈ yield (.number s') at hs
    change ofNumeral s ∈ (ofTree (.number s')).postorder
    rw [hy, List.mem_singleton] at hs
    cases hs
    rw [ofTree_number]
    exact mem_postorder_self _
  | @symbol s' _ =>
    have hy : yield (.symbol s') = [.symbol s'] := rfl
    change .number s ∈ yield (.symbol s') at hs
    rw [hy, List.mem_singleton] at hs
    cases hs
  | @group ts hts ih =>
    change .number s ∈ yield (.group ts) at hs
    change ofNumeral s ∈ (ofTree (.group ts)).postorder
    rw [ofTree_group hts]
    apply mem_postorder_of_mem_yield ih
    rw [yield_group] at hs
    simpa using hs

end Tree

lemma evaluate_eq_ok_iff {text : String} {v : Value} :
    evaluate text = .ok v ↔ ∃ t, Tree.read text = .ok t ∧ (Value.ofTree t).eval = v := by
  rw [evaluate]
  cases Tree.read text <;> simp [Except.map]

lemma exists_expressions_of_evaluate {text : String} {v : Value} (h : evaluate text = .ok v) :
    ∃ ts : List Tree, (∀ t ∈ ts, t.IsExpression) ∧ Token.lex text = .ok (ts.flatMap Tree.yield) ∧
      v = (Value.list (ts.map Value.ofTree)).eval := by
  obtain ⟨t, hr, rfl⟩ := evaluate_eq_ok_iff.mp h
  obtain ⟨ts, hts, rfl, hl⟩ := Tree.exists_expressions_of_read hr
  exact ⟨ts, hts, hl, congrArg Value.eval (Value.ofTree_root hts)⟩

lemma outcome_of_evaluate {text : String} {v : Value} (h : evaluate text = .ok v) :
    v.Outcome := by
  obtain ⟨ts, hts, -, rfl⟩ := exists_expressions_of_evaluate h
  exact Value.outcome_eval_list (List.forall_mem_map.mpr fun t ht => (hts t ht).outcome_eval)

/-- The value of a text is a number, an operator sign, the empty list or a failure, though never for
an unknown operator. It is a failure as soon as one numeral of the text is out of range. -/
theorem evaluate_closed {text : String} {v : Value} (h : evaluate text = .ok v) :
    v.Outcome ∧ v ≠ Fault.unknownOperator.value ∧
      ∃ ts, Token.lex text = .ok ts ∧ ∀ s, .number s ∈ ts → ∃ n : Int,
        Numeral.integer? s.toList = some n ∧
          (n < -2 ^ 63 ∨ 2 ^ 63 ≤ n → v.isFailure = true) := by
  have ho := outcome_of_evaluate h
  refine ⟨ho, ?_, ?_⟩
  · cases ho with
    | failure hf => exact Fault.value_ne_unknownOperator hf
    | _ => exact nofun
  · obtain ⟨ts, hts, hl, rfl⟩ := exists_expressions_of_evaluate h
    refine ⟨_, hl, fun s hs => ?_⟩
    obtain ⟨t, ht, hst⟩ := List.mem_flatMap.mp hs
    have hw : Token.IsNumeral s := (hts t ht).wellFormed _ hst
    obtain ⟨n, hn⟩ := hw.exists_integer?
    refine ⟨n, hn, fun hr => ?_⟩
    have hm := Tree.mem_postorder_of_mem_yield
      (fun t ht hs => (hts t ht).ofNumeral_mem_postorder hs) hs
    have hb : Value.ofNumeral s = Fault.badNumeral.value :=
      Value.ofNumeral_eq_badNumeral hn (by rw [Numeral.inRange_iff]; omega)
    apply Value.isFailure_eval_of_mem_postorder hm
    rw [hb]
    rfl

lemma evaluate_eq_of_toOption {text : String} {v : Value} (h : (evaluate text).toOption = some v) :
    evaluate text = .ok v := by
  cases he : evaluate text with
  | ok w =>
    rw [he] at h
    exact congrArg Except.ok (Option.some.inj h)
  | error e =>
    rw [he] at h
    cases h

theorem evaluate_closed_below :
    let text := "(+ (* 2 3) (- -9223372036854775809))"
    let v := Fault.badNumeral.value
    evaluate text = .ok v ∧ v.Outcome ∧ v ≠ Fault.unknownOperator.value ∧
      ∃ ts, Token.lex text = .ok ts ∧ ∀ s, .number s ∈ ts → ∃ n : Int,
        Numeral.integer? s.toList = some n ∧
          (n < -2 ^ 63 ∨ 2 ^ 63 ≤ n → v.isFailure = true) := by
  intro text v
  have h : evaluate text = .ok v := evaluate_eq_of_toOption (by decide +kernel)
  exact ⟨h, evaluate_closed h⟩

end SexprCalc
