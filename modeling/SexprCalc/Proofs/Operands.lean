import SexprCalc.Proofs.Results

namespace SexprCalc

structure Ready (operands : List Value) : Prop where
  nonempty : operands ≠ []
  normal : ∀ v ∈ operands, v.Normal
  isFailure_eq : ∀ v ∈ operands, v.isFailure = false

lemma Operator.ofSymbol?_eq_none_iff {name : String} :
    ofSymbol? name = none ↔ ¬Token.IsOperator name := by
  constructor
  · intro hn h
    obtain ⟨op, ho⟩ := h.exists_ofSymbol?
    cases hn.symm.trans ho
  · intro h
    simp only [Token.IsOperator, not_or] at h
    simp [ofSymbol?, h]

namespace Call

lemma value_arithmetic_ne {f : Fault} (h : f ≠ .divisionByZero) (op : Operator) (n : Int64)
    (ns : List Int64) : (arithmetic op n ns).value ≠ f.value := by
  rcases value_arithmetic_cases op n ns with hv | ⟨m, hv⟩ <;> rw [hv]
  · cases f with
    | divisionByZero => exact absurd rfl h
    | _ => decide
  · exact nofun

lemma value_eq_nonNumericOperand_iff {c : Call} :
    c.value = Fault.nonNumericOperand.value ↔ c = .nonNumeric := by
  have hf : Fault.nonNumericOperand ≠ .divisionByZero := by decide
  cases c with
  | nonNumeric => exact iff_of_true rfl rfl
  | arithmetic op n ns => exact iff_of_false (value_arithmetic_ne hf op n ns) nofun
  | _ => exact iff_of_false (by decide) nofun

lemma value_eq_unknownOperator_iff {c : Call} :
    c.value = Fault.unknownOperator.value ↔ c = .unknown := by
  have hf : Fault.unknownOperator ≠ .divisionByZero := by decide
  cases c with
  | unknown => exact iff_of_true rfl rfl
  | arithmetic op n ns => exact iff_of_false (value_arithmetic_ne hf op n ns) nofun
  | _ => exact iff_of_false (by decide) nofun

lemma of_eq_nonNumeric_iff {name : String} {operands : List Value} :
    Call.of name operands = .nonNumeric ↔ ∃ v ∈ operands, v.number? = none := by
  rw [of_eq_iff]
  constructor
  · intro h
    cases h with
    | nonNumeric hv hn => exact ⟨_, hv, hn⟩
  · rintro ⟨v, hv, hn⟩
    exact .nonNumeric hv hn

lemma of_eq_unknown_iff {name : String} {operands : List Value} :
    Call.of name operands = .unknown ↔
      (∀ v ∈ operands, ∃ n, v = .number n) ∧ ¬Token.IsOperator name := by
  rw [of_eq_iff, ← Operator.ofSymbol?_eq_none_iff]
  constructor
  · intro h
    cases h with
    | unknown ns ho => exact ⟨by simp, ho⟩
  · rintro ⟨hn, ho⟩
    cases hm : operands.mapM Value.number? with
    | none =>
      obtain ⟨v, hv, hf⟩ := mapM_number?_eq_none_iff.mp hm
      obtain ⟨n, rfl⟩ := hn v hv
      cases hf
    | some ns =>
      rw [mapM_number?_eq_some_iff.mp hm]
      exact .unknown ns ho

lemma value_of_eq_unknownOperator_iff {name : String} {operands : List Value} :
    (Call.of name operands).value = Fault.unknownOperator.value ↔
      (∀ v ∈ operands, ∃ n, v = .number n) ∧ ¬Token.IsOperator name := by
  rw [value_eq_unknownOperator_iff, of_eq_unknown_iff]

end Call

namespace Ready

variable {operands : List Value} (h : Ready operands)

include h

lemma of_ne_idle (name : String) : Call.of name operands ≠ .idle := by
  intro hi
  cases Call.of_eq_iff.mp hi
  exact h.nonempty rfl

lemma forms {v : Value} (hv : v ∈ operands) :
    v = .list [] ∨ (∃ n, v = .number n) ∨ ∃ s, v = .symbol s := by
  have hf := h.isFailure_eq v hv
  cases h.normal v hv with
  | number n => exact .inr (.inl ⟨n, rfl⟩)
  | failure m => cases hf
  | symbol s => exact .inr (.inr ⟨s, rfl⟩)
  | empty => exact .inl rfl

lemma number?_eq_none_iff {v : Value} (hv : v ∈ operands) :
    v.number? = none ↔ v = .list [] ∨ ∃ s, v = .symbol s := by
  rcases h.forms hv with rfl | ⟨n, rfl⟩ | ⟨s, rfl⟩ <;> simp [Value.number?]

lemma value_eq_nonNumericOperand_iff (name : String) :
    (Call.of name operands).value = Fault.nonNumericOperand.value ↔
      ∃ v ∈ operands, v = .list [] ∨ ∃ s, v = .symbol s := by
  rw [Call.value_eq_nonNumericOperand_iff, Call.of_eq_nonNumeric_iff]
  exact exists_congr fun v => and_congr_right fun hv => h.number?_eq_none_iff hv

end Ready

end SexprCalc
