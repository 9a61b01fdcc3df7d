import SexprCalc.Proofs.FirstFailure

/-! What a call says about its operands, and the form of a list about its evaluated cells. Each of
the two relations is the graph of the function that it belongs to. -/

namespace SexprCalc

lemma Value.number?_eq_some_iff {v : Value} {n : Int64} : v.number? = some n ↔ v = .number n := by
  cases v <;> simp [number?]

lemma Operator.eq_divisionByZero_of_foldLeft {op : Operator} {n : Int64} {ns : List Int64}
    {f : Fault} (h : op.foldLeft n ns = .error f) : f = .divisionByZero := by
  induction ns generalizing n with
  | nil => cases h
  | cons m ns ih =>
    rw [foldLeft] at h
    split at h
    · exact ih h
    · next e he =>
      cases h
      cases op with
      | div =>
        rw [apply] at he
        split at he <;> cases he
        rfl
      | _ => cases he

namespace Call

inductive Describes (name : String) : List Value → Call → Prop
  | nonNumeric {operands v} : v ∈ operands → v.number? = none →
      Describes name operands .nonNumeric
  | unknown (ns : List Int64) : Operator.ofSymbol? name = none →
      Describes name (ns.map .number) .unknown
  | idle {op} : Operator.ofSymbol? name = some op → Describes name [] .idle
  | arithmetic {op} (n : Int64) (ns : List Int64) : Operator.ofSymbol? name = some op →
      Describes name ((n :: ns).map .number) (.arithmetic op n ns)

lemma mapM_number?_eq_some_iff {vs : List Value} {ns : List Int64} :
    vs.mapM Value.number? = some ns ↔ vs = ns.map .number := by
  induction vs generalizing ns with
  | nil => cases ns <;> simp
  | cons v vs ih =>
    simp only [List.mapM_cons, Option.bind_eq_bind, Option.bind_eq_some_iff, Option.pure_def,
      Option.some.injEq, Value.number?_eq_some_iff, ih]
    cases ns with
    | nil => simp
    | cons n ns => simp [eq_comm]

lemma mapM_number?_eq_none_iff {vs : List Value} :
    vs.mapM Value.number? = none ↔ ∃ v ∈ vs, v.number? = none := by
  induction vs with
  | nil => simp
  | cons v vs ih =>
    simp only [List.mem_cons, exists_eq_or_imp, ← ih, List.mapM_cons]
    cases v.number? <;> cases vs.mapM Value.number? <;> simp

lemma describes_of (name : String) (operands : List Value) :
    Describes name operands (Call.of name operands) := by
  unfold Call.of
  split
  · next hn =>
    obtain ⟨v, hv, hn⟩ := mapM_number?_eq_none_iff.mp hn
    exact .nonNumeric hv hn
  · next ns hns ho =>
    rw [mapM_number?_eq_some_iff.mp hns]
    exact .unknown ns ho
  · next hns ho =>
    rw [mapM_number?_eq_some_iff.mp hns]
    exact .idle ho
  · next n ns op hns ho =>
    rw [mapM_number?_eq_some_iff.mp hns]
    exact .arithmetic n ns ho

lemma Describes.of_eq {name : String} {operands : List Value} {c : Call}
    (h : Describes name operands c) : Call.of name operands = c := by
  cases h with
  | nonNumeric hv hn => rw [Call.of, mapM_number?_eq_none_iff.mpr ⟨_, hv, hn⟩]
  | unknown ns ho => rw [Call.of, mapM_number?_eq_some_iff.mpr rfl, ho]
  | idle ho => simp [Call.of, ho]
  | arithmetic n ns ho => rw [Call.of, mapM_number?_eq_some_iff.mpr rfl, ho]

theorem of_eq_iff {name : String} {operands : List Value} {c : Call} :
    Call.of name operands = c ↔ Describes name operands c :=
  ⟨fun h => h ▸ describes_of name operands, Describes.of_eq⟩

lemma value_arithmetic_cases (op : Operator) (n : Int64) (ns : List Int64) :
    (arithmetic op n ns).value = Fault.divisionByZero.value ∨
      ∃ m, (arithmetic op n ns).value = .number m := by
  rw [value]
  cases h : op.combine n ns with
  | ok m => exact .inr ⟨m, rfl⟩
  | error f =>
    rw [Operator.combine] at h
    split at h
    · cases h
    · rw [Operator.eq_divisionByZero_of_foldLeft h]
      exact .inl rfl

end Call

namespace Form

inductive Describes : List Value → Form → Prop
  | failing {before after message} : (∀ v ∈ before, v.isFailure = false) →
      Describes (before ++ .failure message :: after) (.failing before.length message)
  | empty : Describes [] .empty
  | single {v} : v.isFailure = false → Describes [v] (.single v)
  | headless {v operands} : (∀ w ∈ v :: operands, w.isFailure = false) → operands ≠ [] →
      (∀ name, v ≠ .symbol name) → Describes (v :: operands) .headless
  | call {name operands} : (∀ w ∈ operands, w.isFailure = false) → operands ≠ [] →
      Describes (.symbol name :: operands) (.call name operands)

lemma firstFailure?_append {before after : List Value} {message : String} (index : Nat)
    (h : ∀ v ∈ before, v.isFailure = false) :
    firstFailure? index (before ++ .failure message :: after) =
      some (index + before.length, message) := by
  induction before generalizing index with
  | nil => rfl
  | cons v vs ih =>
    obtain ⟨hv, hvs⟩ := List.forall_mem_cons.mp h
    have hn : v.failure? = none := by simpa [Value.isFailure] using hv
    rw [List.cons_append, firstFailure?, hn]
    simp only [ih (index + 1) hvs, List.length_cons]
    congr 2
    omega

lemma firstFailure?_eq_none {cells : List Value} (index : Nat)
    (h : ∀ v ∈ cells, v.isFailure = false) : firstFailure? index cells = none := by
  have hf := firstFailure?_eq_find? index cells
  rw [List.find?_eq_none.mpr (by simpa using h)] at hf
  exact Option.map_eq_none_iff.mp hf

lemma split_failure (cells : List Value) : (∀ v ∈ cells, v.isFailure = false) ∨
    ∃ before message after, cells = before ++ .failure message :: after ∧
      ∀ v ∈ before, v.isFailure = false := by
  cases h : cells.find? Value.isFailure with
  | none => exact .inl fun v hv => by simpa using List.find?_eq_none.mp h v hv
  | some v =>
    obtain ⟨hv, before, after, rfl, hb⟩ := List.find?_eq_some_iff_append.mp h
    cases v with
    | failure m => exact .inr ⟨before, m, after, rfl, fun w hw => by simpa using hb w hw⟩
    | number n => cases hv
    | symbol s => cases hv
    | list cells => cases hv

lemma Describes.ofCells_eq {cells : List Value} {f : Form} (h : Describes cells f) :
    ofCells cells = f := by
  cases h with
  | failing hb => simp [ofCells, firstFailure?_append 0 hb]
  | empty => rfl
  | single hv => simp [ofCells, firstFailure?_eq_none 0 (List.forall_mem_singleton.mpr hv)]
  | @headless v operands hc ho hv =>
    obtain ⟨w, ws, rfl⟩ := List.exists_cons_of_ne_nil ho
    cases v with
    | symbol s => exact absurd rfl (hv s)
    | _ => simp [ofCells, firstFailure?_eq_none 0 hc]
  | @call name operands hc ho =>
    obtain ⟨w, ws, rfl⟩ := List.exists_cons_of_ne_nil ho
    have hn : ∀ v ∈ Value.symbol name :: w :: ws, v.isFailure = false :=
      List.forall_mem_cons.mpr ⟨rfl, hc⟩
    simp [ofCells, firstFailure?_eq_none 0 hn]

lemma exists_describes (cells : List Value) : ∃ f, Describes cells f := by
  rcases split_failure cells with hn | ⟨before, m, after, rfl, hb⟩
  · match cells, hn with
    | [], _ => exact ⟨_, .empty⟩
    | [v], hn => exact ⟨_, .single (hn v (by simp))⟩
    | .symbol s :: w :: ws, hn => exact ⟨_, .call (List.forall_mem_cons.mp hn).2 (by simp)⟩
    | .number n :: w :: ws, hn => exact ⟨_, .headless hn (by simp) (by simp)⟩
    | .list vs :: w :: ws, hn => exact ⟨_, .headless hn (by simp) (by simp)⟩
    | .failure m :: w :: ws, hn => exact nomatch hn (.failure m) (by simp)
  · exact ⟨_, .failing hb⟩

lemma describes_ofCells (cells : List Value) : Describes cells (ofCells cells) := by
  obtain ⟨f, hf⟩ := exists_describes cells
  rw [hf.ofCells_eq]
  exact hf

lemma ofCells_call (name : String) (n : Int64) (ns : List Int64) :
    ofCells (.symbol name :: (n :: ns).map .number) = .call name ((n :: ns).map .number) := by
  have hn : ∀ v ∈ (n :: ns).map Value.number, v.isFailure = false := by
    simp [Value.isFailure, Value.failure?]
  exact Describes.ofCells_eq (.call hn (by simp))

end Form

lemma Value.eval_call {name : String} {op : Operator} {operands : List Value} {n : Int64}
    {ns : List Int64} (ho : Operator.ofSymbol? name = some op)
    (h : operands.map eval = (n :: ns).map number) :
    (list (symbol name :: operands)).eval = (Call.arithmetic op n ns).value := by
  have hc : Call.of name ((n :: ns).map number) = .arithmetic op n ns :=
    (Call.Describes.arithmetic n ns ho).of_eq
  rw [eval_list, List.map_cons, h]
  change (Form.ofCells (symbol name :: _)).value = _
  rw [Form.ofCells_call, Form.value, hc]

end SexprCalc
