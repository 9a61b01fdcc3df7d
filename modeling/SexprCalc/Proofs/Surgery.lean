import SexprCalc.Proofs.Operands
import SexprCalc.Proofs.Watched
import SexprCalc.Value.Edit

/-! Evaluation and translation as runs of single edits, none of which is ever refused. The edits
that a run asks for are kept, so that it can be said what each of them finds. -/

namespace SexprCalc

inductive Request
  | append (v child : Value)
  | detach (v : Value) (index : Nat)
  | select (v : Value) (index : Nat)
  | apply (name : String) (operands : Value)
  deriving DecidableEq

abbrev Surgery := Watched Request EditError

namespace Surgery

def append (v child : Value) : Surgery Value :=
  ⟨[.append v child], v.append child⟩

def detach (v : Value) (index : Nat) : Surgery (Value × Value) :=
  ⟨[.detach v index], v.detach index⟩

def select (v : Value) (index : Nat) : Surgery Value :=
  ⟨[.select v index], v.select index⟩

def applied (name : String) (operands : Value) : Value :=
  let call := Call.of name operands.cells
  if call = .idle then operands else call.value

def apply (name : String) (operands : Value) : Surgery Value :=
  ⟨[.apply name operands], .ok (applied name operands)⟩

def reduceCells (cells : List Value) : Surgery Value :=
  match cells.findIdx? Value.isFailure with
  | some index => select (.list cells) index
  | none =>
    match cells.length with
    | 0 => pure (.list cells)
    | 1 => select (.list cells) 0
    | _ => do
      let (head, operands) ← detach (.list cells) 0
      match head with
      | .symbol name => apply name operands
      | _ => pure Fault.headNotSymbol.value

mutual

def reduce : Value → Surgery Value
  | .list cells => do reduceCells (← reduceEach cells)
  | v => pure v

def reduceEach : List Value → Surgery (List Value)
  | [] => pure []
  | v :: vs => do return (← reduce v) :: (← reduceEach vs)

end

mutual

def build : Tree → Surgery Value
  | ⟨tag, contents, children⟩ =>
    if Tree.marked ⟨tag, contents, children⟩ "number" then pure (Value.ofNumeral contents)
    else if Tree.marked ⟨tag, contents, children⟩ "symbol" then pure (.symbol contents)
    else buildEach (.list []) children

def buildEach (done : Value) : List Tree → Surgery Value
  | [] => pure done
  | t :: ts =>
    if t.isPunctuation then buildEach done ts
    else do
      let child ← build t
      buildEach (← append done child) ts

end

end Surgery

inductive Request.Sound : Request → Prop
  | append {cells child} : Sound (.append (.list cells) child)
  | detach {cells index} : index < cells.length → Sound (.detach (.list cells) index)
  | select {cells index} : index < cells.length → Sound (.select (.list cells) index)
  | apply {name operands} : Ready operands → Sound (.apply name (.list operands))

namespace Surgery

variable {α β : Type}

structure Yields (s : Surgery α) (x : α) : Prop where
  result : s.result = .ok x
  sound : ∀ r ∈ s.events, r.Sound

lemma yields_pure (x : α) : Yields (pure x) x :=
  ⟨rfl, fun _ h => absurd h List.not_mem_nil⟩

lemma Yields.bind {s : Surgery α} {next : α → Surgery β} {x : α} {y : β} (h : Yields s x)
    (hn : Yields (next x) y) : Yields (s >>= next) y := by
  rw [Watched.bind_of_ok h.result]
  exact ⟨hn.result, List.forall_mem_append.mpr ⟨h.sound, hn.sound⟩⟩

lemma yields_append (cells : List Value) (child : Value) :
    Yields (append (.list cells) child) (.list (cells ++ [child])) :=
  ⟨rfl, List.forall_mem_singleton.mpr .append⟩

lemma yields_detach (v : Value) (cells : List Value) :
    Yields (detach (.list (v :: cells)) 0) (v, .list cells) :=
  ⟨rfl, List.forall_mem_singleton.mpr (.detach (Nat.succ_pos _))⟩

lemma yields_select (before after : List Value) (v : Value) :
    Yields (select (.list (before ++ v :: after)) before.length) v := by
  refine ⟨?_, List.forall_mem_singleton.mpr (.select ?_)⟩
  · simp [select, Value.select, Value.detach, Except.map]
  · simp

lemma applied_list (name : String) (operands : List Value) :
    applied name (.list operands) = (Call.of name operands).value := by
  have hc : (Value.list operands).cells = operands := rfl
  rw [applied, hc]
  split
  · next hi =>
    rw [hi]
    cases Call.of_eq_iff.mp hi
    rfl
  · rfl

lemma yields_apply (name : String) {operands : List Value} (h : Ready operands) :
    Yields (apply name (.list operands)) (Call.of name operands).value :=
  ⟨congrArg Except.ok (applied_list name operands), List.forall_mem_singleton.mpr (.apply h)⟩

lemma findIdx?_failing {before after : List Value} {message : String}
    (h : ∀ v ∈ before, v.isFailure = false) :
    (before ++ .failure message :: after).findIdx? Value.isFailure = some before.length := by
  have hm : (Value.failure message).isFailure = true := rfl
  rw [List.findIdx?_append, List.findIdx?_eq_none_iff.mpr h]
  simp [List.findIdx?_cons, hm]

lemma reduceCells_of_none {v w : Value} {ws : List Value}
    (h : ∀ u ∈ v :: w :: ws, u.isFailure = false) :
    reduceCells (v :: w :: ws) = (do
      let (head, operands) ← detach (.list (v :: w :: ws)) 0
      match head with
      | .symbol name => apply name operands
      | _ => pure Fault.headNotSymbol.value) := by
  rw [reduceCells, List.findIdx?_eq_none_iff.mpr h]
  rfl

lemma yields_reduceCells {cells : List Value} (hn : ∀ v ∈ cells, v.Normal) :
    Yields (reduceCells cells) (Form.ofCells cells).value := by
  have hf := Form.describes_ofCells cells
  generalize Form.ofCells cells = f at hf
  cases hf with
  | @failing before after message hb =>
    rw [reduceCells, findIdx?_failing hb]
    exact yields_select before after (.failure message)
  | empty => exact yields_pure _
  | @single v hv =>
    rw [reduceCells, List.findIdx?_eq_none_iff.mpr (List.forall_mem_singleton.mpr hv)]
    exact yields_select [] [] v
  | @headless v operands hc ho hv =>
    obtain ⟨w, ws, rfl⟩ := List.exists_cons_of_ne_nil ho
    rw [reduceCells_of_none hc]
    apply (yields_detach v (w :: ws)).bind
    cases v with
    | symbol s => exact absurd rfl (hv s)
    | _ => exact yields_pure _
  | @call name operands hc ho =>
    obtain ⟨w, ws, rfl⟩ := List.exists_cons_of_ne_nil ho
    rw [reduceCells_of_none (List.forall_mem_cons.mpr ⟨rfl, hc⟩)]
    apply (yields_detach (.symbol name) (w :: ws)).bind
    exact yields_apply name ⟨ho, (List.forall_mem_cons.mp hn).2, hc⟩

lemma yields_reduceEach {vs : List Value} (h : ∀ v ∈ vs, Yields (reduce v) v.eval) :
    Yields (reduceEach vs) (vs.map Value.eval) := by
  induction vs with
  | nil => exact yields_pure []
  | cons v vs ih =>
    obtain ⟨hv, hvs⟩ := List.forall_mem_cons.mp h
    rw [reduceEach]
    exact hv.bind ((ih hvs).bind (yields_pure _))

lemma yields_reduce (v : Value) : Yields (reduce v) v.eval := by
  induction v with
  | list cells ih =>
    rw [reduce, Value.eval_list]
    apply (yields_reduceEach ih).bind
    apply yields_reduceCells
    exact List.forall_mem_map.mpr fun v _ => Value.normal_eval v
  | _ => exact yields_pure _

lemma yields_buildEach {ts : List Tree} (h : ∀ t ∈ ts, Yields (build t) (Value.ofTree t))
    (done : List Value) : Yields (buildEach (.list done) ts)
      (.list (done ++ (ts.filter fun t => !t.isPunctuation).map Value.ofTree)) := by
  induction ts generalizing done with
  | nil =>
    rw [buildEach]
    simpa using yields_pure (Value.list done)
  | cons t ts ih =>
    obtain ⟨ht, hts⟩ := List.forall_mem_cons.mp h
    rw [buildEach]
    by_cases hp : t.isPunctuation = true
    · simpa [hp] using ih hts done
    · rw [if_neg hp]
      apply ht.bind
      apply (yields_append done _).bind
      simpa [hp] using ih hts (done ++ [Value.ofTree t])

lemma yields_build (t : Tree) : Yields (build t) (Value.ofTree t) := by
  induction t with
  | node tag contents children ih =>
    rw [build, Value.ofTree_eq]
    split
    · exact yields_pure _
    split
    · exact yields_pure _
    · exact yields_buildEach ih []

lemma events_reduceEach (vs : List Value) :
    (reduceEach vs).events = vs.flatMap fun v => (reduce v).events := by
  induction vs with
  | nil => rfl
  | cons v vs ih =>
    have hvs := yields_reduceEach fun v (_ : v ∈ vs) => yields_reduce v
    rw [reduceEach, Watched.bind_of_ok (yields_reduce v).result,
      Watched.bind_of_ok hvs.result, List.flatMap_cons, ← ih]
    exact congrArg _ (List.append_nil _)

lemma events_reduce_list (cells : List Value) :
    (reduce (.list cells)).events = cells.flatMap (fun v => (reduce v).events) ++
      (reduceCells (cells.map Value.eval)).events := by
  have hc := yields_reduceEach fun v (_ : v ∈ cells) => yields_reduce v
  rw [reduce, Watched.bind_of_ok hc.result, events_reduceEach]

/-- Evaluating a value and translating a tree never ask for an edit that is refused, at any level. A
symbol is always applied to at least one operand, and to no failure and no list with cells; so it
fails for a bad operand just when one is a symbol or the empty list, and for an unknown operator
just when all are numbers and it is no operator sign. -/
theorem surgery_sound :
    (∀ v : Value, (reduce v).result = .ok v.eval ∧ ∀ r ∈ (reduce v).events, r.Sound) ∧
    (∀ cells : List Value, (reduce (.list cells)).events =
      cells.flatMap (fun v => (reduce v).events) ++
        (reduceCells (cells.map Value.eval)).events) ∧
    (∀ (v : Value) (name : String) (args : Value), .apply name args ∈ (reduce v).events →
      ∃ operands, args = .list operands ∧ operands ≠ [] ∧
        (∀ u ∈ operands, u = .list [] ∨ (∃ n, u = .number n) ∨ ∃ s, u = .symbol s) ∧
        Call.of name operands ≠ .idle ∧
        (applied name args = Fault.nonNumericOperand.value ↔
          ∃ u ∈ operands, u = .list [] ∨ ∃ s, u = .symbol s) ∧
        (applied name args = Fault.unknownOperator.value ↔
          (∀ u ∈ operands, ∃ n, u = .number n) ∧ ¬Token.IsOperator name)) ∧
    ∀ t : Tree, (build t).result = .ok (Value.ofTree t) ∧ ∀ r ∈ (build t).events, r.Sound := by
  refine ⟨fun v => ⟨(yields_reduce v).result, (yields_reduce v).sound⟩, events_reduce_list,
    fun v name args ha => ?_, fun t => ⟨(yields_build t).result, (yields_build t).sound⟩⟩
  cases (yields_reduce v).sound _ ha with
  | @apply _ operands hr =>
    rw [applied_list]
    exact ⟨operands, rfl, hr.nonempty, fun _ => hr.forms, hr.of_ne_idle name,
      hr.value_eq_nonNumericOperand_iff name, Call.value_of_eq_unknownOperator_iff⟩

theorem surgery_sound_badOperand :
    let v : Value := .list [.symbol "%", .list [.symbol "-", .number 2], .list []]
    let args : Value := .list [.number (-2), .list []]
    .apply "%" args ∈ (reduce v).events ∧ applied "%" args = Fault.nonNumericOperand.value := by
  intro v args
  have ha : .apply "%" args ∈ (reduce v).events := by decide +kernel
  obtain ⟨operands, ho, -, -, -, hb, -⟩ := surgery_sound.2.2.1 v "%" args ha
  have hc := Value.list.inj ho
  exact ⟨ha, hb.mpr ⟨.list [], by simp [← hc], .inl rfl⟩⟩

end Surgery

end SexprCalc
