import SexprCalc.Eval.Log
import SexprCalc.Proofs.Reduction
import SexprCalc.Proofs.Sentences

namespace SexprCalc

/-- The event that a list leaves, told by what its cells evaluate to. -/
inductive Emits : List Value → Event → Prop
  | shortCircuit {before after message} : (∀ v ∈ before, v.isFailure = false) →
      Emits (before ++ .failure message :: after) (.shortCircuit before.length)
  | applying {name op} (n : Int64) (ns : List Int64) : Operator.ofSymbol? name = some op →
      Emits (.symbol name :: (n :: ns).map .number) (.applying op (n :: ns).length)

lemma Call.event?_eq_some_iff {name : String} {operands : List Value} {e : Event} :
    (Call.of name operands).event? = some e ↔ ∃ op n ns, Operator.ofSymbol? name = some op ∧
      operands = (n :: ns).map .number ∧ e = .applying op (n :: ns).length := by
  constructor
  · intro h
    have hc := describes_of name operands
    generalize Call.of name operands = c at hc h
    cases hc with
    | @arithmetic op n ns ho =>
      cases h
      exact ⟨op, n, ns, ho, rfl, rfl⟩
    | _ => cases h
  · rintro ⟨op, n, ns, ho, rfl, rfl⟩
    rw [Describes.of_eq (.arithmetic n ns ho)]
    rfl

lemma Form.event?_eq_some_iff {cells : List Value} {e : Event} :
    (ofCells cells).event? = some e ↔ Emits cells e := by
  constructor
  · intro h
    have hf := describes_ofCells cells
    generalize ofCells cells = f at hf h
    cases hf with
    | failing hb =>
      cases h
      exact .shortCircuit hb
    | call hc ho =>
      obtain ⟨op, n, ns, hop, rfl, rfl⟩ := Call.event?_eq_some_iff.mp h
      exact .applying n ns hop
    | _ => cases h
  · intro h
    cases h with
    | shortCircuit hb =>
      rw [Describes.ofCells_eq (.failing hb)]
      rfl
    | applying n ns ho =>
      rw [ofCells_call]
      exact Call.event?_eq_some_iff.mpr ⟨_, n, ns, ho, rfl, rfl⟩

namespace Value

def ownEvent? : Value → Option Event
  | .list cells => (Form.ofCells (cells.map eval)).event?
  | _ => none

lemma ownEvent?_eq_some_iff {v : Value} {e : Event} :
    v.ownEvent? = some e ↔ ∃ cells, v = .list cells ∧ Emits (cells.map eval) e := by
  cases v with
  | list cells => simp [ownEvent?, Form.event?_eq_some_iff]
  | _ => simp [ownEvent?]

lemma events_eq_filterMap (v : Value) : v.events = v.postorder.filterMap ownEvent? := by
  induction v with
  | number n => rfl
  | failure m => rfl
  | symbol s => rfl
  | list cells ih =>
    have hc : cells.flatMap events = cells.flatMap fun v => v.postorder.filterMap ownEvent? := by
      rw [List.flatMap, List.map_congr_left ih, List.flatMap]
    rw [events_list, postorder_list, List.filterMap_append, List.filterMap_flatMap, hc]
    rfl

end Value

/-- The log of a line opens with the line. What follows is the fault of a text that is no tree, and
nothing else; or the size of the tree, which the tokens tell, and then what evaluation leaves: the
events of the lists of a value, cells before the list that they are in, one after another. -/
theorem log_exact :
    (∀ text, match Tree.read text with
      | .error e => lineEvents text = [.evaluatingLine text, .skippingLine e] ∧
          ∀ ev ∈ lineEvents text, ev.level = .debug
      | .ok t => ∃ ts, Token.lex text = .ok ts ∧ lineEvents text = .evaluatingLine text ::
          .parsedInput (3 + ts.length + ts.count .opening) :: (Value.ofTree t).events) ∧
    (∀ v : Value, v.events = v.postorder.filterMap Value.ownEvent?) ∧
    (∀ (v : Value) (e : Event),
      v.ownEvent? = some e ↔ ∃ cells, v = .list cells ∧ Emits (cells.map Value.eval) e) ∧
    ∀ cells : List Value, (Value.list cells).events =
      cells.flatMap Value.events ++ (Value.list cells).ownEvent?.toList := by
  refine ⟨fun text => ?_, Value.events_eq_filterMap, fun _ _ => Value.ownEvent?_eq_some_iff,
    Value.events_list⟩
  cases h : Tree.read text with
  | error e =>
    have hl : lineEvents text = [.evaluatingLine text, .skippingLine e] := by rw [lineEvents, h]
    refine ⟨hl, ?_⟩
    rw [hl]
    simp [Event.level]
  | ok t =>
    obtain ⟨ht, -, hl⟩ := Tree.read_eq_ok_iff_lex.mp h
    refine ⟨t.yield, hl, ?_⟩
    rw [lineEvents, h, ← ht.size_eq]

example : (Value.list [.symbol "+", .list [.symbol "/", .number 1, .number 0],
    .list [.symbol "*", .number 2, .number 3]]).events =
      [.applying .div 2, .applying .mul 2, .shortCircuit 1] := by
  decide

end SexprCalc
