import SexprCalc.Eval.Basic

/-! The events that working on a line leaves in the log. A list has its event after those of its
cells: one where a failing cell decides it, one where an operator is applied to numbers, and
otherwise none. -/

namespace SexprCalc

inductive Level
  | debug
  | trace
  deriving DecidableEq, Repr

inductive Event
  | evaluatingLine (input : String)
  | parsedInput (nodes : Nat)
  | shortCircuit (index : Nat)
  | applying (op : Operator) (operands : Nat)
  | skippingLine (error : ReadError)
  deriving DecidableEq, Repr

namespace Event

def level : Event → Level
  | evaluatingLine _ => .debug
  | parsedInput _ => .trace
  | shortCircuit _ => .trace
  | applying _ _ => .trace
  | skippingLine _ => .debug

def message : Event → String
  | evaluatingLine _ => "evaluating line"
  | parsedInput _ => "parsed input"
  | shortCircuit _ => "short-circuiting on error"
  | applying _ _ => "applying builtin"
  | skippingLine _ => "skipping unparsable line"

end Event

def Call.event? : Call → Option Event
  | arithmetic op _ rest => some (.applying op (rest.length + 1))
  | _ => none

def Form.event? : Form → Option Event
  | failing index _ => some (.shortCircuit index)
  | call name operands => (Call.of name operands).event?
  | _ => none

structure Traced where
  value : Value
  events : List Event

def Traced.list (parts : List Traced) : Traced :=
  let form := Form.ofCells (parts.map Traced.value)
  ⟨form.value, parts.flatMap Traced.events ++ form.event?.toList⟩

namespace Value

def traced : Value → Traced :=
  fold (fun n => ⟨number n, []⟩) (fun m => ⟨failure m, []⟩) (fun s => ⟨symbol s, []⟩) Traced.list

def events (v : Value) : List Event :=
  v.traced.events

theorem value_traced (v : Value) : v.traced.value = v.eval := by
  induction v with
  | number n => rfl
  | failure m => rfl
  | symbol s => rfl
  | list cells ih =>
    have h : (cells.map traced).map Traced.value = cells.map eval := by simpa using ih
    rw [traced, fold_list, eval_list, ← h]
    rfl

theorem events_list (cells : List Value) :
    events (list cells) =
      cells.flatMap events ++ (Form.ofCells (cells.map eval)).event?.toList := by
  have h : (cells.map traced).map Traced.value = cells.map eval := by simp [value_traced]
  rw [events, traced, fold_list, ← h]
  simp only [Traced.list, List.flatMap_map]
  rfl

end Value

def lineEvents (text : String) : List Event :=
  .evaluatingLine text ::
    match Tree.read text with
    | .ok t => .parsedInput t.size :: (Value.ofTree t).events
    | .error e => [.skippingLine e]

end SexprCalc
