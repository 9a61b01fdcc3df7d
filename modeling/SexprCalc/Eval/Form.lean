import SexprCalc.Eval.Call

namespace SexprCalc

inductive Form
  | failing (index : Nat) (message : String)
  | empty
  | single (cell : Value)
  | headless
  | call (name : String) (operands : List Value)
  deriving DecidableEq

namespace Form

def firstFailure? (index : Nat) : List Value → Option (Nat × String)
  | [] => none
  | v :: vs =>
    match v.failure? with
    | some message => some (index, message)
    | none => firstFailure? (index + 1) vs

def ofCells (cells : List Value) : Form :=
  match firstFailure? 0 cells, cells with
  | some (index, message), _ => .failing index message
  | none, [] => .empty
  | none, [v] => .single v
  | none, .symbol name :: operands => .call name operands
  | none, _ :: _ => .headless

def value : Form → Value
  | failing _ message => .failure message
  | empty => .list []
  | single v => v
  | headless => Fault.headNotSymbol.value
  | call name operands => (Call.of name operands).value

end Form

end SexprCalc
