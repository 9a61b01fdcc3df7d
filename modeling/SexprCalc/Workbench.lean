import SexprCalc.Eval.Basic
import SexprCalc.Value.Edit

/-! A stack of values on which the operations can be tried one by one. A command that fails, or that
finds too few values, leaves the stack alone. -/

namespace SexprCalc.Workbench

inductive Command
  | push (v : Value)
  | read (text : String)
  | append
  | detach (index : Nat)
  | select (index : Nat)
  | eval
  | count
  | cells
  | isFailure
  | render
  | same
  | duplicate
  | swap
  | drop
  deriving DecidableEq

inductive Answer
  | done
  | size (n : Nat)
  | values (vs : List Value)
  | truth (b : Bool)
  | text (s : String)
  | unreadable (e : ReadError)
  | refused (e : EditError)
  deriving DecidableEq

def step (stack : List Value) (command : Command) : List Value × Answer :=
  match command, stack with
  | .push v, _ => (v :: stack, .done)
  | .read text, _ =>
    match Tree.read text with
    | .ok t => (Value.ofTree t :: stack, .done)
    | .error e => (stack, .unreadable e)
  | .append, child :: v :: below =>
    match v.append child with
    | .ok w => (w :: below, .done)
    | .error e => (stack, .refused e)
  | .detach index, v :: below =>
    match v.detach index with
    | .ok (child, w) => (child :: w :: below, .done)
    | .error e => (stack, .refused e)
  | .select index, v :: below =>
    match v.select index with
    | .ok child => (child :: below, .done)
    | .error e => (stack, .refused e)
  | .eval, v :: below => (v.eval :: below, .done)
  | .count, v :: _ => (stack, .size v.cells.length)
  | .cells, v :: _ => (stack, .values v.cells)
  | .isFailure, v :: _ => (stack, .truth v.isFailure)
  | .render, v :: _ => (stack, .text v.render)
  | .same, v :: w :: _ => (stack, .truth (v = w))
  | .duplicate, v :: _ => (v :: stack, .done)
  | .swap, v :: w :: below => (w :: v :: below, .done)
  | .drop, _ :: below => (below, .done)
  | _, _ => (stack, .done)

def run (stack : List Value) : List Command → List (List Value × Answer)
  | [] => []
  | command :: commands =>
    let after := step stack command
    after :: run after.1 commands

end SexprCalc.Workbench
