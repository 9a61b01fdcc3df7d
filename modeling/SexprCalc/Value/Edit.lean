import SexprCalc.Value.Printer

namespace SexprCalc

inductive EditError
  | appendToLeaf (leaf : Value)
  | detachFromLeaf (leaf : Value)
  | indexOutOfRange (index : Nat)
  deriving DecidableEq

def EditError.message? : EditError → Option String
  | appendToLeaf v => some ("cannot add a child to non-expression " ++ v.render)
  | detachFromLeaf v => some ("cannot pop from non-expression " ++ v.render)
  | indexOutOfRange _ => none

namespace Value

def append (v child : Value) : Except EditError Value :=
  match v with
  | .list cells => .ok (.list (cells ++ [child]))
  | leaf => .error (.appendToLeaf leaf)

def detach (v : Value) (index : Nat) : Except EditError (Value × Value) :=
  match v with
  | .list cells =>
    match cells[index]? with
    | some child => .ok (child, .list (cells.eraseIdx index))
    | none => .error (.indexOutOfRange index)
  | leaf => .error (.detachFromLeaf leaf)

def select (v : Value) (index : Nat) : Except EditError Value :=
  (v.detach index).map Prod.fst

end Value

end SexprCalc
