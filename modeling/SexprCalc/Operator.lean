import SexprCalc.Fault

/-! The four operators on 64-bit numbers. Results wrap around; a quotient is truncated toward zero.
-/

namespace SexprCalc

inductive Operator
  | add
  | sub
  | mul
  | div
  deriving DecidableEq, Repr

namespace Operator

def ofSymbol? (name : String) : Option Operator :=
  if name = "+" then some add
  else if name = "-" then some sub
  else if name = "*" then some mul
  else if name = "/" then some div
  else none

def label : Operator → String
  | add => "Add"
  | sub => "Sub"
  | mul => "Mul"
  | div => "Div"

def apply : Operator → Int64 → Int64 → Except Fault Int64
  | add, x, y => .ok (x + y)
  | sub, x, y => .ok (x - y)
  | mul, x, y => .ok (x * y)
  | div, x, y => if y = 0 then .error .divisionByZero else .ok (x / y)

def foldLeft (op : Operator) (x : Int64) : List Int64 → Except Fault Int64
  | [] => .ok x
  | y :: ys =>
    match op.apply x y with
    | .ok z => foldLeft op z ys
    | .error f => .error f

/-- A single operand is kept, but a minus negates it. -/
def combine (op : Operator) (first : Int64) (rest : List Int64) : Except Fault Int64 :=
  if op = sub ∧ rest = [] then .ok (-first) else op.foldLeft first rest

end Operator

end SexprCalc
