import SexprCalc.Operator
import SexprCalc.Value.Basic

/-! What a symbol applied to operands comes to. The operands are looked at before the symbol, so a
call with a bad operand says so whatever its symbol is. -/

namespace SexprCalc

inductive Call
  | nonNumeric
  | unknown
  | idle
  | arithmetic (op : Operator) (first : Int64) (rest : List Int64)
  deriving DecidableEq

namespace Call

def of (name : String) (operands : List Value) : Call :=
  match operands.mapM Value.number?, Operator.ofSymbol? name with
  | none, _ => .nonNumeric
  | some _, none => .unknown
  | some [], some _ => .idle
  | some (first :: rest), some op => .arithmetic op first rest

def value : Call → Value
  | nonNumeric => Fault.nonNumericOperand.value
  | unknown => Fault.unknownOperator.value
  | idle => .list []
  | arithmetic op first rest =>
    match op.combine first rest with
    | .ok n => .number n
    | .error f => f.value

end Call

end SexprCalc
