namespace SexprCalc

inductive Fault
  | divisionByZero
  | nonNumericOperand
  | badNumeral
  | headNotSymbol
  | unknownOperator
  deriving DecidableEq, Repr

def Fault.message : Fault → String
  | divisionByZero => "Division By Zero!"
  | nonNumericOperand => "Cannot operate on non-number!"
  | badNumeral => "invalid number"
  | headNotSymbol => "S-expression does not start with symbol!"
  | unknownOperator => "Unknown operator!"

end SexprCalc
