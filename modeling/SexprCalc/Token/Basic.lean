namespace SexprCalc

structure Located (α : Type) where
  offset : Nat
  item : α
  deriving DecidableEq, Repr

inductive Token
  | opening
  | closing
  | number (text : String)
  | symbol (text : String)
  deriving DecidableEq, Repr

namespace Token

def text : Token → String
  | opening => "("
  | closing => ")"
  | number s => s
  | symbol s => s

end Token

end SexprCalc
