namespace SexprCalc

def maxNestingDepth : Nat := 256

inductive ReadError
  | unrecognized (offset : Nat) (char : Char)
  | unbalanced (offset : Nat)
  | tooDeep (offset : Nat)
  deriving DecidableEq, Repr

namespace ReadError

def offset : ReadError → Nat
  | unrecognized o _ => o
  | unbalanced o => o
  | tooDeep o => o

def message : ReadError → String
  | unrecognized o c => "unexpected character '" ++ String.singleton c ++ "' at offset " ++ o.repr
  | unbalanced o => "unbalanced delimiter at offset " ++ o.repr
  | tooDeep o =>
    "expression nested deeper than " ++ maxNestingDepth.repr ++ " levels at offset " ++ o.repr

def shift (n : Nat) : ReadError → ReadError
  | unrecognized o c => unrecognized (n + o) c
  | unbalanced o => unbalanced (n + o)
  | tooDeep o => tooDeep (n + o)

end ReadError

end SexprCalc
