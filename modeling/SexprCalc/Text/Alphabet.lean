namespace SexprCalc.Text.Alphabet

/-- Blanks separate tokens: ASCII white space, the vertical tab included. -/
def isBlank (c : Char) : Bool :=
  ['\t', '\n', '\x0b', '\x0c', '\r', ' '].contains c

def isOperator (c : Char) : Bool :=
  ['+', '-', '*', '/'].contains c

def contains (c : Char) : Bool :=
  isBlank c || c.isDigit || isOperator c || c == '(' || c == ')'

theorem isBlank_iff (c : Char) :
    isBlank c = true ↔
      c = '\t' ∨ c = '\n' ∨ c = '\x0b' ∨ c = '\x0c' ∨ c = '\r' ∨ c = ' ' := by
  simp [isBlank]

theorem isOperator_iff (c : Char) :
    isOperator c = true ↔ c = '+' ∨ c = '-' ∨ c = '*' ∨ c = '/' := by
  simp [isOperator]

theorem contains_iff (c : Char) :
    contains c = true ↔
      isBlank c = true ∨ c.isDigit = true ∨ isOperator c = true ∨ c = '(' ∨ c = ')' := by
  simp [contains, or_assoc]

end SexprCalc.Text.Alphabet
