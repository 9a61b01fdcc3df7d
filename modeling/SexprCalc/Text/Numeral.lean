/-! Decimal numerals and the 64-bit numbers that they denote. A numeral is an optional sign and at
least one ASCII digit; one whose integer lies outside the 64-bit range denotes no number. A number
is written in the shortest way, and what is written denotes it. -/

namespace SexprCalc.Text.Numeral

def natural? (cs : List Char) : Option Nat :=
  if cs ≠ [] ∧ cs.all Char.isDigit then some (Nat.ofDigitChars 10 cs 0) else none

def integer? : List Char → Option Int
  | '-' :: cs => (natural? cs).map fun n : Nat => -(n : Int)
  | '+' :: cs => (natural? cs).map fun n : Nat => (n : Int)
  | cs => (natural? cs).map fun n : Nat => (n : Int)

def InRange (n : Int) : Prop :=
  Int64.minValue.toInt ≤ n ∧ n ≤ Int64.maxValue.toInt

instance (n : Int) : Decidable (InRange n) :=
  inferInstanceAs (Decidable (_ ∧ _))

def read? (cs : List Char) : Option Int64 :=
  match integer? cs with
  | some n => if InRange n then some (Int64.ofInt n) else none
  | none => none

def writeInteger (n : Int) : List Char :=
  if n < 0 then '-' :: Nat.toDigits 10 n.natAbs else Nat.toDigits 10 n.natAbs

def write (n : Int64) : List Char :=
  writeInteger n.toInt

theorem natural?_toDigits (n : Nat) : natural? (Nat.toDigits 10 n) = some n := by
  have hd : (Nat.toDigits 10 n).all Char.isDigit = true :=
    List.all_eq_true.mpr fun c hc => Nat.isDigit_of_mem_toDigits (by decide) (by decide) hc
  simp only [natural?, hd, and_true]
  rw [if_pos Nat.toDigits_ne_nil, Nat.ofDigitChars_ten_toDigits]

theorem integer?_of_isDigit (c : Char) (cs : List Char) (h : c.isDigit = true) :
    integer? (c :: cs) = (natural? (c :: cs)).map fun n : Nat => (n : Int) := by
  have hm : c ≠ '-' := by rintro rfl; simp at h
  have hp : c ≠ '+' := by rintro rfl; simp at h
  simp [integer?, hm, hp]

theorem integer?_writeInteger (n : Int) : integer? (writeInteger n) = some n := by
  unfold writeInteger
  split
  · simp only [integer?, natural?_toDigits, Option.map_some, Option.some.injEq]
    omega
  · obtain ⟨c, cs, h⟩ := List.exists_cons_of_ne_nil (Nat.toDigits_ne_nil (b := 10) (n := n.natAbs))
    have hd : c.isDigit = true :=
      Nat.isDigit_of_mem_toDigits (b := 10) (n := n.natAbs) (by decide) (by decide) (by simp [h])
    rw [h, integer?_of_isDigit c cs hd, ← h, natural?_toDigits, Option.map_some, Option.some.injEq]
    omega

theorem inRange_toInt (n : Int64) : InRange n.toInt :=
  ⟨n.minValue_le_toInt, n.toInt_le⟩

theorem read?_write (n : Int64) : read? (write n) = some n := by
  simp [read?, write, integer?_writeInteger, inRange_toInt]

end SexprCalc.Text.Numeral
