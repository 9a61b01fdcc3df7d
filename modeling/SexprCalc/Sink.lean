import SexprCalc.Text.Utf8

/-! A byte channel that may fill up. It takes what fits of a piece, and the first piece that does
not fit is the last one written. -/

namespace SexprCalc

open Text

/-- The bytes that still fit, if there is a limit, and the bytes taken, latest first. -/
structure Sink where
  room : Option Nat
  taken : List UInt8

namespace Sink

def empty (capacity : Option Nat) : Sink :=
  ⟨capacity, []⟩

def bytes (s : Sink) : List UInt8 :=
  s.taken.reverse

def fits (s : Sink) (piece : List UInt8) : Bool :=
  match s.room with
  | none => true
  | some n => piece.length ≤ n

def put (s : Sink) (piece : List UInt8) : Sink :=
  match s.room with
  | none => ⟨none, piece.reverse ++ s.taken⟩
  | some n => ⟨some (n - piece.length), (piece.take n).reverse ++ s.taken⟩

def write (s : Sink) : List String → Sink × Bool
  | [] => (s, true)
  | p :: ps =>
    let piece := Utf8.encode p
    if s.fits piece then write (s.put piece) ps else (s.put piece, false)

end Sink

end SexprCalc
