import SexprCalc.Eval.Basic
import SexprCalc.Sink
import SexprCalc.Value.Printer

namespace SexprCalc.Session

open Text

structure Response where
  out : List String
  err : List String
  deriving DecidableEq, Repr

def report (text : String) (e : ReadError) : List String :=
  ["<stdin>:1:", (Utf8.column text e.offset).repr, ": ", "\x1b[1;31m", "error:", "\x1b[0m", " ",
    e.message, "\n"]

def respond (text : String) : Response :=
  match evaluate text with
  | .ok v => ⟨v.linePieces, []⟩
  | .error e => ⟨[], report text e⟩

structure Delivery where
  out : List UInt8
  err : List UInt8
  complete : Bool
  deriving DecidableEq, Repr

def Response.deliver (r : Response) (outCapacity errCapacity : Option Nat) : Delivery :=
  let out := (Sink.empty outCapacity).write r.out
  let err := (Sink.empty errCapacity).write r.err
  ⟨out.1.bytes, err.1.bytes, out.2 && err.2⟩

end SexprCalc.Session
