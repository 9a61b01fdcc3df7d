import SexprCalc.Text.Utf8

/-! The lines typed in earlier sessions, and the file that keeps them from one session to the next.
A line of the file ends with a line feed, which a carriage return may precede; the last line may
lack the end. Loading stops at the first line that is no text. -/

namespace SexprCalc.Session

open Text

inductive HistoryFile
  | absent
  | contents (bytes : List UInt8)
  | inaccessible (reason : String)
  deriving DecidableEq, Repr

namespace HistoryFile

def directory : HistoryFile :=
  inaccessible "Is a directory (os error 21)"

def dropReturn : List UInt8 → List UInt8
  | 13 :: line => line
  | line => line

/-- The lines of a file, when the bytes of `line`, latest first, come before it. -/
def splitLines (line : List UInt8) : List UInt8 → List (List UInt8)
  | [] => if line = [] then [] else [line.reverse]
  | b :: bs =>
    if b = 10 then (dropReturn line).reverse :: splitLines [] bs else splitLines (b :: line) bs

inductive LoadFailure
  | absent
  | failed (reason : String)
  deriving DecidableEq, Repr

def decodeLines : List (List UInt8) → List String × Option LoadFailure
  | [] => ([], none)
  | line :: lines =>
    match Utf8.decode? line with
    | some entry =>
      let later := decodeLines lines
      (entry :: later.1, later.2)
    | none => ([], some (.failed "stream did not contain valid UTF-8"))

def load : HistoryFile → List String × Option LoadFailure
  | absent => ([], some .absent)
  | contents bytes => decodeLines (splitLines [] bytes)
  | inaccessible reason => ([], some (.failed reason))

def encodeEntries (entries : List String) : List UInt8 :=
  entries.flatMap fun entry => Utf8.encode entry ++ [10]

def save (entries : List String) : HistoryFile → HistoryFile × Option String
  | inaccessible reason => (inaccessible reason, some reason)
  | _ => (contents (encodeEntries entries), none)

end HistoryFile

def remember (entries : List String) (line : String) : List String :=
  if entries.getLast? = some line then entries else entries ++ [line]

end SexprCalc.Session
