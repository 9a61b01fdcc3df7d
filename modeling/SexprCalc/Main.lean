import SexprCalc.Session.Run

namespace SexprCalc.Console

open Session

def prompt : String := "\x1b[1;35mlispy> \x1b[0m"

def readHistory : IO HistoryFile := do
  try
    return .contents (← IO.FS.readBinFile historyName).toList
  catch
    | .noFileOrDirectory .. => return .absent
    | .inappropriateType .. => return .directory
    | e => return .inaccessible e.toString

def writeHistory (file : HistoryFile) : IO HistoryFile := do
  match file with
  | .contents bytes =>
    try
      IO.FS.writeBinFile historyName bytes.toByteArray
      return file
    catch e => return .inaccessible e.toString
  | file => return file

def emit (s : Segment) : IO Unit := do
  let out ← IO.getStdout
  out.putStr s.out
  out.flush
  (← IO.getStderr).putStr s.err

def withoutEnd (line : String) : String :=
  String.ofList (line.toList.takeWhile (· ≠ '\n'))

partial def enterLines (entries : List String) : IO (List String) := do
  let out ← IO.getStdout
  out.putStr prompt
  out.flush
  let line ← (← IO.getStdin).getLine
  if line.isEmpty then return entries
  let (segment, entries) := enter entries (withoutEnd line)
  emit segment
  enterLines entries

def run : IO Unit := do
  let file ← readHistory
  let (opening, entries) := start file
  emit opening
  let entries ← enterLines entries
  let file ← writeHistory (finish file entries).2
  emit (finish file entries).1

end SexprCalc.Console

def main : IO Unit :=
  SexprCalc.Console.run
