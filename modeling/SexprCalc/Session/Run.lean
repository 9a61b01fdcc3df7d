import SexprCalc.Session.History
import SexprCalc.Session.Line

/-! A session from the banner to the end of the input. Empty lines pass without response and are not
remembered. -/

namespace SexprCalc.Session

structure Segment where
  out : String
  err : String
  deriving DecidableEq, Repr

def Response.segment (r : Response) : Segment :=
  ⟨String.join r.out, String.join r.err⟩

def banner : String := "Lispy Version 0.0.1\nPress Ctrl + c to exit\n\n"

def historyName : String := "lispy.history"

def start (file : HistoryFile) : Segment × List String :=
  match file.load with
  | (entries, none) => (⟨banner, ""⟩, entries)
  | (entries, some .absent) =>
    (⟨banner ++ "History file " ++ historyName ++ " doesn't exist, not loading history.\n", ""⟩,
      entries)
  | (entries, some (.failed reason)) =>
    (⟨banner, "Could not load history file " ++ historyName ++ ": " ++ reason ++ "\n"⟩, entries)

def enter (entries : List String) (line : String) : Segment × List String :=
  if line = "" then (⟨"", ""⟩, entries)
  else ((respond line).segment, remember entries line)

def enterAll (entries : List String) : List String → List Segment × List String
  | [] => ([], entries)
  | line :: lines =>
    let (segment, entries) := enter entries line
    let (segments, entries) := enterAll entries lines
    (segment :: segments, entries)

def finish (file : HistoryFile) (entries : List String) : Segment × HistoryFile :=
  match file.save entries with
  | (file, none) => (⟨"^D", ""⟩, file)
  | (file, some reason) =>
    (⟨"^D", "Could not save history file " ++ historyName ++ ": " ++ reason ++ "\n"⟩, file)

structure Transcript where
  opening : Segment
  segments : List Segment
  closing : Segment
  history : HistoryFile
  deriving DecidableEq, Repr

def run (file : HistoryFile) (lines : List String) : Transcript :=
  let (opening, loaded) := start file
  let (segments, entries) := enterAll loaded lines
  let (closing, saved) := finish file entries
  ⟨opening, segments, closing, saved⟩

end SexprCalc.Session
