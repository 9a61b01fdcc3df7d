import Mathlib.Tactic.Lemma
import SexprCalc.Sink
import SexprCalc.Value.Printer

/-! A value written part by part: each part is only tried when all before it found room. -/

namespace SexprCalc

open Text

abbrev Writing := Sink → Sink × Bool

namespace Writing

def nothing : Writing :=
  fun s => (s, true)

def piece (text : String) : Writing :=
  fun s => (s.put (Utf8.encode text), s.fits (Utf8.encode text))

def andThen (first next : Writing) : Writing :=
  fun s =>
    let written := first s
    if written.2 then next written.1 else written

def ofPieces (ps : List String) : Writing :=
  fun s => s.write ps

lemma andThen_assoc (first second third : Writing) :
    (first.andThen second).andThen third = first.andThen (second.andThen third) := by
  funext s
  by_cases h : (first s).2 = true <;> simp [andThen, h]

lemma ofPieces_cons (p : String) (ps : List String) :
    ofPieces (p :: ps) = (piece p).andThen (ofPieces ps) := by
  funext s
  by_cases h : s.fits (Utf8.encode p) = true <;> simp [ofPieces, andThen, piece, Sink.write, h]

lemma ofPieces_append (ps qs : List String) :
    ofPieces (ps ++ qs) = (ofPieces ps).andThen (ofPieces qs) := by
  induction ps with
  | nil => rfl
  | cons p ps ih => rw [List.cons_append, ofPieces_cons, ih, ← andThen_assoc, ← ofPieces_cons]

lemma ofPieces_singleton (p : String) : ofPieces [p] = piece p := by
  funext s
  by_cases h : s.fits (Utf8.encode p) = true <;> simp [ofPieces, piece, Sink.write, h]

end Writing

namespace Value

mutual

def writing : Value → Writing
  | .number n => .piece (String.ofList (Numeral.write n))
  | .failure m => (Writing.piece "Error: ").andThen (.piece m)
  | .symbol name => .piece name
  | .list cells => (Writing.piece "(").andThen ((writingCells cells).andThen (.piece ")"))

def writingCells : List Value → Writing
  | [] => .nothing
  | v :: vs => v.writing.andThen (writingLater vs)

def writingLater : List Value → Writing
  | [] => .nothing
  | v :: vs => (Writing.piece " ").andThen (v.writing.andThen (writingLater vs))

end

def writingLine (v : Value) : Writing :=
  v.writing.andThen (.piece "\n")

open Writing

lemma writingLater_eq {vs : List Value} (h : ∀ v ∈ vs, v.writing = .ofPieces v.pieces) :
    writingLater vs = .ofPieces (vs.flatMap fun v => " " :: v.pieces) := by
  induction vs with
  | nil => rfl
  | cons v vs ih =>
    obtain ⟨hv, hvs⟩ := List.forall_mem_cons.mp h
    rw [writingLater, hv, ih hvs, ← ofPieces_append, ← ofPieces_cons]
    rfl

lemma intercalate_blank_cons (ps : List String) (parts : List (List String)) :
    [" "].intercalate (ps :: parts) = ps ++ parts.flatMap fun qs => " " :: qs := by
  induction parts generalizing ps with
  | nil => simp
  | cons qs parts ih => simp [ih]

lemma writingCells_eq {cells : List Value} (h : ∀ v ∈ cells, v.writing = .ofPieces v.pieces) :
    writingCells cells = .ofPieces ([" "].intercalate (cells.map pieces)) := by
  cases cells with
  | nil => rfl
  | cons v vs =>
    obtain ⟨hv, hvs⟩ := List.forall_mem_cons.mp h
    rw [writingCells, hv, writingLater_eq hvs, ← ofPieces_append, List.map_cons,
      intercalate_blank_cons, List.flatMap_map]

lemma writing_eq (v : Value) : v.writing = .ofPieces v.pieces := by
  induction v with
  | number n => exact (ofPieces_singleton _).symm
  | failure m =>
    rw [writing, ← ofPieces_singleton m, ← ofPieces_cons]
    rfl
  | symbol name => exact (ofPieces_singleton name).symm
  | list cells ih =>
    rw [writing, writingCells_eq ih, ← ofPieces_singleton ")", ← ofPieces_append, ← ofPieces_cons,
      pieces_list]
    rfl

lemma writingLine_eq (v : Value) : v.writingLine = .ofPieces v.linePieces := by
  rw [writingLine, writing_eq, ← ofPieces_singleton, ← ofPieces_append]
  rfl

end Value

end SexprCalc
