import Mathlib.Tactic.Lemma
import SexprCalc.Proofs.Writing
import SexprCalc.Session.Line

namespace SexprCalc

open Text

lemma Text.Utf8.flatMap_encode (ps : List String) :
    ps.flatMap encode = encode (String.join ps) := by
  rw [encode, String.toList_join, List.flatMap_assoc]
  rfl

namespace Sink

lemma put_nil (s : Sink) : s.put [] = s := by
  rcases s with ⟨_ | n, taken⟩ <;> simp [put]

lemma fits_nil (s : Sink) : s.fits [] = true := by
  rcases s with ⟨_ | n, taken⟩ <;> simp [fits]

lemma put_some (n : Nat) (taken piece : List UInt8) :
    put ⟨some n, taken⟩ piece = ⟨some (n - piece.length), (piece.take n).reverse ++ taken⟩ := rfl

lemma fits_some_iff {n : Nat} {taken piece : List UInt8} :
    fits ⟨some n, taken⟩ piece = true ↔ piece.length ≤ n :=
  decide_eq_true_iff

lemma fits_append (s : Sink) (piece later : List UInt8) :
    s.fits (piece ++ later) = (s.fits piece && (s.put piece).fits later) := by
  rcases s with ⟨_ | n, taken⟩
  · rfl
  · rw [Bool.eq_iff_iff, Bool.and_eq_true, put_some, fits_some_iff, fits_some_iff, fits_some_iff,
      List.length_append]
    omega

lemma put_append (s : Sink) (piece later : List UInt8) :
    s.put (piece ++ later) = if s.fits piece then (s.put piece).put later else s.put piece := by
  rcases s with ⟨_ | n, taken⟩
  · simp [put, fits]
  · split
    · next h =>
      have hn : piece.length ≤ n := fits_some_iff.mp h
      rw [put_some, put_some, put_some, List.take_append, List.take_of_length_le hn,
        List.length_append, Nat.sub_sub, List.reverse_append, List.append_assoc]
    · next h =>
      -- no room is left for what follows the piece
      have hn : n ≤ piece.length := Nat.le_of_not_le fun hle => h (fits_some_iff.mpr hle)
      have hr : n - (piece ++ later).length = n - piece.length := by
        rw [List.length_append]
        omega
      rw [put_some, put_some, hr, List.take_append_of_le_length hn]

lemma write_eq (s : Sink) (ps : List String) :
    s.write ps = (s.put (ps.flatMap Utf8.encode), s.fits (ps.flatMap Utf8.encode)) := by
  induction ps generalizing s with
  | nil => rw [write, List.flatMap_nil, put_nil, fits_nil]
  | cons p ps ih =>
    rw [write, List.flatMap_cons, put_append, fits_append]
    split
    · next h => rw [ih, h, Bool.true_and]
    · next h => rw [Bool.eq_false_iff.mpr h, Bool.false_and]

def held (capacity : Option Nat) (written : List UInt8) : List UInt8 :=
  match capacity with
  | none => written
  | some n => written.take n

lemma held_nil (capacity : Option Nat) : held capacity [] = [] := by
  cases capacity <;> simp [held]

lemma bytes_put_empty (capacity : Option Nat) (written : List UInt8) :
    ((empty capacity).put written).bytes = held capacity written := by
  cases capacity <;> simp [empty, put, bytes, held]

lemma fits_empty_eq_false_iff {capacity : Option Nat} {written : List UInt8} :
    (empty capacity).fits written = false ↔ ∃ n ∈ capacity, n < written.length := by
  cases capacity <;> simp [empty, fits]

/-- A channel with room for `n` bytes holds the first `n` of these after the pieces were written,
and writing them fails just when there are more. -/
def CutsOff (n : Nat) (pieces : List String) (written : List UInt8) : Prop :=
  ((empty (some n)).write pieces).1.bytes = written.take n ∧
    (((empty (some n)).write pieces).2 = false ↔ n < written.length)

lemma cutsOff_join (n : Nat) (ps : List String) : CutsOff n ps (Utf8.encode (String.join ps)) := by
  rw [CutsOff, write_eq, Utf8.flatMap_encode]
  refine ⟨bytes_put_empty (some n) _, ?_⟩
  rw [fits_empty_eq_false_iff]
  simp

end Sink

lemma Value.join_linePieces (v : Value) : String.join v.linePieces = v.render ++ "\n" := by
  simp [linePieces, render, String.join_append]

namespace Session

lemma Response.deliver_eq (r : Response) (outCapacity errCapacity : Option Nat) :
    r.deliver outCapacity errCapacity =
      ⟨Sink.held outCapacity (Utf8.encode (String.join r.out)),
        Sink.held errCapacity (Utf8.encode (String.join r.err)),
        (Sink.empty outCapacity).fits (Utf8.encode (String.join r.out)) &&
          (Sink.empty errCapacity).fits (Utf8.encode (String.join r.err))⟩ := by
  simp only [deliver, Sink.write_eq, Sink.bytes_put_empty, Utf8.flatMap_encode]

lemma deliver_out (ps : List String) (outCapacity errCapacity : Option Nat) :
    Response.deliver ⟨ps, []⟩ outCapacity errCapacity =
      ⟨Sink.held outCapacity (Utf8.encode (String.join ps)), [],
        (Sink.empty outCapacity).fits (Utf8.encode (String.join ps))⟩ := by
  have he : Utf8.encode (String.join []) = [] := rfl
  rw [Response.deliver_eq, he, Sink.held_nil, Sink.fits_nil, Bool.and_true]

lemma deliver_err (ps : List String) (outCapacity errCapacity : Option Nat) :
    Response.deliver ⟨[], ps⟩ outCapacity errCapacity =
      ⟨[], Sink.held errCapacity (Utf8.encode (String.join ps)),
        (Sink.empty errCapacity).fits (Utf8.encode (String.join ps))⟩ := by
  have he : Utf8.encode (String.join []) = [] := rfl
  rw [Response.deliver_eq, he, Sink.held_nil, Sink.fits_nil, Bool.true_and]

lemma respond_ok {text : String} {v : Value} (h : evaluate text = .ok v) :
    respond text = ⟨v.linePieces, []⟩ := by
  rw [respond, h]

lemma respond_error {text : String} {e : ReadError} (h : Tree.read text = .error e) :
    respond text = ⟨[], report text e⟩ := by
  have he : evaluate text = .error e := by rw [evaluate, h]; rfl
  rw [respond, he]

/-- Writing a value part by part, alone or as a line, comes to writing its pieces. It is written as
far as there is room, and so is the answer to a text. An answer goes to one channel only, so the
room on the other makes no difference. -/
theorem written_of_capacity :
    (∀ (v : Value) (s : Sink), v.writing s = s.write v.pieces ∧
      v.writingLine s = s.write v.linePieces) ∧
    (∀ (v : Value) (n : Nat), Sink.CutsOff n v.pieces (Utf8.encode v.render) ∧
      Sink.CutsOff n v.linePieces (Utf8.encode v.render ++ [10])) ∧
    ∀ (text : String) (outCapacity errCapacity : Option Nat),
      let whole := (respond text).deliver none none
      let limited := (respond text).deliver outCapacity errCapacity
      match Tree.read text with
      | .ok _ => whole.err = [] ∧ limited.err = [] ∧
          limited.out = Sink.held outCapacity whole.out ∧
          (limited.complete = false ↔ ∃ n ∈ outCapacity, n < whole.out.length)
      | .error _ => whole.out = [] ∧ limited.out = [] ∧
          limited.err = Sink.held errCapacity whole.err ∧
          (limited.complete = false ↔ ∃ n ∈ errCapacity, n < whole.err.length) := by
  refine ⟨fun v s => ⟨congrFun v.writing_eq s, congrFun v.writingLine_eq s⟩, ?_, ?_⟩
  · intro v n
    refine ⟨Sink.cutsOff_join n v.pieces, ?_⟩
    have hc := Sink.cutsOff_join n v.linePieces
    rwa [v.join_linePieces, Utf8.encode_append] at hc
  · intro text outCapacity errCapacity whole limited
    cases h : Tree.read text with
    | ok t =>
      have hr : respond text = _ := respond_ok (by rw [evaluate, h]; rfl)
      simp only [whole, limited, hr, deliver_out, true_and]
      exact ⟨rfl, Sink.fits_empty_eq_false_iff⟩
    | error e =>
      have hr : respond text = _ := respond_error h
      simp only [whole, limited, hr, deliver_err, true_and]
      exact ⟨rfl, Sink.fits_empty_eq_false_iff⟩

example :
    let written := (Sink.empty (some 2)).write (Value.list [.symbol "é"]).pieces
    written.1.bytes = [0x28, 0xC3] ∧ written.2 = false := by
  decide +kernel

end Session

end SexprCalc
