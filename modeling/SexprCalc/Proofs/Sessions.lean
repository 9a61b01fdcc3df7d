import Mathlib.Data.List.Forall2
import SexprCalc.Proofs.HistoryLines
import SexprCalc.Proofs.Recording
import SexprCalc.Proofs.Responding

/-! A session line by line: every line has its answer, whatever came before, and the entries grow at
their end. So it makes no difference where one session stops and the next goes on. -/

namespace SexprCalc.Session

open Text HistoryFile

def IsControl (c : Char) : Prop :=
  c.toNat < 32 ∨ 127 ≤ c.toNat ∧ c.toNat < 160

instance (c : Char) : Decidable (IsControl c) :=
  inferInstanceAs (Decidable (_ ∨ _))

def Typed (line : String) : Prop :=
  ∀ c ∈ line.toList, ¬IsControl c

instance (line : String) : Decidable (Typed line) :=
  List.decidableBAll (fun c => ¬IsControl c) line.toList

/-- An empty line is skipped, any other gets what the response to it leaves on unlimited channels.
-/
inductive Answers : String → Segment → Prop
  | skipped : Answers "" ⟨"", ""⟩
  | answered {line s} : line ≠ "" →
      (respond line).deliver none none = ⟨Utf8.encode s.out, Utf8.encode s.err, true⟩ →
      Answers line s

def answer (line : String) : Segment :=
  if line = "" then ⟨"", ""⟩ else (respond line).segment

lemma Typed.storable {line : String} (h : Typed line) : Storable line := by
  constructor
  · intro hm
    exact h _ hm (.inl (by decide))
  · intro hl
    exact h _ (List.mem_of_getLast? hl) (.inl (by decide))

lemma answers_answer (line : String) : Answers line (answer line) := by
  rw [answer]
  split
  · next h =>
    rw [h]
    exact .skipped
  · next h => exact .answered h (Response.deliver_unlimited _)

lemma enter_eq (entries : List String) (line : String) :
    enter entries line = (answer line, rememberTyped entries line) := by
  by_cases h : line = "" <;> simp [enter, answer, rememberTyped, h]

lemma enterAll_eq (entries lines : List String) :
    enterAll entries lines = (lines.map answer, lines.foldl rememberTyped entries) := by
  induction lines generalizing entries with
  | nil => rfl
  | cons line lines ih => simp only [enterAll, enter_eq, ih, List.map_cons, List.foldl_cons]

lemma start_entries (file : HistoryFile) : (start file).2 = file.load.1 := by
  unfold start
  split <;> next h => rw [h]

lemma finish_file (file : HistoryFile) (entries : List String) :
    (finish file entries).2 = (file.save entries).1 := by
  unfold finish
  split <;> next h => rw [h]

lemma run_segments (file : HistoryFile) (lines : List String) :
    (run file lines).segments = lines.map answer := by
  rw [run]
  simp only [enterAll_eq]

lemma run_history (file : HistoryFile) (lines : List String) :
    (run file lines).history = (file.save (lines.foldl rememberTyped file.load.1)).1 := by
  rw [run]
  simp only [enterAll_eq, finish_file, start_entries]

lemma storable_of_mem_foldl {file : HistoryFile} {lines : List String}
    (hr : ∀ entry ∈ file.load.1, entry.toList.getLast? ≠ some '\r')
    (ht : ∀ line ∈ lines, Typed line) :
    ∀ entry ∈ lines.foldl rememberTyped file.load.1, Storable entry := by
  obtain ⟨added, ha, hm⟩ := exists_added file.load.1 lines
  rw [ha]
  intro entry he
  rcases List.mem_append.mp he with hl | he
  · exact ⟨not_mem_of_mem_load hl, hr entry hl⟩
  · exact (ht entry (hm entry he)).storable

lemma save_foldl_load (file : HistoryFile) {entries : List String}
    (h : ∀ entry ∈ entries, Storable entry) (lines : List String) :
    ((file.save entries).1.save (lines.foldl rememberTyped (file.save entries).1.load.1)).1 =
      (file.save (lines.foldl rememberTyped entries)).1 := by
  cases file with
  -- nothing is saved there, neither before nor after the cut
  | inaccessible reason => rfl
  | absent | contents bytes => simp only [save, load_encodeEntries h]

lemma forall₂_answers (lines : List String) : List.Forall₂ Answers lines (lines.map answer) :=
  List.forall₂_map_right_iff.mpr (List.forall₂_same.mpr fun line _ => answers_answer line)

/-- A session may be cut anywhere between two lines: the part before and the part after leave the
same history as the whole and give the same answers. An answer depends on its own line only. -/
theorem run_resumed {file : HistoryFile} {first second : List String}
    (hr : ∀ entry ∈ file.load.1, entry.toList.getLast? ≠ some '\r')
    (ht : ∀ line ∈ first, Typed line) :
    (run (run file first).history second).history = (run file (first ++ second)).history ∧
      (run file first).segments ++ (run (run file first).history second).segments =
        (run file (first ++ second)).segments ∧
      ∀ (found : HistoryFile) (lines : List String),
        List.Forall₂ Answers lines (run found lines).segments := by
  refine ⟨?_, ?_, ?_⟩
  · simp only [run_history, List.foldl_append]
    exact save_foldl_load file (storable_of_mem_foldl hr ht) second
  · simp only [run_segments, List.map_append]
  · intro found lines
    rw [run_segments]
    exact forall₂_answers lines

theorem run_resumed_cut :
    let found := HistoryFile.contents [49, 10, 10, 255, 10, 50]
    (run (run found ["2", "", "(+ 1"]).history ["(+ 1", "3"]).history =
      .contents [49, 10, 10, 50, 10, 40, 43, 32, 49, 10, 51, 10] := by
  intro found
  have hr : ∀ entry ∈ found.load.1, entry.toList.getLast? ≠ some '\r' := by
    decide +kernel
  have ht : ∀ line ∈ ["2", "", "(+ 1"], Typed line := by
    decide +kernel
  rw [(run_resumed hr ht).1]
  decide +kernel

end SexprCalc.Session
