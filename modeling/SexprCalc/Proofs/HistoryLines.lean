import SexprCalc.Proofs.Encoding
import SexprCalc.Session.History

/-! The history file as a list of lines. Entries that are saved load again as they were, and a file
is its lines with a line feed after each. -/

namespace SexprCalc.Session.HistoryFile

open Text

def joinLines (lines : List (List UInt8)) : List UInt8 :=
  lines.flatMap fun line => line ++ [10]

/-- A line that can be told from its neighbours and keeps its last byte. -/
def Whole (line : List UInt8) : Prop :=
  10 ∉ line ∧ line.getLast? ≠ some 13

def Storable (entry : String) : Prop :=
  '\n' ∉ entry.toList ∧ entry.toList.getLast? ≠ some '\r'

/-- Every line has its end, and the end is a line feed alone. -/
structure Terminated (bytes : List UInt8) : Prop where
  ended : ∀ b ∈ bytes.getLast?, b = 10
  bare : ¬[13, 10] <:+: bytes

lemma Terminated.of_append {before bytes : List UInt8} (h : Terminated (before ++ bytes)) :
    Terminated bytes := by
  constructor
  · intro b hb
    exact h.ended b (by simp [List.getLast?_append, Option.mem_def.mp hb])
  · intro hi
    exact h.bare (hi.trans (List.suffix_append before bytes).isInfix)

lemma joinLines_cons (line : List UInt8) (lines : List (List UInt8)) :
    joinLines (line :: lines) = line ++ 10 :: joinLines lines := by
  simp [joinLines]

lemma joinLines_append (lines later : List (List UInt8)) :
    joinLines (lines ++ later) = joinLines lines ++ joinLines later :=
  List.flatMap_append

lemma encodeEntries_append (entries later : List String) :
    encodeEntries (entries ++ later) = encodeEntries entries ++ encodeEntries later :=
  List.flatMap_append

lemma encodeEntries_eq (entries : List String) :
    encodeEntries entries = joinLines (entries.map Utf8.encode) := by
  simp only [encodeEntries, joinLines, List.flatMap_map]

lemma Storable.whole {entry : String} (h : Storable entry) : Whole (Utf8.encode entry) := by
  have hn : Utf8.IsAscii '\n' := by decide
  have hr : Utf8.IsAscii '\r' := by decide
  exact ⟨fun hm => h.1 ((Utf8.mem_encode_iff hn).mp hm),
    fun hl => h.2 (Utf8.getLast?_of_getLast?_encode hr hl)⟩

lemma dropReturn_eq {line : List UInt8} (h : line.head? ≠ some 13) : dropReturn line = line := by
  unfold dropReturn
  split
  · exact absurd rfl h
  · rfl

lemma splitLines_append (done line after : List UInt8) (h : 10 ∉ line) :
    splitLines done (line ++ 10 :: after) =
      (dropReturn (line.reverse ++ done)).reverse :: splitLines [] after := by
  induction line generalizing done with
  | nil => simp [splitLines]
  | cons b line ih =>
    obtain ⟨hb, hl⟩ := List.ne_and_not_mem_of_not_mem_cons h
    rw [List.cons_append, splitLines, if_neg hb.symm, ih (b :: done) hl]
    simp

lemma splitLines_joinLines {lines : List (List UInt8)} (h : ∀ line ∈ lines, Whole line) :
    splitLines [] (joinLines lines) = lines := by
  induction lines with
  | nil => rfl
  | cons line lines ih =>
    obtain ⟨⟨hn, hr⟩, hls⟩ := List.forall_mem_cons.mp h
    have hd : dropReturn line.reverse = line.reverse := dropReturn_eq (by simpa using hr)
    rw [joinLines_cons, splitLines_append [] line _ hn, ih hls, List.append_nil, hd,
      List.reverse_reverse]

lemma joinLines_splitLines {done bytes : List UInt8} (hd : 10 ∉ done)
    (h : Terminated (done.reverse ++ bytes)) :
    joinLines (splitLines done bytes) = done.reverse ++ bytes := by
  induction bytes generalizing done with
  | nil =>
    cases done with
    | nil => rfl
    | cons b done => exact absurd (h.ended b (by simp)) (List.ne_of_not_mem_cons hd).symm
  | cons b bytes ih =>
    by_cases hb : b = 10
    · subst hb
      have hr : dropReturn done = done := by
        refine dropReturn_eq fun hc => h.bare ?_
        obtain ⟨rest, rfl⟩ := List.head?_eq_some_iff.mp hc
        exact ⟨rest.reverse, bytes, by simp⟩
      have hs : done.reverse ++ 10 :: bytes = (done.reverse ++ [10]) ++ bytes := by simp
      have ht : Terminated bytes := (hs ▸ h).of_append
      rw [splitLines, if_pos rfl, hr, joinLines_cons, ih List.not_mem_nil ht]
      rfl
    · have hs : (b :: done).reverse ++ bytes = done.reverse ++ b :: bytes := by simp
      rw [splitLines, if_neg hb, ih (by simpa [eq_comm] using ⟨hb, hd⟩) (hs ▸ h), hs]

lemma decodeLines_append (entries : List String) (lines : List (List UInt8)) :
    decodeLines (entries.map Utf8.encode ++ lines) =
      (entries ++ (decodeLines lines).1, (decodeLines lines).2) := by
  induction entries with
  | nil => rfl
  | cons entry entries ih =>
    rw [List.map_cons, List.cons_append, decodeLines, Utf8.decode?_encode]
    simp [ih]

lemma decodeLines_cases (lines : List (List UInt8)) :
    (lines = (decodeLines lines).1.map Utf8.encode ∧ (decodeLines lines).2 = none) ∨
      ∃ bad rest, Utf8.decode? bad = none ∧
        lines = (decodeLines lines).1.map Utf8.encode ++ bad :: rest ∧
        (decodeLines lines).2 ≠ none := by
  induction lines with
  | nil => exact .inl ⟨rfl, rfl⟩
  | cons line lines ih =>
    cases hd : Utf8.decode? line with
    | none => exact .inr ⟨line, lines, hd, by simp [decodeLines, hd], by simp [decodeLines, hd]⟩
    | some entry =>
      have he : decodeLines (line :: lines) =
          (entry :: (decodeLines lines).1, (decodeLines lines).2) := by
        simp only [decodeLines, hd]
      rw [he, Utf8.decode?_eq_some_iff.mp hd]
      rcases ih with ⟨hl, hn⟩ | ⟨bad, rest, hb, hl, hn⟩
      · exact .inl ⟨congrArg _ hl, hn⟩
      · exact .inr ⟨bad, rest, hb, congrArg _ hl, hn⟩

lemma load_encodeEntries {entries : List String} (h : ∀ entry ∈ entries, Storable entry) :
    load (.contents (encodeEntries entries)) = (entries, none) := by
  have hw : ∀ line ∈ entries.map Utf8.encode, Whole line :=
    List.forall_mem_map.mpr fun entry he => (h entry he).whole
  have hd := decodeLines_append entries []
  rw [List.append_nil] at hd
  rw [load, encodeEntries_eq, splitLines_joinLines hw, hd]
  simp [decodeLines]

lemma not_mem_of_mem_splitLines {done bytes line : List UInt8} (hd : 10 ∉ done)
    (h : line ∈ splitLines done bytes) : 10 ∉ line := by
  induction bytes generalizing done with
  | nil =>
    rw [splitLines] at h
    split at h
    · cases h
    · rw [List.mem_singleton.mp h]
      simpa using hd
  | cons b bytes ih =>
    rw [splitLines] at h
    split at h
    · rcases List.mem_cons.mp h with rfl | h
      · have hs : dropReturn done <:+ done := by
          unfold dropReturn
          split
          · exact List.suffix_cons ..
          · exact List.suffix_refl _
        intro hm
        exact hd (hs.subset (List.mem_reverse.mp hm))
      · exact ih List.not_mem_nil h
    · next hb => exact ih (by simpa [eq_comm] using ⟨hb, hd⟩) h

lemma encode_mem_of_mem_decodeLines {lines : List (List UInt8)} {entry : String}
    (h : entry ∈ (decodeLines lines).1) : Utf8.encode entry ∈ lines := by
  induction lines with
  | nil => cases h
  | cons line lines ih =>
    rw [decodeLines] at h
    split at h
    · next hl =>
      rcases List.mem_cons.mp h with rfl | h
      · rw [Utf8.decode?_eq_some_iff.mp hl]
        exact List.mem_cons_self
      · exact List.mem_cons_of_mem line (ih h)
    · cases h

lemma not_mem_of_mem_load {file : HistoryFile} {entry : String} (h : entry ∈ file.load.1) :
    '\n' ∉ entry.toList := by
  have hn : Utf8.IsAscii '\n' := by decide
  cases file with
  | contents bytes =>
    have hl := not_mem_of_mem_splitLines List.not_mem_nil (encode_mem_of_mem_decodeLines h)
    exact fun hm => hl ((Utf8.mem_encode_iff hn).mpr hm)
  | _ => cases h

lemma load_cases {bytes : List UInt8} (h : Terminated bytes) :
    (bytes = encodeEntries (load (.contents bytes)).1 ∧ (load (.contents bytes)).2 = none) ∨
      ∃ bad later, Utf8.decode? bad = none ∧ 10 ∉ bad ∧
        bytes = encodeEntries (load (.contents bytes)).1 ++ (bad ++ 10 :: later) ∧
        (load (.contents bytes)).2 ≠ none := by
  have hj : joinLines (splitLines [] bytes) = bytes := joinLines_splitLines List.not_mem_nil h
  simp only [encodeEntries_eq, load]
  rcases decodeLines_cases (splitLines [] bytes) with ⟨hl, hn⟩ | ⟨bad, rest, hb, hl, hn⟩
  · exact .inl ⟨by rw [← hl, hj], hn⟩
  · have hm : bad ∈ splitLines [] bytes := by
      rw [hl]
      exact List.mem_append_right _ List.mem_cons_self
    refine .inr ⟨bad, joinLines rest, hb, not_mem_of_mem_splitLines List.not_mem_nil hm, ?_, hn⟩
    rw [← joinLines_cons, ← joinLines_append, ← hl, hj]

lemma mem_of_prefix_joinLines {line later : List UInt8} {lines : List (List UInt8)}
    (hn : 10 ∉ line) (hs : ∀ line ∈ lines, 10 ∉ line)
    (h : line ++ 10 :: later <+: joinLines lines) : line ∈ lines := by
  cases lines with
  | nil => simp [joinLines] at h
  | cons first lines =>
    obtain ⟨rest, hr⟩ := h
    rw [joinLines_cons, List.append_assoc] at hr
    have hf := hs first List.mem_cons_self
    -- the shorter of the two would have the line feed after it inside the longer
    rcases List.append_eq_append_iff.mp hr with ⟨more, rfl, hm⟩ | ⟨more, rfl, hm⟩
    all_goals
      cases more with
      | nil => simp
      | cons b more =>
        rw [List.cons_append, List.cons_append] at hm
        have hb := List.head_eq_of_cons_eq hm
        subst hb
        simp at hf hn

end SexprCalc.Session.HistoryFile
