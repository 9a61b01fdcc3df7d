import SexprCalc.Proofs.Sessions

namespace SexprCalc.Session

open Text HistoryFile

/-- After a session the file has the entries that were loaded and then the lines that were typed,
without the empty ones and without repeats of the line before, whatever the answers to them were. So
no entry that was added repeats the one before it, and all lines but empty ones are in the file. -/
theorem history_content (file : HistoryFile) (lines : List String) :
    let loaded := file.load.1
    let typed := lines.filter (· ≠ "")
    let added := unrepeated loaded.getLast? typed
    (run file lines).history = (match file with
      | .inaccessible reason => .inaccessible reason
      | _ => .contents (encodeEntries (loaded ++ added))) ∧
    (loaded.getLast?.toList ++ added).IsChain (· ≠ ·) ∧
    typed ⊆ loaded ++ added := by
  intro loaded typed added
  refine ⟨?_, isChain_unrepeated _ _, ?_⟩
  · rw [run_history, foldl_rememberTyped, foldl_remember]
    cases file <;> rfl
  · have hl : loaded.getLast?.toList ⊆ loaded := by
      intro entry he
      exact List.mem_of_getLast? (Option.mem_toList.mp he)
    apply List.Subset.trans (subset_append_unrepeated loaded.getLast? typed)
    apply List.append_subset_of_subset_of_subset
    · exact List.Subset.trans hl (List.subset_append_left _ _)
    · exact List.subset_append_right _ _

example : (run (.contents [49, 10, 40, 10]) ["(", "", "(", "1", "1", "("]).history =
    .contents [49, 10, 40, 10, 49, 10, 40, 10] := by
  decide +kernel

lemma exists_saved (bytes : List UInt8) (lines : List String) : ∃ added,
    (run (.contents bytes) lines).history =
        .contents (encodeEntries (load (.contents bytes)).1 ++ encodeEntries added) ∧
      ∀ entry ∈ added, entry ∈ lines := by
  obtain ⟨added, ha, hm⟩ := exists_added (load (.contents bytes)).1 lines
  refine ⟨added, ?_, hm⟩
  rw [run_history, ha, ← encodeEntries_append]
  rfl

lemma not_prefix_encodeEntries {bad later : List UInt8} {entries : List String}
    (hb : Utf8.decode? bad = none) (hn : 10 ∉ bad) (h : ∀ entry ∈ entries, Storable entry) :
    ¬bad ++ 10 :: later <+: encodeEntries entries := by
  intro hp
  rw [encodeEntries_eq] at hp
  have hs : ∀ line ∈ entries.map Utf8.encode, 10 ∉ line :=
    List.forall_mem_map.mpr fun entry he => (h entry he).whole.1
  obtain ⟨entry, -, rfl⟩ := List.mem_map.mp (mem_of_prefix_joinLines hn hs hp)
  rw [Utf8.decode?_encode] at hb
  cases hb

/-- The file found stays in front of what is added exactly when all of it was loaded. In any case
the entries that were loaded do. -/
theorem history_kept_iff {bytes : List UInt8} {lines : List String} (hb : Terminated bytes)
    (ht : ∀ line ∈ lines, Typed line) :
    ∃ lost added, bytes = encodeEntries (load (.contents bytes)).1 ++ lost ∧
      (run (.contents bytes) lines).history =
        .contents (encodeEntries (load (.contents bytes)).1 ++ added) ∧
      (bytes <+: encodeEntries (load (.contents bytes)).1 ++ added ↔
        (load (.contents bytes)).2 = none) := by
  obtain ⟨added, hs, hm⟩ := exists_saved bytes lines
  rcases load_cases hb with ⟨hl, hn⟩ | ⟨bad, later, hd, hf, hl, hn⟩
  · refine ⟨[], encodeEntries added, by rwa [List.append_nil], hs, ?_⟩
    rw [← hl]
    exact iff_of_true (List.prefix_append ..) hn
  · -- the first line added would have to be the line that is no text
    refine ⟨bad ++ 10 :: later, encodeEntries added, hl, hs, iff_of_false ?_ hn⟩
    generalize encodeEntries (load (.contents bytes)).1 = kept at hl
    rw [hl, List.prefix_append_right_inj]
    apply not_prefix_encodeEntries hd hf
    intro entry he
    exact (ht entry (hm entry he)).storable

theorem history_kept_empty_entry :
    let bytes : List UInt8 := [40, 41, 10, 10]
    ∃ added, (run (.contents bytes) ["", "1"]).history = .contents (bytes ++ added) := by
  intro bytes
  have hb : Terminated bytes := ⟨by simp [bytes], by decide⟩
  have ht : ∀ line ∈ ["", "1"], Typed line := by decide +kernel
  have hl : (load (.contents bytes)).2 = none := by decide +kernel
  obtain ⟨_, _, _, hs, hk⟩ := history_kept_iff hb ht
  obtain ⟨added, ha⟩ := hk.mpr hl
  exact ⟨added, ha ▸ hs⟩

/-- The second line found is no text. A session without lines loses it. -/
theorem history_lost :
    let bytes : List UInt8 := [97, 10, 255, 10]
    Terminated bytes ∧ (run (.contents bytes) []).history = .contents [97, 10] ∧
      ¬bytes <+: [97, 10] := by
  intro bytes
  have hb : Terminated bytes := ⟨by simp [bytes], by decide⟩
  exact ⟨hb, by decide +kernel, by decide⟩

end SexprCalc.Session
