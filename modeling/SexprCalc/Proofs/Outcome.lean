import SexprCalc.Proofs.Drafting
import SexprCalc.Proofs.Faults

/-! Reading fails with the fault of the text, and succeeds when there is none. The open groups of
the draft are at every moment those of the characters read so far. -/

namespace SexprCalc.Reading

open Text Brackets

structure Tracks (d : Draft) (before : List Char) : Prop where
  openAt : OpenAt before d.starts
  faultless : Faultless before

lemma Tracks.depth {d : Draft} {before : List Char} (h : Tracks d before) :
    depth before = d.groups.length := by
  simpa [Draft.starts] using h.openAt.depth

lemma Tracks.append {d : Draft} {before cs : List Char} (h : Tracks d before)
    (hc : ∀ c ∈ cs, Alphabet.Plain c) : Tracks d (before ++ cs) :=
  ⟨h.openAt.append (balanced_other fun c hm => (hc c hm).2), h.faultless.append hc⟩

lemma Tracks.step {d d' : Draft} {before : List Char} {t : Token} (h : Tracks d before)
    (hw : t.WellFormed) (hs : d.step ⟨Utf8.size before, t⟩ = .ok d') :
    Tracks d' (before ++ t.text.toList) := by
  rcases Draft.step_cases hs with ⟨ht, hlt, rfl⟩ | ⟨ht, g, gs, hg, rfl⟩ | ⟨leaf, hl, rfl⟩
  · obtain rfl : t = .opening := ht
    have hd : Brackets.depth before ≠ maxNestingDepth := by
      have := h.depth
      omega
    change Tracks _ (before ++ ['('])
    refine ⟨h.openAt.opening, faultless_concat.mpr ⟨h.faultless, ?_⟩⟩
    rw [faultAt?_opening, if_neg hd]
  · obtain rfl : t = .closing := ht
    have hd : Brackets.depth before ≠ 0 := by
      have := h.depth
      simp only [hg, List.length_cons] at this
      omega
    have ho : OpenAt before (g.start :: gs.map OpenGroup.start) := by
      simpa [Draft.starts, hg] using h.openAt
    change Tracks _ (before ++ [')'])
    refine ⟨?_, faultless_concat.mpr ⟨h.faultless, ?_⟩⟩
    · rw [Draft.starts_add]
      exact ho.closing
    · rw [faultAt?_closing, if_neg hd]
  · obtain ⟨ho, hf⟩ := h.append (hw.leaf_plain hl)
    exact ⟨by rwa [Draft.starts_add], hf⟩

def Accounts (cs : List Char) : Except ReadError Tree → Prop
  | .ok _ => Faultless cs ∧ depth cs = 0
  | .error e => Faulty cs e

lemma Tracks.finish {d : Draft} {cs : List Char} (h : Tracks d cs) : Accounts cs d.finish := by
  have hd := h.depth
  have ho := h.openAt
  unfold Draft.finish
  split
  · next hg => exact ⟨h.faultless, by simpa [hg] using hd⟩
  · next g gs hg =>
    rw [Draft.starts, hg, List.map_cons] at ho
    exact h.faultless.faulty_of_openAt ho

lemma Tracks.step_error {d : Draft} {before after : List Char} {t : Token} {e : ReadError}
    (h : Tracks d before) (hs : d.step ⟨Utf8.size before, t⟩ = .error e) :
    Faulty (before ++ (t.text.toList ++ after)) e := by
  have hd := h.depth
  have hb := h.faultless.depth_bounds
  rcases Draft.step_error_cases hs with ⟨ht, hlt, rfl⟩ | ⟨ht, hg, rfl⟩
  · obtain rfl : t = .opening := ht
    have hm : Brackets.depth before = maxNestingDepth := by omega
    change Faulty (before ++ '(' :: after) _
    apply Faulty.character h.faultless
    rw [faultAt?_opening, if_pos hm]
  · obtain rfl : t = .closing := ht
    have hz : Brackets.depth before = 0 := by simpa [hg] using hd
    change Faulty (before ++ ')' :: after) _
    apply Faulty.character h.faultless
    rw [faultAt?_closing, if_pos hz]

lemma resume_accounts {d : Draft} {before : List Char} (h : Tracks d before) (cs : List Char) :
    Accounts (before ++ cs) (d.resume (Utf8.size before) cs) := by
  -- Along the scan: the characters of each token go over to those read before, and `Tracks` with
  -- them.
  induction cs using Scan.induction generalizing d before with
  | nil =>
    rw [Draft.resume_nil, List.append_nil]
    exact h.finish
  | blank c rest hb ih =>
    have ht : Tracks d (before ++ [c]) := h.append (by simpa using Alphabet.plain_of_isBlank hb)
    have hs := ih ht
    rw [Utf8.size_append, List.append_assoc] at hs
    rw [Draft.resume_blank _ _ _ hb]
    exact hs
  | stop c rest hb hn =>
    rw [Draft.resume_stop _ _ hb hn]
    have hc := (Scan.first?_eq_none_iff hb).mp hn
    apply Faulty.character h.faultless
    simp [faultAt?, hc]
  | token c rest t after hb ht ih =>
    have hc : c :: rest = t.text.toList ++ after := (Scan.first?_append ht).symm
    cases hs : d.step ⟨Utf8.size before, t⟩ with
    | error e =>
      rw [Draft.resume_fault hb ht hs, hc]
      exact h.step_error hs
    | ok d' =>
      have hi := ih (h.step (Scan.first?_wellFormed ht) hs)
      rw [Utf8.size_append, List.append_assoc] at hi
      rw [Draft.resume_token hb ht hs, hc]
      exact hi

lemma read_accounts (text : String) : Accounts text.toList (Tree.read text) := by
  have h : Tracks .empty [] := ⟨.closed balanced_nil, faultless_nil⟩
  rw [Draft.read_eq_resume]
  exact resume_accounts h text.toList

lemma read_eq_error_iff {text : String} {e : ReadError} :
    Tree.read text = .error e ↔ Faulty text.toList e := by
  have ha := read_accounts text
  constructor
  · intro h
    rwa [h] at ha
  · intro h
    cases hr : Tree.read text with
    | ok t =>
      rw [hr] at ha
      exact absurd ha.2 (Int.ne_of_gt (h.depth_pos ha.1))
    | error e' =>
      rw [hr] at ha
      rw [Faulty.unique ha h]

lemma exists_read_eq_ok_iff {text : String} :
    (∃ t, Tree.read text = .ok t) ↔ Faultless text.toList ∧ depth text.toList = 0 := by
  constructor
  · rintro ⟨t, h⟩
    have ha := read_accounts text
    rwa [h] at ha
  · rintro ⟨hf, hd⟩
    cases hr : Tree.read text with
    | ok t => exact ⟨t, rfl⟩
    | error e => exact absurd hd (Int.ne_of_gt ((read_eq_error_iff.mp hr).depth_pos hf))

def error? (text : String) : Option ReadError :=
  match Tree.read text with
  | .ok _ => none
  | .error e => some e

lemma error?_eq_some_iff {text : String} {e : ReadError} :
    error? text = some e ↔ Tree.read text = .error e := by
  unfold error?
  cases Tree.read text <;> simp

lemma error?_eq_none_iff {text : String} : error? text = none ↔ ∃ t, Tree.read text = .ok t := by
  unfold error?
  cases Tree.read text <;> simp

lemma balanced_of_read {text : String} {t : Tree} (h : Tree.read text = .ok t) :
    Balanced text.toList := by
  obtain ⟨hf, hd⟩ := exists_read_eq_ok_iff.mp ⟨t, h⟩
  exact ⟨hf.staysOpen, hd⟩

lemma tooDeep_of_faultAt? {before after : List Char} {c : Char} {e : ReadError}
    (ha : ∀ x ∈ before ++ c :: after, Alphabet.contains x = true)
    (hb : Balanced (before ++ c :: after)) (hf : faultAt? before c = some e) :
    c = '(' ∧ depth before = maxNestingDepth ∧ e = .tooDeep (Utf8.size before) := by
  rcases faultAt?_cases hf with ⟨hc, -⟩ | ⟨rfl, hd, -⟩ | h
  · rw [ha c (by simp)] at hc
    cases hc
  · have hp := hb.1 (before ++ [')']) ⟨after, by simp⟩
    rw [depth_append, depth_closing, hd] at hp
    cases hp
  · exact h

lemma exists_read_eq_tooDeep {text : String}
    (ha : ∀ c ∈ text.toList, Alphabet.contains c = true) (hb : Balanced text.toList)
    (hn : ¬Faultless text.toList) :
    ∃ before after, text.toList = before ++ '(' :: after ∧ depth before = maxNestingDepth ∧
      (∀ p q, before = p ++ '(' :: q → depth p < maxNestingDepth) ∧
      Tree.read text = .error (.tooDeep (Utf8.size before)) := by
  cases hr : Tree.read text with
  | ok t => exact absurd (exists_read_eq_ok_iff.mp ⟨t, hr⟩).1 hn
  | error e =>
    have he := read_eq_error_iff.mp hr
    generalize text.toList = cs at he ha hb hn
    cases he with
    | unclosed hf => exact absurd hf hn
    | @character before c after _ hf hc =>
      obtain ⟨rfl, hm, rfl⟩ := tooDeep_of_faultAt? ha hb hc
      exact ⟨before, after, rfl, hm, fun p q hp => (hp ▸ hf).depth_lt, rfl⟩

/-- Reading fails with the fault of the first character at fault, else with that of the innermost
group that stays open, and else it succeeds. -/
theorem read_exact (text : String) :
    (∀ e, Tree.read text = .error e ↔ Faulty text.toList e) ∧
      ((∃ t, Tree.read text = .ok t) ↔ Faultless text.toList ∧ depth text.toList = 0) ∧
      (Faultless text.toList → 0 ≤ depth text.toList) :=
  ⟨fun _ => read_eq_error_iff, exists_read_eq_ok_iff, fun h => h.depth_bounds.1⟩

end SexprCalc.Reading
