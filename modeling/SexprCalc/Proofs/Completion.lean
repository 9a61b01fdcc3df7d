import SexprCalc.Proofs.Outcome

namespace SexprCalc.Reading

open Text Brackets

lemma eq_of_size_eq {b a b' a' : List Char} {c c' : Char} (h : b ++ c :: a = b' ++ c' :: a')
    (hs : Utf8.size b = Utf8.size b') : c = c' := by
  have later (c : Char) (b q : List Char) : Utf8.size b ≠ Utf8.size (b ++ c :: q) := by
    have := c.utf8Size_pos
    rw [Utf8.size_append, Utf8.size_cons]
    omega
  rcases split_cases h with ⟨-, hc, -⟩ | ⟨q, rfl, -⟩ | ⟨q, rfl, -⟩
  · exact hc
  · exact absurd hs (later c b q)
  · exact absurd hs.symm (later c' b' q)

/-- The error is about an opening parenthesis that is never closed. -/
def AtOpening (cs : List Char) (e : ReadError) : Prop :=
  ∃ before after, cs = before ++ '(' :: after ∧ e = .unbalanced (Utf8.size before)

lemma Faulty.atOpening_iff {cs : List Char} {e : ReadError} (h : Faulty cs e) :
    AtOpening cs e ↔ Faultless cs := by
  cases h with
  | @character before c after _ _ hf =>
    apply iff_of_false
    · rintro ⟨b, a, hs, he⟩
      rcases faultAt?_cases hf with ⟨-, rfl⟩ | ⟨rfl, -, rfl⟩ | ⟨-, -, rfl⟩
      · cases he
      · cases eq_of_size_eq hs (ReadError.unbalanced.inj he)
      · cases he
    · intro hn
      cases hf.symm.trans (hn before c after rfl)
  | unclosed hf _ _ => exact iff_of_true ⟨_, _, rfl, rfl⟩ hf

lemma Faulty.append {cs : List Char} {e : ReadError} (h : Faulty cs e) (hn : ¬Faultless cs)
    (ds : List Char) : Faulty (cs ++ ds) e := by
  cases h with
  | @character before c after _ hb hf =>
    -- the first character at fault is found before anything that is added
    rw [List.append_assoc, List.cons_append]
    exact .character hb hf
  | unclosed hf _ _ => exact absurd hf hn

lemma Faultless.exists_openAt {cs : List Char} (h : Faultless cs) : ∃ starts, OpenAt cs starts := by
  refine h.induction ?nil ?opening ?closing ?other
  case nil => exact ⟨[], .closed balanced_nil⟩
  case opening =>
    rintro cs - ⟨starts, ho⟩
    exact ⟨_, ho.opening⟩
  case closing =>
    rintro cs hd ⟨starts, ho⟩
    cases starts with
    | nil => exact absurd ho.depth hd
    | cons start starts => exact ⟨starts, ho.closing⟩
  case other =>
    rintro cs c hc ⟨starts, ho⟩
    exact ⟨starts, ho.append (balanced_other (List.forall_mem_singleton.mpr hc))⟩

lemma Faulty.exists_openAt {cs : List Char} {e : ReadError} (h : Faulty cs e)
    (ha : AtOpening cs e) : Faultless cs ∧ ∃ starts, OpenAt cs starts ∧
      1 ≤ starts.length ∧ starts.length ≤ maxNestingDepth := by
  have hf := h.atOpening_iff.mp ha
  obtain ⟨starts, ho⟩ := hf.exists_openAt
  have hd := ho.depth
  have hp := h.depth_pos hf
  have hb := hf.depth_bounds.2
  exact ⟨hf, starts, ho, by omega, by omega⟩

lemma Faultless.closing {cs : List Char} {start : Nat} {starts : List Nat} (h : Faultless cs)
    (ho : OpenAt cs (start :: starts)) : Faultless (cs ++ [')']) := by
  apply faultless_concat.mpr
  refine ⟨h, ?_⟩
  rw [faultAt?_closing, if_neg]
  rw [ho.depth, List.length_cons]
  omega

lemma Faultless.closings {cs : List Char} {starts : List Nat} (h : Faultless cs)
    (ho : OpenAt cs starts) {n : Nat} (hn : n ≤ starts.length) :
    Faultless (cs ++ List.replicate n ')') ∧
      OpenAt (cs ++ List.replicate n ')') (starts.drop n) := by
  induction n generalizing cs starts with
  | zero => simpa using ⟨h, ho⟩
  | succ n ih =>
    cases starts with
    | nil => cases hn
    | cons start starts =>
      -- the first closing parenthesis ends the innermost group, the others those around it
      rw [List.replicate_succ, List.append_cons, List.drop_succ_cons]
      exact ih (h.closing ho) ho.closing (Nat.le_of_succ_le_succ hn)

def closings (n : Nat) : String :=
  String.ofList (List.replicate n ')')

lemma toList_append_closings (text : String) (n : Nat) :
    (text ++ closings n).toList = text.toList ++ List.replicate n ')' := by
  rw [String.toList_append, closings, String.toList_ofList]

lemma exists_read_closings {text : String} {starts : List Nat} (h : Faultless text.toList)
    (ho : OpenAt text.toList starts) : ∃ t, Tree.read (text ++ closings starts.length) = .ok t := by
  obtain ⟨hf, hc⟩ := h.closings ho (Nat.le_refl _)
  apply exists_read_eq_ok_iff.mpr
  rw [toList_append_closings]
  refine ⟨hf, ?_⟩
  rw [hc.depth, List.drop_length]
  rfl

lemma read_closings_eq_error {text : String} {starts : List Nat} (h : Faultless text.toList)
    (ho : OpenAt text.toList starts) {n : Nat} (hn : n < starts.length) :
    OpenAt (text ++ closings n).toList (starts.drop n) ∧
      Tree.read (text ++ closings n) = .error (.unbalanced starts[n]) := by
  obtain ⟨hf, hc⟩ := h.closings ho (Nat.le_of_lt hn)
  rw [← toList_append_closings] at hf hc
  refine ⟨hc, read_eq_error_iff.mpr ?_⟩
  rw [List.drop_eq_getElem_cons hn] at hc
  exact hf.faulty_of_openAt hc

/-- A failing text can be completed just when its error is about a group that stays open. Then as
many closing parentheses as there are open groups complete it, and fewer leave the error at the
innermost group that is open still. Every other error stays, whatever follows. -/
theorem read_completable {text : String} {e : ReadError} (h : Tree.read text = .error e) :
    ((∃ more t, Tree.read (text ++ more) = .ok t) ↔ AtOpening text.toList e) ∧
    (AtOpening text.toList e → ∃ starts, OpenAt text.toList starts ∧
      1 ≤ starts.length ∧ starts.length ≤ maxNestingDepth ∧
      (∃ t, Tree.read (text ++ closings starts.length) = .ok t) ∧
      ∀ n (hn : n < starts.length), OpenAt (text ++ closings n).toList (starts.drop n) ∧
        Tree.read (text ++ closings n) = .error (.unbalanced starts[n])) ∧
    (¬AtOpening text.toList e → ∀ more, Tree.read (text ++ more) = .error e) := by
  have he := read_eq_error_iff.mp h
  have stays (hn : ¬AtOpening text.toList e) (more : String) :
      Tree.read (text ++ more) = .error e := by
    apply read_eq_error_iff.mpr
    rw [String.toList_append]
    exact he.append (fun hf => hn (he.atOpening_iff.mpr hf)) more.toList
  refine ⟨⟨?_, fun ha => ?_⟩, fun ha => ?_, stays⟩
  · rintro ⟨more, t, hr⟩
    by_contra hn
    cases hr.symm.trans (stays hn more)
  · obtain ⟨hf, starts, ho, -, -⟩ := he.exists_openAt ha
    exact ⟨_, exists_read_closings hf ho⟩
  · obtain ⟨hf, starts, ho, hp, hm⟩ := he.exists_openAt ha
    exact ⟨starts, ho, hp, hm, exists_read_closings hf ho,
      fun n hn => read_closings_eq_error hf ho hn⟩

theorem read_completable_or_not :
    (∃ more t, Tree.read ("(+ 1 (2) (- " ++ more) = .ok t) ∧
      ∀ more, Tree.read ("(+ é" ++ more) = .error (.unrecognized 3 'é') := by
  have ho : Tree.read "(+ 1 (2) (- " = .error (.unbalanced 9) :=
    error?_eq_some_iff.mp (by decide +kernel)
  have hc : Tree.read "(+ é" = .error (.unrecognized 3 'é') :=
    error?_eq_some_iff.mp (by decide +kernel)
  refine ⟨(read_completable ho).1.mpr ?_, (read_completable hc).2.2 ?_⟩
  · exact ⟨"(+ 1 (2) ".toList, "- ".toList, by decide, by decide⟩
  · rintro ⟨before, after, -, he⟩
    cases he

end SexprCalc.Reading
