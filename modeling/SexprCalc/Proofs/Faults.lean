import Mathlib.Data.List.Induction
import SexprCalc.Proofs.Brackets
import SexprCalc.Proofs.Scanning
import SexprCalc.ReadError

/-! The fault of a text, told from its parentheses and the alphabet alone: that of the first
character at fault, else that of the innermost group that stays open. A text has one at most. -/

namespace SexprCalc.Reading

open Text Brackets

/-- What is wrong with `c` after the characters before it, if anything is. -/
def faultAt? (before : List Char) (c : Char) : Option ReadError :=
  if Alphabet.contains c = false then some (.unrecognized (Utf8.size before) c)
  else if c = ')' ∧ depth before = 0 then some (.unbalanced (Utf8.size before))
  else if c = '(' ∧ depth before = maxNestingDepth then some (.tooDeep (Utf8.size before))
  else none

def Faultless (cs : List Char) : Prop :=
  ∀ before c after, cs = before ++ c :: after → faultAt? before c = none

/-- The fault of a text: that of its first character at fault, or else an opening parenthesis that
is never closed, the last one of its kind. -/
inductive Faulty : List Char → ReadError → Prop
  | character {before c after e} : Faultless before → faultAt? before c = some e →
      Faulty (before ++ c :: after) e
  | unclosed {before after} : Faultless (before ++ '(' :: after) → StaysOpen after →
      (∀ p q, after = p ++ '(' :: q → ¬StaysOpen q) →
      Faulty (before ++ '(' :: after) (.unbalanced (Utf8.size before))

lemma faultAt?_plain {c : Char} (before : List Char) (h : Alphabet.Plain c) :
    faultAt? before c = none := by
  simp [faultAt?, h.1, h.2.1, h.2.2]

lemma faultAt?_closing (before : List Char) :
    faultAt? before ')' =
      if depth before = 0 then some (.unbalanced (Utf8.size before)) else none := by
  simp [faultAt?, (Alphabet.contains_iff ')').mpr]

lemma faultAt?_opening (before : List Char) :
    faultAt? before '(' =
      if depth before = maxNestingDepth then some (.tooDeep (Utf8.size before)) else none := by
  simp [faultAt?, (Alphabet.contains_iff '(').mpr]

lemma faultAt?_cases {before : List Char} {c : Char} {e : ReadError}
    (h : faultAt? before c = some e) :
    (Alphabet.contains c = false ∧ e = .unrecognized (Utf8.size before) c) ∨
      (c = ')' ∧ depth before = 0 ∧ e = .unbalanced (Utf8.size before)) ∨
      (c = '(' ∧ depth before = maxNestingDepth ∧ e = .tooDeep (Utf8.size before)) := by
  rw [faultAt?] at h
  split at h
  · next hc => cases h; exact .inl ⟨hc, rfl⟩
  split at h
  · next hc => cases h; exact .inr (.inl ⟨hc.1, hc.2, rfl⟩)
  split at h
  · next hc => cases h; exact .inr (.inr ⟨hc.1, hc.2, rfl⟩)
  · cases h

lemma faultless_nil : Faultless [] := by
  intro before c after h
  simp at h

lemma Faultless.of_append {cs ds : List Char} (h : Faultless (cs ++ ds)) : Faultless cs := by
  rintro before c after rfl
  exact h before c (after ++ ds) (by simp)

lemma faultless_append {cs ds : List Char} :
    Faultless (cs ++ ds) ↔ Faultless cs ∧
      ∀ before c after, ds = before ++ c :: after → faultAt? (cs ++ before) c = none := by
  constructor
  · intro h
    refine ⟨h.of_append, ?_⟩
    rintro before c after rfl
    exact h (cs ++ before) c after (List.append_assoc ..).symm
  · rintro ⟨hc, hd⟩ before c after h
    rcases List.append_eq_append_iff.mp h with ⟨q, rfl, hq⟩ | ⟨q, rfl, hq⟩
    · exact hd q c after hq
    · cases q with
      | nil => simpa using hd [] c after (by simpa using hq.symm)
      | cons x q =>
        obtain ⟨rfl, rfl⟩ := List.cons.inj hq
        exact hc before c q rfl

lemma faultless_concat {cs : List Char} {c : Char} :
    Faultless (cs ++ [c]) ↔ Faultless cs ∧ faultAt? cs c = none := by
  rw [faultless_append]
  refine and_congr_right fun _ => ⟨fun h => ?_, ?_⟩
  · simpa using h [] c [] rfl
  · rintro h before x after hs
    obtain ⟨rfl, rfl, rfl⟩ : before = [] ∧ x = c ∧ after = [] := by
      simpa [eq_comm] using List.singleton_eq_append_iff.mp hs
    simpa using h

lemma Faultless.append {cs ds : List Char} (h : Faultless cs)
    (hd : ∀ c ∈ ds, Alphabet.Plain c) : Faultless (cs ++ ds) := by
  induction ds generalizing cs with
  | nil => simpa using h
  | cons c ds ih =>
    have hc := hd c List.mem_cons_self
    rw [List.append_cons]
    apply ih (faultless_concat.mpr ⟨h, faultAt?_plain cs hc⟩)
    intro x hx
    exact hd x (List.mem_cons_of_mem c hx)

@[elab_as_elim]
theorem Faultless.induction {motive : List Char → Prop} (nil : motive [])
    (opening : ∀ cs, depth cs ≠ maxNestingDepth → motive cs → motive (cs ++ ['(']))
    (closing : ∀ cs, depth cs ≠ 0 → motive cs → motive (cs ++ [')']))
    (other : ∀ cs c, c ≠ '(' ∧ c ≠ ')' → motive cs → motive (cs ++ [c])) {cs : List Char}
    (h : Faultless cs) : motive cs := by
  induction cs using List.reverseRecOn with
  | nil => exact nil
  | append_singleton cs c ih =>
    obtain ⟨hc, hf⟩ := faultless_concat.mp h
    by_cases ho : c = '('
    · subst ho
      exact opening cs (by simpa [faultAt?_opening] using hf) (ih hc)
    by_cases hp : c = ')'
    · subst hp
      exact closing cs (by simpa [faultAt?_closing] using hf) (ih hc)
    · exact other cs c ⟨ho, hp⟩ (ih hc)

lemma Faultless.depth_bounds {cs : List Char} (h : Faultless cs) :
    0 ≤ depth cs ∧ depth cs ≤ maxNestingDepth := by
  refine h.induction ?nil ?opening ?closing ?other
  case nil => exact ⟨Int.le_refl 0, by decide⟩
  case opening =>
    intro cs hd hb
    rw [depth_append, depth_opening, depth_nil]
    omega
  case closing =>
    intro cs hd hb
    rw [depth_append, depth_closing, depth_nil]
    omega
  case other =>
    intro cs c hc hb
    rw [depth_append, depth_cons_other hc, depth_nil]
    omega

lemma Faultless.depth_lt {p q : List Char} (h : Faultless (p ++ '(' :: q)) :
    depth p < maxNestingDepth := by
  have hf := h p '(' q rfl
  have hne : depth p ≠ maxNestingDepth := by simpa [faultAt?_opening] using hf
  have := h.of_append.depth_bounds
  omega

lemma Faultless.contains {cs : List Char} (h : Faultless cs) :
    ∀ c ∈ cs, Alphabet.contains c = true := by
  intro c hc
  obtain ⟨before, after, rfl⟩ := List.append_of_mem hc
  have hf := h before c after rfl
  by_contra hn
  rw [Bool.not_eq_true] at hn
  simp [faultAt?, hn] at hf

lemma Faultless.staysOpen {cs : List Char} (h : Faultless cs) : StaysOpen cs := by
  rintro p ⟨q, rfl⟩
  exact h.of_append.depth_bounds.1

lemma Faultless.nestsWithin {cs : List Char} (h : Faultless cs) :
    NestsWithin maxNestingDepth cs := by
  rintro p ⟨q, rfl⟩
  exact h.of_append.depth_bounds.2

lemma split_cases {b a b' a' : List Char} {c c' : Char} (h : b ++ c :: a = b' ++ c' :: a') :
    (b = b' ∧ c = c' ∧ a = a') ∨ (∃ q, b' = b ++ c :: q ∧ a = q ++ c' :: a') ∨
      ∃ q, b = b' ++ c' :: q ∧ a' = q ++ c :: a := by
  rcases List.append_eq_append_iff.mp h with ⟨q, rfl, hq⟩ | ⟨q, rfl, hq⟩
  · cases q with
    | nil => exact .inl (by simpa using hq)
    | cons x q =>
      obtain ⟨rfl, rfl⟩ := List.cons.inj hq
      exact .inr (.inl ⟨q, rfl, rfl⟩)
  · cases q with
    | nil => exact .inl (by simpa [eq_comm] using hq)
    | cons x q =>
      obtain ⟨rfl, rfl⟩ := List.cons.inj hq
      exact .inr (.inr ⟨q, rfl, rfl⟩)

lemma Faulty.unique {cs : List Char} {e e' : ReadError} (h : Faulty cs e) (h' : Faulty cs e') :
    e = e' := by
  cases h with
  | @character b c a _ hb hc =>
    generalize hs : b ++ c :: a = cs at h'
    cases h' with
    | @character b' c' a' _ hb' hc' =>
      rcases split_cases hs with ⟨rfl, rfl, rfl⟩ | ⟨q, rfl, -⟩ | ⟨q, rfl, -⟩
      · exact Option.some.inj (hc.symm.trans hc')
      · cases hc.symm.trans (hb' b c q rfl)
      · cases hc'.symm.trans (hb b' c' q rfl)
    | unclosed hf => cases hc.symm.trans (hf b c a hs.symm)
  | @unclosed b a hf ho hl =>
    generalize hs : b ++ '(' :: a = cs at h'
    cases h' with
    | @character b' c' a' _ _ hc' => cases hc'.symm.trans (hf b' c' a' hs)
    | @unclosed b' a' _ ho' hl' =>
      rcases split_cases hs with ⟨rfl, -, -⟩ | ⟨q, -, ha⟩ | ⟨q, -, ha⟩
      · rfl
      · exact absurd ho' (hl q a' ha)
      · exact absurd ho (hl' q a ha)

lemma Faultless.faulty_of_openAt {cs : List Char} {start : Nat} {starts : List Nat}
    (h : Faultless cs) (ho : OpenAt cs (start :: starts)) : Faulty cs (.unbalanced start) := by
  cases ho with
  | opened hb hc =>
    apply Faulty.unclosed h hc.1
    intro p q hq
    exact hc.not_staysOpen hq

lemma Faulty.depth_pos {cs : List Char} {e : ReadError} (h : Faulty cs e) (hf : Faultless cs) :
    0 < depth cs := by
  cases h with
  | @character b c a _ _ hc => cases hc.symm.trans (hf b c a rfl)
  | unclosed _ ho =>
    have := hf.of_append.depth_bounds
    have := ho.depth
    rw [depth_append, depth_opening]
    omega

end SexprCalc.Reading
