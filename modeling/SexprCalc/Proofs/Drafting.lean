import SexprCalc.Proofs.Scanning
import SexprCalc.Tree.Draft

namespace SexprCalc

open Text

def Token.leaf? : Token → Option Tree
  | opening => none
  | closing => none
  | number s => some (.number s)
  | symbol s => some (.symbol s)

lemma Token.leaf?_cases {t : Token} {leaf : Tree} (h : t.leaf? = some leaf) :
    (∃ s, t = .number s ∧ leaf = .number s) ∨ ∃ s, t = .symbol s ∧ leaf = .symbol s := by
  cases t with
  | opening => cases h
  | closing => cases h
  | number s => cases h; exact .inl ⟨s, rfl, rfl⟩
  | symbol s => cases h; exact .inr ⟨s, rfl, rfl⟩

lemma Token.WellFormed.leaf_plain {t : Token} {leaf : Tree} (h : t.WellFormed)
    (hl : t.leaf? = some leaf) : ∀ c ∈ t.text.toList, Alphabet.Plain c := by
  rcases leaf?_cases hl with ⟨s, rfl, -⟩ | ⟨s, rfl, -⟩
  · exact IsNumeral.plain h
  · exact IsOperator.plain h

namespace Draft

def starts (d : Draft) : List Nat :=
  d.groups.map OpenGroup.start

lemma starts_add (d : Draft) (t : Tree) : (d.add t).starts = d.starts := by
  rcases d with ⟨_ | ⟨g, gs⟩, ts⟩ <;> rfl

lemma length_groups_add (d : Draft) (t : Tree) : (d.add t).groups.length = d.groups.length := by
  rcases d with ⟨_ | ⟨g, gs⟩, ts⟩ <;> rfl

lemma step_leaf (d : Draft) {t : Located Token} {leaf : Tree} (hl : t.item.leaf? = some leaf) :
    d.step t = .ok (d.add leaf) := by
  rw [step]
  rcases Token.leaf?_cases hl with ⟨s, ht, rfl⟩ | ⟨s, ht, rfl⟩ <;> rw [ht]

lemma step_cases {d d' : Draft} {t : Located Token} (h : d.step t = .ok d') :
    (t.item = .opening ∧ d.groups.length < maxNestingDepth ∧
        d' = ⟨⟨t.offset, []⟩ :: d.groups, d.expressions⟩) ∨
      (t.item = .closing ∧ ∃ g gs, d.groups = g :: gs ∧
        d' = add (.group g.expressions.reverse) ⟨gs, d.expressions⟩) ∨
      ∃ leaf, t.item.leaf? = some leaf ∧ d' = d.add leaf := by
  rcases t with ⟨offset, _ | _ | s | s⟩
  · simp only [step] at h
    split at h
    · next hlt => cases h; exact .inl ⟨rfl, hlt, rfl⟩
    · cases h
  · simp only [step] at h
    split at h
    · cases h
    · next g gs hg => cases h; exact .inr (.inl ⟨rfl, g, gs, hg, rfl⟩)
  · cases h; exact .inr (.inr ⟨_, rfl, rfl⟩)
  · cases h; exact .inr (.inr ⟨_, rfl, rfl⟩)

lemma step_error_cases {d : Draft} {t : Located Token} {e : ReadError} (h : d.step t = .error e) :
    (t.item = .opening ∧ maxNestingDepth ≤ d.groups.length ∧ e = .tooDeep t.offset) ∨
      (t.item = .closing ∧ d.groups = [] ∧ e = .unbalanced t.offset) := by
  rcases t with ⟨offset, _ | _ | s | s⟩
  · simp only [step] at h
    split at h
    · cases h
    · next hlt => cases h; exact .inl ⟨rfl, Nat.le_of_not_lt hlt, rfl⟩
  · simp only [step] at h
    split at h
    · next hg => cases h; exact .inr ⟨rfl, hg, rfl⟩
    · cases h
  · cases h
  · cases h

def complete (d : Draft) (scan : Scan) : Except ReadError Tree :=
  match d.steps scan.tokens, scan.stop with
  | .error e, _ => .error e
  | .ok _, some c => .error (.unrecognized c.offset c.item)
  | .ok d, none => d.finish

def resume (d : Draft) (offset : Nat) (cs : List Char) : Except ReadError Tree :=
  d.complete (Scan.run [] offset cs)

lemma read_eq_resume (text : String) : Tree.read text = empty.resume 0 text.toList := rfl

lemma resume_nil (d : Draft) (offset : Nat) : d.resume offset [] = d.finish := by
  simp [resume, complete, Scan.run, steps]

lemma resume_blank (d : Draft) (offset : Nat) {c : Char} (rest : List Char)
    (hb : Alphabet.isBlank c = true) :
    d.resume offset (c :: rest) = d.resume (offset + c.utf8Size) rest := by
  rw [resume, Scan.run_blank hb, resume]

lemma resume_stop (d : Draft) (offset : Nat) {c : Char} {rest : List Char}
    (hb : Alphabet.isBlank c = false) (hn : Scan.first? c rest = none) :
    d.resume offset (c :: rest) = .error (.unrecognized offset c) := by
  rw [resume, Scan.run_stop hb hn]
  rfl

lemma resume_token {d d' : Draft} {offset : Nat} {c : Char} {rest after : List Char} {t : Token}
    (hb : Alphabet.isBlank c = false) (ht : Scan.first? c rest = some (t, after))
    (hs : d.step ⟨offset, t⟩ = .ok d') :
    d.resume offset (c :: rest) = d'.resume (offset + Utf8.size t.text.toList) after := by
  rw [resume, Scan.run_first hb ht, resume, complete, complete, steps]
  simp only [hs]

lemma resume_fault {d : Draft} {offset : Nat} {c : Char} {rest after : List Char} {t : Token}
    {e : ReadError} (hb : Alphabet.isBlank c = false) (ht : Scan.first? c rest = some (t, after))
    (hs : d.step ⟨offset, t⟩ = .error e) : d.resume offset (c :: rest) = .error e := by
  rw [resume, Scan.run_first hb ht, complete, steps]
  simp only [hs]

end Draft

end SexprCalc
