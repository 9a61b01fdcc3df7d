import SexprCalc.Proofs.Faults
import SexprCalc.Proofs.Spelling

namespace SexprCalc.Scan

open Text

structure Piece where
  blanks : List Char
  token : Located Token

def Piece.chars (p : Piece) : List Char :=
  p.blanks ++ p.token.item.text.toList

/-- The characters from `offset` on are these pieces and blanks after them. The tokens stand at
their offsets, and no digit follows one that would make it another. -/
structure Cuts (offset : Nat) (cs : List Char) (ps : List Piece) (last : List Char) : Prop where
  chars : cs = ps.flatMap Piece.chars ++ last
  blank : ∀ c ∈ ps.flatMap Piece.blanks ++ last, Alphabet.isBlank c = true
  wellFormed : ∀ p ∈ ps, p.token.item.WellFormed
  placed : ∀ before p after, ps = before ++ p :: after →
    p.token.offset = offset + Utf8.size (before.flatMap Piece.chars ++ p.blanks)
  apart : ∀ before p after, ps = before ++ p :: after → TakesDigits p.token.item →
    EndsNumber (after.flatMap Piece.chars ++ last)

lemma cuts_nil {offset : Nat} {cs last : List Char} :
    Cuts offset cs [] last ↔ cs = last ∧ ∀ c ∈ last, Alphabet.isBlank c = true := by
  constructor
  · intro h
    exact ⟨h.chars, by simpa using h.blank⟩
  · rintro ⟨rfl, hb⟩
    exact ⟨rfl, by simpa using hb, by simp, by simp, by simp⟩

lemma forall_split_cons {α : Type} {P : List α → α → List α → Prop} {x : α} {xs : List α} :
    (∀ before y after, x :: xs = before ++ y :: after → P before y after) ↔
      P [] x xs ∧ ∀ before y after, xs = before ++ y :: after → P (x :: before) y after := by
  constructor
  · intro h
    refine ⟨h [] x xs rfl, ?_⟩
    rintro before y after rfl
    exact h (x :: before) y after rfl
  · rintro ⟨hx, hxs⟩ before y after h
    rcases List.cons_eq_append_iff.mp h with ⟨rfl, hc⟩ | ⟨before, rfl, hc⟩
    · cases hc
      exact hx
    · exact hxs before y after hc

lemma cuts_cons {offset : Nat} {cs last : List Char} {p : Piece} {ps : List Piece} :
    Cuts offset cs (p :: ps) last ↔ ∃ rest, cs = p.chars ++ rest ∧
      (∀ c ∈ p.blanks, Alphabet.isBlank c = true) ∧ p.token.item.WellFormed ∧
      p.token.offset = offset + Utf8.size p.blanks ∧
      (TakesDigits p.token.item → EndsNumber rest) ∧
      Cuts (offset + Utf8.size p.chars) rest ps last := by
  have further (before : List Piece) (bs : List Char) :
      offset + Utf8.size ((p :: before).flatMap Piece.chars ++ bs) =
        offset + Utf8.size p.chars + Utf8.size (before.flatMap Piece.chars ++ bs) := by
    rw [List.flatMap_cons, List.append_assoc, Utf8.size_append p.chars, Nat.add_assoc]
  constructor
  · intro h
    have hb := h.blank
    rw [List.flatMap_cons, List.append_assoc, List.forall_mem_append] at hb
    obtain ⟨hw, hws⟩ := List.forall_mem_cons.mp h.wellFormed
    obtain ⟨hp, hps⟩ := forall_split_cons.mp h.placed
    obtain ⟨ha, has⟩ := forall_split_cons.mp h.apart
    simp only [further] at hps
    refine ⟨_, ?_, hb.1, hw, hp, ha, rfl, hb.2, hws, hps, has⟩
    rw [h.chars, List.flatMap_cons, List.append_assoc]
  · rintro ⟨rest, rfl, hb, hw, hp, ha, h⟩
    refine ⟨?_, ?_, List.forall_mem_cons.mpr ⟨hw, h.wellFormed⟩, forall_split_cons.mpr ⟨hp, ?_⟩,
      forall_split_cons.mpr ⟨h.chars ▸ ha, h.apart⟩⟩
    · rw [h.chars, List.flatMap_cons, List.append_assoc]
    · rw [List.flatMap_cons, List.append_assoc]
      exact List.forall_mem_append.mpr ⟨hb, h.blank⟩
    · simp only [further]
      exact h.placed

lemma run_blanks {offset : Nat} {bs : List Char} (hb : ∀ c ∈ bs, Alphabet.isBlank c = true)
    (cs : List Char) : run [] offset (bs ++ cs) = run [] (offset + Utf8.size bs) cs := by
  induction bs generalizing offset with
  | nil => rfl
  | cons b bs ih =>
    obtain ⟨hb, hbs⟩ := List.forall_mem_cons.mp hb
    rw [List.cons_append, run_blank hb, ih hbs, Utf8.size_cons, Nat.add_assoc]

lemma Cuts.run_eq {offset : Nat} {cs last : List Char} {ps : List Piece}
    (h : Cuts offset cs ps last) : run [] offset cs = ⟨ps.map Piece.token, none⟩ := by
  induction ps generalizing offset cs with
  | nil =>
    obtain ⟨rfl, hb⟩ := cuts_nil.mp h
    rw [← List.append_nil cs, run_blanks hb]
    simp [run]
  | cons p ps ih =>
    obtain ⟨rest, rfl, hb, hw, hp, ha, h⟩ := cuts_cons.mp h
    obtain ⟨c, cs, hc, hcb, hf⟩ := exists_first? hw ha
    rw [Piece.chars, Utf8.size_append, ← Nat.add_assoc] at h
    rw [Piece.chars, List.append_assoc, run_blanks hb, hc, run_first hcb hf, ih h, ← hp]
    rfl

lemma Cuts.blank_cons {offset : Nat} {c : Char} {cs last : List Char} {ps : List Piece}
    (h : Cuts (offset + c.utf8Size) cs ps last) (hb : Alphabet.isBlank c = true) :
    ∃ ps last, Cuts offset (c :: cs) ps last := by
  cases ps with
  | nil =>
    obtain ⟨rfl, hbs⟩ := cuts_nil.mp h
    exact ⟨[], c :: cs, cuts_nil.mpr ⟨rfl, List.forall_mem_cons.mpr ⟨hb, hbs⟩⟩⟩
  | cons p ps =>
    obtain ⟨rest, rfl, hbs, hw, hp, ha, h⟩ := cuts_cons.mp h
    rw [Nat.add_assoc] at hp h
    exact ⟨⟨c :: p.blanks, p.token⟩ :: ps, last,
      cuts_cons.mpr ⟨rest, rfl, List.forall_mem_cons.mpr ⟨hb, hbs⟩, hw, hp, ha, h⟩⟩

lemma exists_cuts {offset : Nat} {cs : List Char} (h : (run [] offset cs).stop = none) :
    ∃ ps last, Cuts offset cs ps last := by
  induction cs using Scan.induction generalizing offset with
  | nil => exact ⟨[], [], cuts_nil.mpr (by simp)⟩
  | blank c rest hb ih =>
    rw [run_blank hb] at h
    obtain ⟨ps, last, hc⟩ := ih h
    exact hc.blank_cons hb
  | stop c rest hb hn => simp [run_stop hb hn] at h
  | token c rest t after hb ht ih =>
    rw [run_first hb ht] at h
    obtain ⟨ps, last, hc⟩ := ih h
    exact ⟨⟨[], offset, t⟩ :: ps, last, cuts_cons.mpr ⟨after, (first?_append ht).symm, by simp,
      first?_wellFormed ht, rfl, endsNumber_of_first? ht, hc⟩⟩

lemma exists_other {offset : Nat} {cs : List Char} {u : Located Char}
    (h : (run [] offset cs).stop = some u) : ∃ before after, cs = before ++ u.item :: after ∧
      (∀ c ∈ before, Alphabet.contains c = true) ∧ Alphabet.contains u.item = false ∧
      u.offset = offset + Utf8.size before := by
  induction cs using Scan.induction generalizing offset with
  | nil => simp [run] at h
  | blank c rest hb ih =>
    rw [run_blank hb] at h
    obtain ⟨before, after, rfl, hc, hu, ho⟩ := ih h
    refine ⟨c :: before, after, rfl, ?_, hu, ?_⟩
    · exact List.forall_mem_cons.mpr ⟨(Alphabet.contains_iff c).mpr (.inl hb), hc⟩
    · rw [ho, Utf8.size_cons, Nat.add_assoc]
  | stop c rest hb hn =>
    rw [run_stop hb hn] at h
    cases h
    exact ⟨[], rest, rfl, by simp, (first?_eq_none_iff hb).mp hn, rfl⟩
  | token c rest t after hb ht ih =>
    rw [run_first hb ht] at h
    obtain ⟨before, after, rfl, hc, hu, ho⟩ := ih h
    refine ⟨t.text.toList ++ before, after, ?_, ?_, hu, ?_⟩
    · rw [← first?_append ht, List.append_assoc]
    · exact List.forall_mem_append.mpr ⟨(first?_wellFormed ht).contains, hc⟩
    · rw [ho, Utf8.size_append, Nat.add_assoc]

end SexprCalc.Scan

namespace SexprCalc.Token

open Text Scan

lemma exists_other_of_lex {text : String} {e : ReadError} (h : lex text = .error e) :
    ∃ before c after, text.toList = before ++ c :: after ∧
      (∀ x ∈ before, Alphabet.contains x = true) ∧ Alphabet.contains c = false ∧
      e = .unrecognized (Utf8.size before) c := by
  rw [lex] at h
  cases hs : (ofText text).stop with
  | none => simp [hs] at h
  | some u =>
    obtain ⟨before, after, ht, hb, hu, ho⟩ := exists_other hs
    refine ⟨before, u.item, after, ht, hb, hu, ?_⟩
    simpa [hs, ho, eq_comm] using h

lemma contains_of_lex {text : String} {ts : List Token} (h : lex text = .ok ts) :
    ∀ c ∈ text.toList, Alphabet.contains c = true :=
  contains_of_stop_eq_none (lex_eq_ok_iff.mp h).1

lemma lex_eq_error_iff {text : String} {e : ReadError} :
    lex text = .error e ↔ ∃ before c after, text.toList = before ++ c :: after ∧
      (∀ x ∈ before, Alphabet.contains x = true) ∧ Alphabet.contains c = false ∧
      e = .unrecognized (Utf8.size before) c := by
  refine ⟨exists_other_of_lex, ?_⟩
  rintro ⟨b, c, a, ht, hb, hc, rfl⟩
  cases h : lex text with
  | ok ts =>
    rw [contains_of_lex h c (by simp [ht])] at hc
    cases hc
  | error e =>
    obtain ⟨b', c', a', ht', hb', hc', rfl⟩ := exists_other_of_lex h
    -- Of two such characters neither can stand before the other.
    rcases Reading.split_cases (ht.symm.trans ht') with ⟨rfl, rfl, -⟩ | ⟨q, rfl, -⟩ | ⟨q, rfl, -⟩
    · rfl
    · rw [hb' c (by simp)] at hc
      cases hc
    · rw [hb c' (by simp)] at hc'
      cases hc'

lemma lex_eq_ok_iff_cuts {text : String} {ts : List Token} :
    lex text = .ok ts ↔
      ∃ ps last, Cuts 0 text.toList ps last ∧ ps.map (fun p => p.token.item) = ts := by
  have hm (ps : List Piece) :
      (ps.map Piece.token).map Located.item = ps.map fun p => p.token.item := by
    rw [List.map_map]
    rfl
  rw [lex_eq_ok_iff]
  constructor
  · rintro ⟨hs, rfl⟩
    obtain ⟨ps, last, h⟩ := exists_cuts hs
    exact ⟨ps, last, h, by rw [ofText, h.run_eq, hm]⟩
  · rintro ⟨ps, last, h, rfl⟩
    rw [ofText, h.run_eq, hm]
    exact ⟨rfl, rfl⟩

/-- A text over the alphabet has tokens: it is blanks and these tokens, each at its offset, and
there are no others that it can be cut into. Any other text fails at its first character that is not
of the alphabet. -/
theorem lex_exact (text : String) :
    ((∃ ts, lex text = .ok ts) ↔ ∀ c ∈ text.toList, Alphabet.contains c = true) ∧
    (∀ e, lex text = .error e ↔ ∃ before c after, text.toList = before ++ c :: after ∧
      (∀ x ∈ before, Alphabet.contains x = true) ∧ Alphabet.contains c = false ∧
      e = .unrecognized (Utf8.size before) c) ∧
    (∀ ts, lex text = .ok ts ↔
      ∃ ps last, Cuts 0 text.toList ps last ∧ ps.map (fun p => p.token.item) = ts) ∧
    ∀ ps last, Cuts 0 text.toList ps last → (ofText text).tokens = ps.map Piece.token := by
  refine ⟨⟨?_, fun h => ?_⟩, fun _ => lex_eq_error_iff, fun _ => lex_eq_ok_iff_cuts,
    fun ps last h => by rw [ofText, h.run_eq]⟩
  · rintro ⟨ts, h⟩
    exact contains_of_lex h
  · cases hl : lex text with
    | ok ts => exact ⟨ts, rfl⟩
    | error e =>
      obtain ⟨before, c, after, ht, -, hc, -⟩ := lex_eq_error_iff.mp hl
      rw [h c (by simp [ht])] at hc
      cases hc

example : (ofText "1-2 --5").tokens =
    [⟨0, .number "1"⟩, ⟨1, .number "-2"⟩, ⟨4, .symbol "-"⟩, ⟨5, .number "-5"⟩] := by
  decide +kernel

end SexprCalc.Token
