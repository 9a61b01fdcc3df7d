import SexprCalc.Proofs.Lexing
import SexprCalc.Proofs.Outcome
import SexprCalc.Proofs.Sentences

namespace SexprCalc

open Text Brackets

namespace Scan

lemma Spells.blanks {bs rest : List Char} {ts : List Token} (h : Spells rest ts)
    (hb : ∀ c ∈ bs, Alphabet.isBlank c = true) : Spells (bs ++ rest) ts := by
  intro offset
  rw [run_blanks hb]
  exact h _

lemma endsNumber_blanks {bs rest : List Char} (hn : bs ≠ [])
    (hb : ∀ c ∈ bs, Alphabet.isBlank c = true) : EndsNumber (bs ++ rest) := by
  obtain ⟨c, cs, rfl⟩ := List.exists_cons_of_ne_nil hn
  have hc : c.isDigit = false := by
    apply Bool.eq_false_iff.mpr
    intro hd
    cases (isBlank_of_isDigit hd).symm.trans (hb c List.mem_cons_self)
  simpa [EndsNumber] using hc

end Scan

namespace Reading

lemma faultAt?_append {cs : List Char} (h : depth cs = 0) (before : List Char) (c : Char) :
    faultAt? (cs ++ before) c = (faultAt? before c).map (ReadError.shift (Utf8.size cs)) := by
  simp only [faultAt?, depth_append, h, Int.zero_add, Utf8.size_append]
  split
  · rfl
  split
  · rfl
  split
  · rfl
  · rfl

lemma Faultless.append_closed {cs ds : List Char} (hc : Faultless cs) (h : depth cs = 0)
    (hd : Faultless ds) : Faultless (cs ++ ds) := by
  apply faultless_append.mpr
  refine ⟨hc, fun before c after hs => ?_⟩
  rw [faultAt?_append h, hd before c after hs]
  rfl

lemma Faulty.append_closed {cs ds : List Char} {e : ReadError} (hc : Faultless cs)
    (h : depth cs = 0) (he : Faulty ds e) : Faulty (cs ++ ds) (e.shift (Utf8.size cs)) := by
  cases he with
  | @character before c after e hb hf =>
    rw [← List.append_assoc]
    apply Faulty.character (hc.append_closed h hb)
    rw [faultAt?_append h, hf]
    rfl
  | @unclosed before after hf ho hl =>
    have hs : cs ++ (before ++ '(' :: after) = (cs ++ before) ++ '(' :: after :=
      (List.append_assoc ..).symm
    -- the last group that stays open is the same one: what is in front closes all of its own
    have hn := hc.append_closed h hf
    rw [hs] at hn ⊢
    rw [ReadError.shift, ← Utf8.size_append]
    exact .unclosed hn ho hl

end Reading

section

variable {first blanks second : String} (hb : ∀ c ∈ blanks.toList, Alphabet.isBlank c = true)

include hb

lemma Tree.read_juxtaposed_error {t : Tree} {e : ReadError} (hf : read first = .ok t)
    (hs : read second = .error e) :
    read (first ++ blanks ++ second) = .error (e.shift (Utf8.encode (first ++ blanks)).length) := by
  have hp : ∀ c ∈ blanks.toList, Alphabet.Plain c := fun c hc => Alphabet.plain_of_isBlank (hb c hc)
  obtain ⟨hc, hd⟩ := Reading.exists_read_eq_ok_iff.mp ⟨t, hf⟩
  have hd' : depth (first ++ blanks).toList = 0 := by
    rw [String.toList_append, depth_append, hd, depth_other fun c hc => (hp c hc).2]
    rfl
  have hc' : Reading.Faultless (first ++ blanks).toList := by
    rw [String.toList_append]
    exact hc.append hp
  apply Reading.read_eq_error_iff.mpr
  rw [String.toList_append, Utf8.length_encode]
  exact (Reading.read_eq_error_iff.mp hs).append_closed hc' hd'

variable (hn : blanks ≠ "")

include hn

lemma Token.lex_juxtaposed {ts us : List Token} (hf : lex first = .ok ts)
    (hs : lex second = .ok us) : lex (first ++ blanks ++ second) = .ok (ts ++ us) := by
  have hl : blanks.toList ≠ [] := fun h => hn (String.toList_eq_nil_iff.mp h)
  apply Scan.Spells.lex
  rw [String.toList_append, String.toList_append, List.append_assoc]
  apply (Scan.spells_of_lex hf).append (Scan.endsNumber_blanks hl hb)
  exact (Scan.spells_of_lex hs).blanks hb

lemma Tree.read_juxtaposed_ok {t u : Tree} (hf : read first = .ok t) (hs : read second = .ok u) :
    ∃ ts us, t = root ts ∧ u = root us ∧
      read (first ++ blanks ++ second) = .ok (root (ts ++ us)) ∧
      (root (ts ++ us)).size + 3 = t.size + u.size := by
  have ht := nesting_le_of_read hf
  have hu := nesting_le_of_read hs
  obtain ⟨ts, hts, rfl, hlt⟩ := exists_expressions_of_read hf
  obtain ⟨us, hus, rfl, hlu⟩ := exists_expressions_of_read hs
  have hts' : IsSentence (root ts) := .root hts
  have hus' : IsSentence (root us) := .root hus
  have hj : IsSentence (root (ts ++ us)) := .root (List.forall_mem_append.mpr ⟨hts, hus⟩)
  refine ⟨ts, us, rfl, rfl, read_eq_ok_iff_lex.mpr ⟨hj, ?_, ?_⟩, ?_⟩
  · rw [nesting_root_le_iff] at ht hu ⊢
    exact List.forall_mem_append.mpr ⟨ht, hu⟩
  · rw [yield_root, List.flatMap_append]
    exact Token.lex_juxtaposed hb hn hlt hlu
  · rw [hj.size_eq, hts'.size_eq, hus'.size_eq, yield_root, yield_root, yield_root,
      List.flatMap_append, List.length_append, List.count_append]
    omega

end

/-- The expressions of a text that can be read come before those of the text after it; the fault of
the text after it stays the same but for its place. -/
theorem Tree.read_juxtaposed {first blanks second : String} {t : Tree} (hf : read first = .ok t)
    (hn : blanks ≠ "") (hb : ∀ c ∈ blanks.toList, Alphabet.isBlank c = true) :
    match read second with
    | .ok u => ∃ ts us, t = root ts ∧ u = root us ∧
        read (first ++ blanks ++ second) = .ok (root (ts ++ us)) ∧
        (root (ts ++ us)).size + 3 = t.size + u.size
    | .error e => read (first ++ blanks ++ second) =
        .error (e.shift (Utf8.encode (first ++ blanks)).length) := by
  cases hs : read second with
  | ok u => exact read_juxtaposed_ok hb hn hf hs
  | error e => exact read_juxtaposed_error hb hf hs

theorem Tree.read_juxtaposed_unclosed :
    let first := "(- 1) /"
    let blanks := "\n\t"
    read (first ++ blanks ++ "3 (-") = .error (.unbalanced 11) := by
  intro first blanks
  obtain ⟨t, hf⟩ : ∃ t, read first = .ok t := Reading.error?_eq_none_iff.mp (by decide +kernel)
  have hn : blanks ≠ "" := by decide
  have hb : ∀ c ∈ blanks.toList, Alphabet.isBlank c = true := by simp [blanks, Alphabet.isBlank]
  have hs : read "3 (-" = .error (.unbalanced 2) :=
    Reading.error?_eq_some_iff.mp (by decide +kernel)
  have ho : ReadError.shift (Utf8.encode (first ++ blanks)).length (.unbalanced 2) =
    .unbalanced 11 := by decide
  have h := @read_juxtaposed first blanks "3 (-" t hf hn hb
  rw [hs] at h
  exact ho ▸ h

end SexprCalc
