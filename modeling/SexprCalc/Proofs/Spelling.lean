import SexprCalc.Proofs.Scanning

namespace SexprCalc.Scan

open Text

/-- Wherever they begin, these characters are cut into these tokens. -/
def Spells (cs : List Char) (ts : List Token) : Prop :=
  ∀ offset, (run [] offset cs).stop = none ∧ (run [] offset cs).tokens.map Located.item = ts

def EndsNumber (rest : List Char) : Prop :=
  rest.head?.any Char.isDigit = false

lemma spells_nil : Spells [] [] :=
  fun _ => by simp [run]

lemma Spells.blank {c : Char} {rest : List Char} {ts : List Token} (h : Spells rest ts)
    (hb : Alphabet.isBlank c = true) : Spells (c :: rest) ts := by
  intro offset
  rw [run_blank hb]
  exact h _

lemma Spells.token {c : Char} {rest after : List Char} {t : Token} {ts : List Token}
    (h : Spells after ts) (hb : Alphabet.isBlank c = false)
    (ht : first? c rest = some (t, after)) : Spells (c :: rest) (t :: ts) := by
  intro offset
  obtain ⟨hs, hm⟩ := h (offset + Utf8.size t.text.toList)
  rw [run_first hb ht]
  exact ⟨hs, by rw [List.map_cons, hm]⟩

lemma Spells.opening {rest : List Char} {ts : List Token} (h : Spells rest ts) :
    Spells ('(' :: rest) (.opening :: ts) :=
  h.token rfl rfl

lemma Spells.closing {rest : List Char} {ts : List Token} (h : Spells rest ts) :
    Spells (')' :: rest) (.closing :: ts) :=
  h.token rfl rfl

lemma isBlank_of_isDigit {c : Char} (h : c.isDigit = true) : Alphabet.isBlank c = false := by
  rw [← Bool.not_eq_true, Alphabet.isBlank_iff]
  rintro (rfl | rfl | rfl | rfl | rfl | rfl) <;> simp at h

lemma takeWhile_digits {digits rest : List Char} (hd : ∀ c ∈ digits, c.isDigit = true)
    (hr : EndsNumber rest) : (digits ++ rest).takeWhile Char.isDigit = digits := by
  rw [List.takeWhile_append_of_pos hd]
  cases rest <;> simp_all [EndsNumber]

lemma dropWhile_digits {digits rest : List Char} (hd : ∀ c ∈ digits, c.isDigit = true)
    (hr : EndsNumber rest) : (digits ++ rest).dropWhile Char.isDigit = rest := by
  rw [List.dropWhile_append_of_pos hd]
  cases rest <;> simp_all [EndsNumber]

lemma first?_number {c : Char} {digits rest : List Char}
    (hs : startsNumber c (digits ++ rest) = true) (hd : ∀ c ∈ digits, c.isDigit = true)
    (hr : EndsNumber rest) :
    first? c (digits ++ rest) = some (.number (String.ofList (c :: digits)), rest) := by
  have ho : c ≠ '(' := by rintro rfl; simp [startsNumber_iff] at hs
  have hc : c ≠ ')' := by rintro rfl; simp [startsNumber_iff] at hs
  rw [first?, if_neg ho, if_neg hc, if_pos hs, takeWhile_digits hd hr, dropWhile_digits hd hr]

lemma first?_operator {c : Char} {rest : List Char} (ho : Alphabet.isOperator c = true)
    (hr : c = '-' → EndsNumber rest) :
    first? c rest = some (.symbol (String.singleton c), rest) := by
  obtain ⟨-, hp⟩ := Alphabet.plain_of_isOperator ho
  have hd : c.isDigit = false := by
    rcases (Alphabet.isOperator_iff c).mp ho with rfl | rfl | rfl | rfl <;> rfl
  have hs : startsNumber c rest = false := by
    by_cases hm : c = '-'
    · rw [startsNumber, hd, hr hm, Bool.and_false, Bool.or_false]
    · simp [startsNumber, hd, hm]
  simp [first?, hp, hs, ho]

lemma isBlank_of_isOperator {c : Char} (h : Alphabet.isOperator c = true) :
    Alphabet.isBlank c = false := by
  rcases (Alphabet.isOperator_iff c).mp h with rfl | rfl | rfl | rfl <;> rfl

def TakesDigits : Token → Prop
  | .number _ => True
  | .symbol s => s = "-"
  | _ => False

lemma exists_first? {t : Token} {rest : List Char} (ht : t.WellFormed)
    (hr : TakesDigits t → EndsNumber rest) :
    ∃ c cs, t.text.toList ++ rest = c :: cs ∧ Alphabet.isBlank c = false ∧
      first? c cs = some (t, rest) := by
  cases t with
  | opening => exact ⟨'(', rest, rfl, rfl, rfl⟩
  | closing => exact ⟨')', rest, rfl, rfl, rfl⟩
  | number s =>
    obtain ⟨digits, hn, hd, hs⟩ := ht
    obtain ⟨c, ds, rfl⟩ := List.exists_cons_of_ne_nil hn
    have hc : c.isDigit = true := hd c List.mem_cons_self
    rw [Token.text, ← String.ofList_toList (s := s)]
    rcases hs with hs | hs <;> rw [hs, String.toList_ofList]
    · have hf := first?_number ((startsNumber_iff c (ds ++ rest)).mpr (.inl hc))
        (fun d hm => hd d (List.mem_cons_of_mem c hm)) (hr trivial)
      exact ⟨c, ds ++ rest, rfl, isBlank_of_isDigit hc, hf⟩
    · have hf := first?_number ((startsNumber_iff '-' (c :: ds ++ rest)).mpr
        (.inr ⟨rfl, c, _, rfl, hc⟩)) hd (hr trivial)
      exact ⟨'-', c :: ds ++ rest, rfl, rfl, hf⟩
  | symbol s =>
    obtain ⟨c, hc, rfl⟩ := Token.isOperator_iff.mp ht
    refine ⟨c, rest, by simp [Token.text], isBlank_of_isOperator hc, first?_operator hc ?_⟩
    rintro rfl
    exact hr rfl

lemma endsNumber_of_first? {c : Char} {rest after : List Char} {t : Token}
    (h : first? c rest = some (t, after)) (ht : TakesDigits t) : EndsNumber after := by
  rcases first?_cases h with ⟨-, rfl, -⟩ | ⟨-, rfl, -⟩ | ⟨-, rfl, -⟩ | ⟨hs, -, rfl, rfl⟩
  · cases ht
  · cases ht
  · have hd := List.head?_dropWhile_not Char.isDigit rest
    rw [EndsNumber]
    cases hr : (rest.dropWhile Char.isDigit).head? <;> simp_all
  · have hc := congrArg String.toList (ht : String.singleton c = "-")
    obtain rfl : c = '-' := by simpa using hc
    simpa [startsNumber, EndsNumber] using hs

lemma Spells.text {t : Token} {rest : List Char} {ts : List Token} (h : Spells rest ts)
    (ht : t.WellFormed) (hr : TakesDigits t → EndsNumber rest) :
    Spells (t.text.toList ++ rest) (t :: ts) := by
  obtain ⟨c, cs, hc, hb, hf⟩ := exists_first? ht hr
  rw [hc]
  exact h.token hb hf

lemma Spells.number {s : String} {rest : List Char} {ts : List Token} (h : Spells rest ts)
    (hs : Token.IsNumeral s) (hr : EndsNumber rest) :
    Spells (s.toList ++ rest) (.number s :: ts) :=
  h.text (t := .number s) hs fun _ => hr

lemma Spells.symbol {s : String} {rest : List Char} {ts : List Token} (h : Spells rest ts)
    (hs : Token.IsOperator s) (hr : EndsNumber rest) :
    Spells (s.toList ++ rest) (.symbol s :: ts) :=
  h.text (t := .symbol s) hs fun _ => hr

lemma Spells.lex {text : String} {ts : List Token} (h : Spells text.toList ts) :
    Token.lex text = .ok ts :=
  Token.lex_eq_ok_iff.mpr (h 0)

lemma EndsNumber.append {cs ds : List Char} (hc : EndsNumber cs) (hd : EndsNumber ds) :
    EndsNumber (cs ++ ds) := by
  cases cs with
  | nil => exact hd
  | cons c cs => exact hc

lemma first?_join {c : Char} {cs after rest : List Char} {t : Token}
    (h : first? c cs = some (t, after)) (hr : EndsNumber rest) :
    first? c (cs ++ rest) = some (t, after ++ rest) := by
  obtain ⟨d, ds, hd, -, hf⟩ := exists_first? (first?_wellFormed h)
    fun hn => (endsNumber_of_first? h hn).append hr
  rw [← List.append_assoc, first?_append h, List.cons_append] at hd
  obtain ⟨rfl, rfl⟩ := List.cons.inj hd
  exact hf

lemma run_join {offset : Nat} {cs rest : List Char} (hs : (run [] offset cs).stop = none)
    (hr : EndsNumber rest) :
    run [] offset (cs ++ rest) =
      ⟨(run [] offset cs).tokens ++ (run [] (offset + Utf8.size cs) rest).tokens,
        (run [] (offset + Utf8.size cs) rest).stop⟩ := by
  induction cs using Scan.induction generalizing offset with
  | nil => simp [run, Utf8.size]
  | blank c cs hb ih =>
    rw [run_blank hb] at hs
    rw [List.cons_append, run_blank hb, run_blank hb, ih hs, Utf8.size_cons, Nat.add_assoc]
  | stop c cs hb hn => simp [run_stop hb hn] at hs
  | token c cs t after hb ht ih =>
    rw [run_first hb ht] at hs
    rw [List.cons_append, run_first hb (first?_join ht hr), run_first hb ht, ih hs,
      ← first?_append ht, Utf8.size_append, Nat.add_assoc]
    rfl

lemma spells_of_run {offset : Nat} {cs : List Char} (h : (run [] offset cs).stop = none) :
    Spells cs ((run [] offset cs).tokens.map Located.item) := by
  induction cs using Scan.induction generalizing offset with
  | nil => simpa [run] using spells_nil
  | blank c cs hb ih =>
    rw [run_blank hb] at h ⊢
    exact (ih h).blank hb
  | stop c cs hb hn => simp [run_stop hb hn] at h
  | token c cs t after hb ht ih =>
    rw [run_first hb ht] at h ⊢
    exact (ih h).token hb ht

lemma spells_of_lex {text : String} {ts : List Token} (h : Token.lex text = .ok ts) :
    Spells text.toList ts := by
  obtain ⟨hs, rfl⟩ := Token.lex_eq_ok_iff.mp h
  exact spells_of_run hs

lemma Spells.append {cs rest : List Char} {ts us : List Token} (h : Spells cs ts)
    (hr : EndsNumber rest) (hs : Spells rest us) : Spells (cs ++ rest) (ts ++ us) := by
  intro offset
  rw [run_join (h offset).1 hr]
  refine ⟨(hs _).1, ?_⟩
  rw [List.map_append, (h offset).2, (hs _).2]

lemma contains_of_stop_eq_none {cs : List Char} {offset : Nat}
    (h : (run [] offset cs).stop = none) : ∀ c ∈ cs, Alphabet.contains c = true := by
  induction cs using Scan.induction generalizing offset with
  | nil => simp
  | blank c rest hb ih =>
    rw [run_blank hb] at h
    exact List.forall_mem_cons.mpr ⟨(Alphabet.contains_iff c).mpr (.inl hb), ih h⟩
  | stop c rest hb hn => simp [run_stop hb hn] at h
  | token c rest t after hb ht ih =>
    rw [run_first hb ht] at h
    rw [← first?_append ht]
    exact List.forall_mem_append.mpr ⟨(first?_wellFormed ht).contains, ih h⟩

end SexprCalc.Scan
