import Mathlib.Tactic.Lemma
import SexprCalc.Token.Scan

namespace SexprCalc

open Text

def Text.Alphabet.Plain (c : Char) : Prop :=
  Alphabet.contains c = true ∧ c ≠ '(' ∧ c ≠ ')'

instance (c : Char) : Decidable (Alphabet.Plain c) :=
  inferInstanceAs (Decidable (_ ∧ _))

lemma Text.Alphabet.plain_of_isBlank {c : Char} (h : Alphabet.isBlank c = true) : Plain c := by
  refine ⟨(Alphabet.contains_iff c).mpr (.inl h), ?_, ?_⟩ <;> rintro rfl <;> cases h

lemma Text.Alphabet.plain_of_isDigit {c : Char} (h : c.isDigit = true) : Plain c := by
  refine ⟨(Alphabet.contains_iff c).mpr (.inr (.inl h)), ?_, ?_⟩ <;> rintro rfl <;> cases h

lemma Text.Alphabet.plain_of_isOperator {c : Char} (h : Alphabet.isOperator c = true) :
    Plain c := by
  rcases (Alphabet.isOperator_iff c).mp h with rfl | rfl | rfl | rfl <;> decide

namespace Token

def IsNumeral (text : String) : Prop :=
  ∃ digits, digits ≠ [] ∧ (∀ c ∈ digits, c.isDigit = true) ∧
    (text.toList = digits ∨ text.toList = '-' :: digits)

def IsOperator (text : String) : Prop :=
  text = "+" ∨ text = "-" ∨ text = "*" ∨ text = "/"

def WellFormed : Token → Prop
  | opening => True
  | closing => True
  | number s => IsNumeral s
  | symbol s => IsOperator s

lemma IsNumeral.plain {s : String} (h : IsNumeral s) : ∀ c ∈ s.toList, Alphabet.Plain c := by
  obtain ⟨digits, -, hd, hs⟩ := h
  have hp (c : Char) (hc : c ∈ digits) : Alphabet.Plain c := Alphabet.plain_of_isDigit (hd c hc)
  rcases hs with hs | hs <;> rw [hs]
  · exact hp
  · exact List.forall_mem_cons.mpr ⟨by decide, hp⟩

lemma isOperator_iff {s : String} :
    IsOperator s ↔ ∃ c, Alphabet.isOperator c = true ∧ s = String.singleton c := by
  constructor
  · rintro (rfl | rfl | rfl | rfl)
    · exact ⟨'+', rfl, rfl⟩
    · exact ⟨'-', rfl, rfl⟩
    · exact ⟨'*', rfl, rfl⟩
    · exact ⟨'/', rfl, rfl⟩
  · rintro ⟨c, hc, rfl⟩
    rcases (Alphabet.isOperator_iff c).mp hc with rfl | rfl | rfl | rfl
    · exact .inl rfl
    · exact .inr (.inl rfl)
    · exact .inr (.inr (.inl rfl))
    · exact .inr (.inr (.inr rfl))

lemma IsOperator.plain {s : String} (h : IsOperator s) : ∀ c ∈ s.toList, Alphabet.Plain c := by
  obtain ⟨c, hc, rfl⟩ := isOperator_iff.mp h
  simpa using Alphabet.plain_of_isOperator hc

lemma WellFormed.contains {t : Token} (h : t.WellFormed) :
    ∀ c ∈ t.text.toList, Alphabet.contains c = true := by
  cases t with
  | opening => exact List.forall_mem_singleton.mpr rfl
  | closing => exact List.forall_mem_singleton.mpr rfl
  | number s => exact fun c hc => (h.plain c hc).1
  | symbol s => exact fun c hc => (h.plain c hc).1

end Token

namespace Scan

lemma startsNumber_iff (c : Char) (rest : List Char) :
    startsNumber c rest = true ↔
      c.isDigit = true ∨ c = '-' ∧ ∃ d ds, rest = d :: ds ∧ d.isDigit = true := by
  cases rest <;> simp [startsNumber]

lemma first?_cases {c : Char} {rest after : List Char} {t : Token}
    (h : first? c rest = some (t, after)) :
    (c = '(' ∧ t = .opening ∧ after = rest) ∨ (c = ')' ∧ t = .closing ∧ after = rest) ∨
      (startsNumber c rest = true ∧ after = rest.dropWhile Char.isDigit ∧
        t = .number (String.ofList (c :: rest.takeWhile Char.isDigit))) ∨
      (startsNumber c rest = false ∧ Alphabet.isOperator c = true ∧ after = rest ∧
        t = .symbol (String.singleton c)) := by
  unfold first? at h
  split at h
  · next hc => cases h; exact .inl ⟨hc, rfl, rfl⟩
  split at h
  · next hc => cases h; exact .inr (.inl ⟨hc, rfl, rfl⟩)
  split at h
  · next hs => cases h; exact .inr (.inr (.inl ⟨hs, rfl, rfl⟩))
  split at h
  · next hs ho => cases h; exact .inr (.inr (.inr ⟨Bool.eq_false_iff.mpr hs, ho, rfl, rfl⟩))
  · cases h

lemma first?_eq_none_iff {c : Char} {rest : List Char} (hb : Alphabet.isBlank c = false) :
    first? c rest = none ↔ Alphabet.contains c = false := by
  have hd : Alphabet.contains c = true ↔
      c = '(' ∨ c = ')' ∨ startsNumber c rest = true ∨ Alphabet.isOperator c = true := by
    simp only [Alphabet.contains_iff, startsNumber_iff, Alphabet.isOperator_iff, hb]
    grind
  rw [← Bool.not_eq_true, hd]
  unfold first?
  split <;> simp_all
  split <;> simp_all
  split <;> simp_all

lemma isNumeral_first {c : Char} {rest : List Char} (h : startsNumber c rest = true) :
    Token.IsNumeral (String.ofList (c :: rest.takeWhile Char.isDigit)) := by
  have hd : ∀ d ∈ rest.takeWhile Char.isDigit, d.isDigit = true :=
    List.all_eq_true.mp List.all_takeWhile
  rcases (startsNumber_iff c rest).mp h with hc | ⟨rfl, d, ds, rfl, hds⟩
  · refine ⟨c :: rest.takeWhile Char.isDigit, by simp, ?_, .inl String.toList_ofList⟩
    simpa [hc] using hd
  · exact ⟨_, by simp [hds], hd, .inr String.toList_ofList⟩

lemma first?_wellFormed {c : Char} {rest after : List Char} {t : Token}
    (h : first? c rest = some (t, after)) : t.WellFormed := by
  rcases first?_cases h with ⟨_, rfl, _⟩ | ⟨_, rfl, _⟩ | ⟨hs, _, rfl⟩ | ⟨_, ho, _, rfl⟩
  · trivial
  · trivial
  · exact isNumeral_first hs
  · exact Token.isOperator_iff.mpr ⟨c, ho, rfl⟩

@[elab_as_elim]
theorem induction {motive : List Char → Prop} (nil : motive [])
    (blank : ∀ c rest, Alphabet.isBlank c = true → motive rest → motive (c :: rest))
    (stop : ∀ c rest, Alphabet.isBlank c = false → first? c rest = none → motive (c :: rest))
    (token : ∀ c rest t after, Alphabet.isBlank c = false → first? c rest = some (t, after) →
      motive after → motive (c :: rest)) (cs : List Char) : motive cs := by
  induction h : cs.length using Nat.strongRecOn generalizing cs with
  | ind n ih =>
    subst h
    cases cs with
    | nil => exact nil
    | cons c rest =>
      cases hb : Alphabet.isBlank c with
      | true => exact blank c rest hb (ih _ (Nat.lt_succ_self _) rest rfl)
      | false =>
        cases ht : first? c rest with
        | none => exact stop c rest hb ht
        | some p =>
          obtain ⟨t, after⟩ := p
          exact token c rest t after hb ht
            (ih _ (Nat.lt_succ_of_le (first?_length_le ht)) after rfl)

lemma run_first {offset : Nat} {c : Char} {rest after : List Char} {t : Token}
    (hb : Alphabet.isBlank c = false) (h : first? c rest = some (t, after)) :
    run [] offset (c :: rest) =
      ⟨⟨offset, t⟩ :: (run [] (offset + Utf8.size t.text.toList) after).tokens,
        (run [] (offset + Utf8.size t.text.toList) after).stop⟩ := by
  rw [run_token hb h]
  exact run_append [] [⟨offset, t⟩] _ after

theorem wellFormed_of_mem {cs : List Char} {offset : Nat} {t : Located Token}
    (h : t ∈ (run [] offset cs).tokens) : t.item.WellFormed := by
  induction cs using Scan.induction generalizing offset with
  | nil => simp [run] at h
  | blank c rest hb ih =>
    rw [run_blank hb] at h
    exact ih h
  | stop c rest hb hn => simp [run_stop hb hn] at h
  | token c rest u after hb hu ih =>
    rw [run_first hb hu] at h
    rcases List.mem_cons.mp h with rfl | h
    · exact first?_wellFormed hu
    · exact ih h

end Scan

theorem Token.lex_eq_ok_iff {text : String} {ts : List Token} :
    Token.lex text = .ok ts ↔
      (Scan.ofText text).stop = none ∧ (Scan.ofText text).tokens.map Located.item = ts := by
  unfold Token.lex
  cases h : (Scan.ofText text).stop <;> simp [h]

end SexprCalc
