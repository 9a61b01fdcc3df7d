import SexprCalc.ReadError
import SexprCalc.Text.Alphabet
import SexprCalc.Text.Utf8
import SexprCalc.Token.Basic

/-! Cutting a text into tokens. Blanks separate; a minus directly before a digit belongs to the
number; the first character outside the alphabet ends the scan, and the tokens before it still
count. -/

namespace SexprCalc

open Text

structure Scan where
  tokens : List (Located Token)
  stop : Option (Located Char)
  deriving DecidableEq, Repr

namespace Scan

def startsNumber (c : Char) (rest : List Char) : Bool :=
  c.isDigit || (c == '-' && rest.head?.any Char.isDigit)

def first? (c : Char) (rest : List Char) : Option (Token × List Char) :=
  if c = '(' then some (.opening, rest)
  else if c = ')' then some (.closing, rest)
  else if startsNumber c rest then
    some (.number (String.ofList (c :: rest.takeWhile Char.isDigit)), rest.dropWhile Char.isDigit)
  else if Alphabet.isOperator c then some (.symbol (String.singleton c), rest)
  else none

theorem first?_append {c : Char} {rest after : List Char} {t : Token}
    (h : first? c rest = some (t, after)) : t.text.toList ++ after = c :: rest := by
  unfold first? at h
  split at h
  · cases h; simp_all [Token.text]
  split at h
  · cases h; simp_all [Token.text]
  split at h
  · cases h; simp [Token.text]
  split at h
  · cases h; simp [Token.text]
  · cases h

theorem first?_length_le {c : Char} {rest after : List Char} {t : Token}
    (h : first? c rest = some (t, after)) : after.length ≤ rest.length := by
  unfold first? at h
  repeat' split at h
  all_goals cases h
  all_goals first | exact Nat.le_refl _ | exact (List.dropWhile_suffix _).length_le

/-- The scan of the characters that begin at `offset`, with the tokens already found, latest first.
-/
def run (found : List (Located Token)) (offset : Nat) : List Char → Scan
  | [] => ⟨found.reverse, none⟩
  | c :: rest =>
    if Alphabet.isBlank c then run found (offset + c.utf8Size) rest
    else
      match _ : first? c rest with
      | none => ⟨found.reverse, some ⟨offset, c⟩⟩
      | some (t, after) => run (⟨offset, t⟩ :: found) (offset + Utf8.size t.text.toList) after
  termination_by cs => cs.length
  decreasing_by
    · exact Nat.lt_succ_self _
    · exact Nat.lt_succ_of_le (first?_length_le ‹_›)

def ofText (text : String) : Scan :=
  run [] 0 text.toList

theorem run_blank {found : List (Located Token)} {offset : Nat} {c : Char} {rest : List Char}
    (h : Alphabet.isBlank c = true) :
    run found offset (c :: rest) = run found (offset + c.utf8Size) rest := by
  rw [run, if_pos h]

theorem run_token {found : List (Located Token)} {offset : Nat} {c : Char} {rest after : List Char}
    {t : Token} (hb : Alphabet.isBlank c = false) (h : first? c rest = some (t, after)) :
    run found offset (c :: rest) =
      run (⟨offset, t⟩ :: found) (offset + Utf8.size t.text.toList) after := by
  rw [run, if_neg (by simp [hb])]
  split <;> simp_all

theorem run_stop {found : List (Located Token)} {offset : Nat} {c : Char} {rest : List Char}
    (hb : Alphabet.isBlank c = false) (h : first? c rest = none) :
    run found offset (c :: rest) = ⟨found.reverse, some ⟨offset, c⟩⟩ := by
  rw [run, if_neg (by simp [hb])]
  split <;> simp_all

theorem run_append (found earlier : List (Located Token)) (offset : Nat) (cs : List Char) :
    run (found ++ earlier) offset cs =
      ⟨earlier.reverse ++ (run found offset cs).tokens, (run found offset cs).stop⟩ := by
  fun_induction run found offset cs with
  | case1 => simp [run]
  | case2 found offset c rest hb ih => rw [run_blank hb, ih]
  | case3 found offset c rest hb hn => simp [run_stop (Bool.eq_false_iff.mpr hb) hn]
  | case4 found offset c rest hb t after ht ih =>
    rw [run_token (Bool.eq_false_iff.mpr hb) ht, ← List.cons_append, ih]

end Scan

def Token.lex (text : String) : Except ReadError (List Token) :=
  let scan := Scan.ofText text
  match scan.stop with
  | some c => .error (.unrecognized c.offset c.item)
  | none => .ok (scan.tokens.map Located.item)

end SexprCalc
