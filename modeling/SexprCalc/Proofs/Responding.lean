import SexprCalc.Proofs.Capacity
import SexprCalc.Proofs.Encoding
import SexprCalc.Proofs.Outcome
import SexprCalc.Proofs.Printing
import SexprCalc.Proofs.Results

namespace SexprCalc

open Text

namespace Reading

/-- The character that the fault of a text is about. -/
inductive Culprit : ReadError → Char → Prop
  | unrecognized (offset : Nat) (c : Char) : Culprit (.unrecognized offset c) c
  | unclosed (offset : Nat) : Culprit (.unbalanced offset) '('
  | unopened (offset : Nat) : Culprit (.unbalanced offset) ')'
  | tooDeep (offset : Nat) : Culprit (.tooDeep offset) '('

lemma isAscii_of_contains {c : Char} (h : Alphabet.contains c = true) : Utf8.IsAscii c := by
  rcases (Alphabet.contains_iff c).mp h with h | h | h | rfl | rfl
  · rcases (Alphabet.isBlank_iff c).mp h with rfl | rfl | rfl | rfl | rfl | rfl <;> decide
  · have hd : c.toNat ≤ 57 := (Char.isDigit_iff_toNat.mp h).2
    exact Nat.lt_of_le_of_lt hd (by decide)
  · rcases (Alphabet.isOperator_iff c).mp h with rfl | rfl | rfl | rfl <;> decide
  · decide
  · decide

lemma Faulty.exists_culprit {cs : List Char} {e : ReadError} (h : Faulty cs e) :
    ∃ before c after, cs = before ++ c :: after ∧ (∀ x ∈ before, Utf8.IsAscii x) ∧
      e.offset = Utf8.size before ∧ Culprit e c := by
  have ascii {before : List Char} (hb : Faultless before) : ∀ x ∈ before, Utf8.IsAscii x :=
    fun x hx => isAscii_of_contains (hb.contains x hx)
  cases h with
  | @character before c after _ hb hf =>
    refine ⟨before, c, after, rfl, ascii hb, ?_⟩
    rcases faultAt?_cases hf with ⟨-, rfl⟩ | ⟨rfl, -, rfl⟩ | ⟨rfl, -, rfl⟩
    · exact ⟨rfl, .unrecognized _ _⟩
    · exact ⟨rfl, .unopened _⟩
    · exact ⟨rfl, .tooDeep _⟩
  | @unclosed before after hf _ _ =>
    exact ⟨before, '(', after, rfl, ascii hf.of_append, rfl, .unclosed _⟩

lemma Faulty.unrecognized_ne {cs : List Char} {offset : Nat} {c : Char}
    (h : Faulty cs (.unrecognized offset c)) : c ≠ '\n' := by
  generalize he : ReadError.unrecognized offset c = e at h
  cases h with
  | character _ hf =>
    rcases faultAt?_cases hf with ⟨hc, rfl⟩ | ⟨-, -, rfl⟩ | ⟨-, -, rfl⟩
    · cases he
      rintro rfl
      cases hc
    · cases he
    · cases he
  | unclosed _ _ _ => cases he

end Reading

/-! No line feed inside of what is written. -/

lemma not_mem_repr (n : Nat) : '\n' ∉ n.repr.toList := by
  intro h
  rw [Nat.toList_repr] at h
  exact absurd (Nat.isDigit_of_mem_toDigits (by decide) (by decide) h) (by decide)

lemma Token.IsNumeral.not_mem {s : String} (h : IsNumeral s) : '\n' ∉ s.toList := by
  obtain ⟨digits, -, hd, hs⟩ := h
  have hn : '\n' ∉ digits := fun hm => absurd (hd _ hm) (by decide)
  rcases hs with hs | hs <;> simp [hs, hn]

lemma Fault.not_mem_message (f : Fault) : '\n' ∉ f.message.toList := by
  cases f <;> decide

lemma Value.Outcome.not_mem_render {v : Value} (h : v.Outcome) : '\n' ∉ v.render.toList := by
  cases h with
  | number n =>
    rw [toList_render_number]
    exact (isNumeral_write n).not_mem
  | symbol hs =>
    rw [toList_render_symbol]
    rcases hs with rfl | rfl | rfl | rfl <;> decide
  | empty => decide
  | @failure f _ =>
    have hp : pieces f.value = ["Error: ", f.message] := rfl
    have hm := f.not_mem_message
    simp [toList_render, hp, hm]

lemma not_mem_append {s t : String} (hs : '\n' ∉ s.toList) (ht : '\n' ∉ t.toList) :
    '\n' ∉ (s ++ t).toList := by
  rw [String.toList_append, List.mem_append, not_or]
  exact ⟨hs, ht⟩

lemma ReadError.not_mem_message {e : ReadError}
    (h : ∀ offset c, e = .unrecognized offset c → c ≠ '\n') : '\n' ∉ e.message.toList := by
  cases e with
  | unrecognized offset c =>
    have hc : '\n' ∉ (String.singleton c).toList := by
      rw [String.toList_singleton, List.mem_singleton]
      exact (h offset c rfl).symm
    have hq : '\n' ∉ ("unexpected character '" ++ String.singleton c ++ "' at offset ").toList :=
      not_mem_append (not_mem_append (by decide) hc) (by decide)
    exact not_mem_append hq (not_mem_repr offset)
  | unbalanced offset =>
    have hl : '\n' ∉ "unbalanced delimiter at offset ".toList := by decide
    exact not_mem_append hl (not_mem_repr offset)
  | tooDeep offset =>
    have hl : '\n' ∉ ("expression nested deeper than " ++ maxNestingDepth.repr ++
        " levels at offset ").toList :=
      not_mem_append (not_mem_append (by decide) (not_mem_repr _)) (by decide)
    exact not_mem_append hl (not_mem_repr offset)

def IsLine (bytes : List UInt8) : Prop :=
  ∃ content, bytes = content ++ [10] ∧ 10 ∉ content

lemma isLine_encode {s : String} (h : '\n' ∉ s.toList) : IsLine (Utf8.encode (s ++ "\n")) := by
  have hn : Utf8.IsAscii '\n' := by decide
  exact ⟨Utf8.encode s, Utf8.encode_append s "\n", fun hm => h ((Utf8.mem_encode_iff hn).mp hm)⟩

namespace Session

lemma Response.deliver_unlimited (r : Response) :
    r.deliver none none =
      ⟨Utf8.encode (String.join r.out), Utf8.encode (String.join r.err), true⟩ :=
  r.deliver_eq none none

lemma deliver_ok {text : String} {v : Value} (h : evaluate text = .ok v) :
    (respond text).deliver none none = ⟨Utf8.encode (v.render ++ "\n"), [], true⟩ := by
  rw [respond_ok h, Response.deliver_unlimited, v.join_linePieces]
  rfl

lemma join_report (text : String) (e : ReadError) :
    String.join (report text e) = "<stdin>:1:" ++ (Utf8.column text e.offset).repr ++
      ": \x1b[1;31merror:\x1b[0m " ++ e.message ++ "\n" := by
  have hs : ": \x1b[1;31merror:\x1b[0m " =
      ": " ++ ("\x1b[1;31m" ++ ("error:" ++ ("\x1b[0m" ++ " "))) := by decide
  simp only [report, String.join_cons, String.join_nil, hs, String.append_assoc,
    String.append_empty]

lemma deliver_error {text : String} {e : ReadError} (h : Tree.read text = .error e) :
    (respond text).deliver none none = ⟨[], Utf8.encode (String.join (report text e)), true⟩ := by
  rw [respond_error h, Response.deliver_unlimited]
  rfl

open Reading

/-- Where a fault shows: all before it is ASCII, so that its offset counts characters too. -/
structure Shows (text : String) (e : ReadError) (c : Char) : Prop where
  inside : e.offset < (Utf8.encode text).length
  split : ∃ before after, text.toList = before ++ c :: after ∧ Utf8.size before = e.offset ∧
    ∀ x ∈ before, Utf8.IsAscii x
  boundary : Utf8.charactersBefore? 0 text.toList e.offset = some e.offset
  column : Utf8.column text e.offset = e.offset + 1
  character : text.toList[e.offset]? = some c

lemma exists_shows {text : String} {e : ReadError} (h : Tree.read text = .error e) :
    ∃ c, Shows text e c ∧ Culprit e c := by
  obtain ⟨before, c, after, ht, ha, ho, hc⟩ := (read_eq_error_iff.mp h).exists_culprit
  have hl : e.offset = before.length := ho.trans (Utf8.size_eq_length ha)
  refine ⟨c, ⟨?_, ⟨before, after, ht, ho.symm, ha⟩, ?_, ?_, ?_⟩, hc⟩
  · have := c.utf8Size_pos
    rw [Utf8.length_encode, ht, Utf8.size_append, Utf8.size_cons, ho]
    omega
  · rw [ht, ho, Utf8.charactersBefore?_size, Nat.zero_add, ← ho, hl]
  · rw [ho, Utf8.column_size ht, ← ho, hl]
  · rw [ht, hl, List.getElem?_append_right (Nat.le_refl _), Nat.sub_self]
    rfl

lemma not_mem_message_of_read {text : String} {e : ReadError} (h : Tree.read text = .error e) :
    '\n' ∉ e.message.toList := by
  apply ReadError.not_mem_message
  rintro offset c rfl
  exact (read_eq_error_iff.mp h).unrecognized_ne

/-- A text is answered by one line on one channel: by its value if it can be read, else by a report
whose column is that of the character at fault. -/
theorem respond_line (text : String) :
    let delivery := (respond text).deliver none none
    match Tree.read text with
    | .ok _ => ∃ v, evaluate text = .ok v ∧
        delivery = ⟨Utf8.encode (v.render ++ "\n"), [], true⟩ ∧ IsLine delivery.out
    | .error e =>
        delivery = ⟨[], Utf8.encode ("<stdin>:1:" ++ (e.offset + 1).repr ++
          ": \x1b[1;31merror:\x1b[0m " ++ e.message ++ "\n"), true⟩ ∧ IsLine delivery.err ∧
        ∃ c, Shows text e c ∧ Culprit e c := by
  intro delivery
  cases hr : Tree.read text with
  | ok t =>
    have hv : evaluate text = .ok (Value.ofTree t).eval := evaluate_eq_ok_iff.mpr ⟨t, hr, rfl⟩
    have hd : delivery = _ := deliver_ok hv
    refine ⟨_, hv, hd, ?_⟩
    rw [hd]
    exact isLine_encode (outcome_of_evaluate hv).not_mem_render
  | error e =>
    obtain ⟨c, hs, hc⟩ := exists_shows hr
    have hd : delivery = _ := deliver_error hr
    rw [join_report, hs.column] at hd
    refine ⟨hd, ?_, c, hs, hc⟩
    simp only [hd]
    have hp : '\n' ∉ ("<stdin>:1:" ++ (e.offset + 1).repr ++ ": \x1b[1;31merror:\x1b[0m ").toList :=
      not_mem_append (not_mem_append (by decide) (not_mem_repr _)) (by decide)
    exact isLine_encode (not_mem_append hp (not_mem_message_of_read hr))

example : respond "(+ 1 (2\n3) (4 5 6" = ⟨[], ["<stdin>:1:", "12", ": ", "\x1b[1;31m", "error:",
    "\x1b[0m", " ", "unbalanced delimiter at offset 11", "\n"]⟩ := by
  decide +kernel

end Session

end SexprCalc
