import Mathlib.Tactic.Lemma
import SexprCalc.Text.Utf8

namespace SexprCalc.Text.Utf8

def IsAscii (c : Char) : Prop :=
  c.toNat < 128

instance (c : Char) : Decidable (IsAscii c) :=
  inferInstanceAs (Decidable (_ < _))

lemma utf8EncodeChar_cases (c : Char) :
    (IsAscii c ∧ String.utf8EncodeChar c = [UInt8.ofNat c.toNat]) ∨
      (¬IsAscii c ∧ ∀ b ∈ String.utf8EncodeChar c, 128 ≤ b.toNat) := by
  have hc : c.val.toNat = c.toNat := rfl
  unfold IsAscii String.utf8EncodeChar
  simp only [hc]
  split
  · exact .inl ⟨by omega, rfl⟩
  · refine .inr ⟨by omega, ?_⟩
    split
    · simp
      omega
    · split
      · simp
        omega
      · simp
        omega

lemma mem_utf8EncodeChar_iff {c d : Char} (hd : IsAscii d) :
    UInt8.ofNat d.toNat ∈ String.utf8EncodeChar c ↔ d = c := by
  have hb : (UInt8.ofNat d.toNat).toNat = d.toNat := by
    have : d.toNat < 128 := hd
    simp
    omega
  constructor
  · intro h
    rcases utf8EncodeChar_cases c with ⟨hc, he⟩ | ⟨-, hm⟩
    · rw [he, List.mem_singleton] at h
      have hn : d.toNat = c.toNat := by
        have : c.toNat < 128 := hc
        have hn := congrArg UInt8.toNat h
        rw [hb] at hn
        simp at hn
        omega
      exact Char.toNat_inj.mp hn
    · have := hm _ h
      have : d.toNat < 128 := hd
      omega
  · rintro rfl
    rcases utf8EncodeChar_cases d with ⟨-, he⟩ | ⟨hn, -⟩
    · simp [he]
    · exact absurd hd hn

lemma mem_encode_iff {d : Char} (hd : IsAscii d) {s : String} :
    UInt8.ofNat d.toNat ∈ encode s ↔ d ∈ s.toList := by
  simp only [encode, List.mem_flatMap, mem_utf8EncodeChar_iff hd]
  simp

lemma getLast?_of_getLast?_encode {d : Char} (hd : IsAscii d) {s : String}
    (h : (encode s).getLast? = some (UInt8.ofNat d.toNat)) : s.toList.getLast? = some d := by
  rcases List.eq_nil_or_concat s.toList with hs | ⟨cs, c, hs⟩
  · simp [encode, hs] at h
  · have he : encode s = cs.flatMap String.utf8EncodeChar ++ String.utf8EncodeChar c := by
      simp [encode, hs]
    have hm := List.getLast_mem (String.utf8EncodeChar_ne_nil (c := c))
    rw [he, List.getLast?_append, List.getLast?_eq_some_getLast String.utf8EncodeChar_ne_nil,
      Option.some_or, Option.some.injEq] at h
    rw [h, mem_utf8EncodeChar_iff hd] at hm
    simp [hs, hm]

lemma decode?_eq_some_iff {bytes : List UInt8} {s : String} :
    decode? bytes = some s ↔ bytes = encode s := by
  constructor
  · intro h
    rw [decode?, String.fromUTF8?] at h
    split at h
    · cases h
      apply List.toByteArray_inj.mp
      rw [toByteArray_encode]
      rfl
    · cases h
  · rintro rfl
    exact decode?_encode s

lemma charactersBefore?_size (count : Nat) (before after : List Char) :
    charactersBefore? count (before ++ after) (size before) = some (count + before.length) := by
  induction before generalizing count with
  | nil => cases after <;> rfl
  | cons c cs ih =>
    obtain ⟨k, hk⟩ := Nat.exists_eq_succ_of_ne_zero (Nat.ne_of_gt c.utf8Size_pos)
    rw [List.cons_append, size_cons, hk, Nat.succ_add, charactersBefore?, hk,
      if_pos (Nat.succ_le_succ (Nat.le_add_right ..))]
    have hs : k + size cs + 1 - (k + 1) = size cs := by omega
    rw [Nat.succ_eq_add_one, hs, ih, List.length_cons]
    congr 1
    omega

lemma column_size {text : String} {before after : List Char} (h : text.toList = before ++ after) :
    column text (size before) = before.length + 1 := by
  rw [column, h, charactersBefore?_size, Option.getD_some, Nat.zero_add]

lemma size_eq_length {cs : List Char} (h : ∀ c ∈ cs, IsAscii c) : size cs = cs.length := by
  induction cs with
  | nil => rfl
  | cons c cs ih =>
    obtain ⟨hc, hcs⟩ := List.forall_mem_cons.mp h
    have hu : c.utf8Size = 1 := Char.utf8Size_eq_one_iff.mpr (Nat.le_of_lt_succ hc)
    rw [size_cons, ih hcs, hu, List.length_cons, Nat.add_comm]

end SexprCalc.Text.Utf8
