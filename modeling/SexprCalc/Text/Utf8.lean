/-! The bytes of a text. An offset counts bytes from the start of the text, a column counts
characters from one. -/

namespace SexprCalc.Text.Utf8

def encode (text : String) : List UInt8 :=
  text.toList.flatMap String.utf8EncodeChar

def size (cs : List Char) : Nat :=
  cs.foldr (fun c n => c.utf8Size + n) 0

def decode? (bytes : List UInt8) : Option String :=
  String.fromUTF8? bytes.toByteArray

/-- How many characters stand before a byte offset, counted on from `count`; nothing for an offset
inside a character or past the end. -/
def charactersBefore? (count : Nat) : List Char → Nat → Option Nat
  | _, 0 => some count
  | [], _ + 1 => none
  | c :: cs, offset + 1 =>
    if c.utf8Size ≤ offset + 1 then charactersBefore? (count + 1) cs (offset + 1 - c.utf8Size)
    else none

/-- The column of a byte offset. Where no character starts there, the column counts bytes. -/
def column (text : String) (offset : Nat) : Nat :=
  (charactersBefore? 0 text.toList offset).getD offset + 1

theorem encode_append (s t : String) : encode (s ++ t) = encode s ++ encode t := by
  simp [encode]

theorem toByteArray_encode (s : String) : (encode s).toByteArray = s.toByteArray := by
  rw [← String.ofList_toList (s := s), String.toByteArray_ofList, encode, String.toList_ofList]
  rfl

theorem decode?_encode (s : String) : decode? (encode s) = some s := by
  rw [decode?, toByteArray_encode, String.fromUTF8?, dif_pos s.isValidUTF8]
  rfl

theorem size_cons (c : Char) (cs : List Char) : size (c :: cs) = c.utf8Size + size cs := rfl

theorem size_append (cs ds : List Char) : size (cs ++ ds) = size cs + size ds := by
  induction cs with
  | nil => simp [size]
  | cons c cs ih => rw [List.cons_append, size_cons, size_cons, ih, Nat.add_assoc]

theorem length_encode (s : String) : (encode s).length = size s.toList := by
  rw [encode]
  induction s.toList with
  | nil => rfl
  | cons c cs ih =>
    rw [List.flatMap_cons, List.length_append, ih, size_cons, String.length_utf8EncodeChar]

end SexprCalc.Text.Utf8
