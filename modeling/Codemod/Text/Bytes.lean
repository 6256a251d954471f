import Codemod.Text.Offset

/-!
The bytes of text.

`bytes` are those of a run of characters in UTF-8, as many as `byteLength` counts. Runs with the
same bytes are the same characters, which is `bytes_inj`.
-/
namespace Codemod.Text

def bytes (cs : List Char) : List UInt8 := cs.flatMap String.utf8EncodeChar

@[simp] theorem bytes_append (a b : List Char) : bytes (a ++ b) = bytes a ++ bytes b :=
  List.flatMap_append

@[simp] theorem length_bytes (cs : List Char) : (bytes cs).length = byteLength cs := by
  induction cs with
  | nil => rfl
  | cons c cs ih =>
    rw [bytes, List.flatMap_cons, List.length_append, String.length_utf8EncodeChar, byteLength_cons]
    exact congrArg (c.utf8Size + ·) ih

/-- What was encoded in UTF-8 can be told from its bytes. -/
theorem bytes_inj {a b : List Char} (h : bytes a = bytes b) : a = b := by
  have hencode : a.utf8Encode = b.utf8Encode := congrArg List.toByteArray h
  have hdecode := congrArg ByteArray.utf8Decode? hencode
  rw [List.utf8Decode?_utf8Encode, List.utf8Decode?_utf8Encode, Option.some.injEq] at hdecode
  exact congrArg Array.toList hdecode

/-- The bytes in front of a place. -/
theorem take_bytes (a b : List Char) : (bytes (a ++ b)).take (byteLength a) = bytes a := by
  rw [bytes_append, ← length_bytes, List.take_left]

/-- The bytes behind a place. -/
theorem drop_bytes (a b : List Char) : (bytes (a ++ b)).drop (byteLength a) = bytes b := by
  rw [bytes_append, ← length_bytes, List.drop_left]

end Codemod.Text
