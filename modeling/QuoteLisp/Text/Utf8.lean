/-!
# Bytes and texts

Input and output are sequences of bytes; a text is written in UTF-8, and bytes that are not UTF-8
are no text.
-/

namespace QuoteLisp

abbrev Bytes := List UInt8

namespace Utf8

/-- The bytes of a text. -/
def encode (cs : List Char) : Bytes := cs.flatMap String.utf8EncodeChar

/-- The text with these bytes. -/
def decode? (bytes : Bytes) : Option String := String.fromUTF8? ⟨bytes.toArray⟩

@[simp] theorem encode_nil : encode [] = [] := rfl

@[simp] theorem encode_append (as bs : List Char) :
    encode (as ++ bs) = encode as ++ encode bs := by
  simp [encode]

end Utf8

end QuoteLisp
