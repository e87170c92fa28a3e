/-
# `MessageCatalog.Text.Utf8` — the bytes of a text

A text is held as Unicode characters; files and record keys hold its UTF-8
bytes.  Writing never fails, and reading accepts exactly what writing
produces.
-/
import MessageCatalog.Bytes

namespace MessageCatalog.Utf8

/-- The UTF-8 bytes of a text. -/
def encode (text : String) : Bytes := text.toByteArray.data.toList

/-- The text with the given UTF-8 bytes, if they are well formed. -/
def decode (bytes : Bytes) : Option String := String.fromUTF8? ⟨bytes.toArray⟩

theorem decode_encode (text : String) : decode (encode text) = some text := by
  have h : (⟨(encode text).toArray⟩ : ByteArray) = text.toByteArray := by
    simp [encode]
  rw [decode, h, String.fromUTF8?, dif_pos text.isValidUTF8]
  rfl

theorem encode_injective {a b : String} (h : encode a = encode b) : a = b := by
  have := congrArg decode h
  simpa [decode_encode] using this

end MessageCatalog.Utf8
