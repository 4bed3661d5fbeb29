import WireSchema.Text.Hebrew
import WireSchema.Text.Utf8

/-!
# Text — Charsets

How the text of a string field becomes bytes. Neither charset ever fails: what it has no byte or
character for, it replaces.
-/

namespace WireSchema

/-- The charset of a string field. -/
inductive Charset
  | utf8
  | hebrew
  deriving DecidableEq, Repr

namespace Charset

def name : Charset → String
  | utf8 => "utf-8"
  | hebrew => "hebrew-custom"

/-- The kind of string field that uses a charset, as payloads and messages name it. -/
def kind : Charset → String
  | utf8 => "CString"
  | hebrew => "HebrewString"

def ofKind? (kind : String) : Option Charset :=
  [utf8, hebrew].find? fun c => c.kind == kind

/-- The bytes of a text, without the zero byte that ends a field. -/
def encode : Charset → Text → List UInt8
  | utf8 => Utf8.encode
  | hebrew => Hebrew.encode

/-- The characters of a field's bytes. -/
def decode : Charset → List UInt8 → List Char
  | utf8 => Utf8.decode
  | hebrew => Hebrew.decode

/-- The text of a field's bytes. -/
def decodeText (c : Charset) (bytes : List UInt8) : Text := Text.ofChars (c.decode bytes)

/-- Whether a code point comes back unchanged. -/
def isTextPoint : Charset → CodePoint → Bool
  | utf8 => Utf8.isTextPoint
  | hebrew => Hebrew.isTextPoint

/-- Whether a text is a single character that comes back unchanged. -/
def isTextChar (c : Charset) : Text → Bool
  | [p] => c.isTextPoint p
  | _ => false

/-- Whether a byte can stand in an encoded text. -/
def isTextByte : Charset → Int → Bool
  | utf8 => Utf8.isTextByte
  | hebrew => Hebrew.isTextByte

end Charset

end WireSchema
