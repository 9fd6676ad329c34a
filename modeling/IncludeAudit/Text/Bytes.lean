/-!
# IncludeAudit.Text.Bytes

Texts as bytes.

* `utf8`: the bytes of a text; `ofUtf8?` the text of bytes, if they are one.
* `hex`: two hexadecimal digits for each byte.
-/

namespace IncludeAudit
namespace Text

def utf8 (s : String) : List UInt8 := s.toUTF8.toList

def ofUtf8? (bytes : ByteArray) : Option String := String.fromUTF8? bytes

def hexDigit (n : Nat) : Char := Char.ofNat (if n < 10 then 48 + n else 87 + n)

def hexByte (b : UInt8) : List Char := [hexDigit (b.toNat / 16), hexDigit (b.toNat % 16)]

def hex (bytes : List UInt8) : String := String.ofList (bytes.flatMap hexByte)

end Text
end IncludeAudit
