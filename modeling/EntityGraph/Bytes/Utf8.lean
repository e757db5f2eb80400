/-! Text as its UTF-8 bytes. -/

namespace EntityGraph.Utf8

/-- The bytes of a text. -/
def encode (text : String) : List UInt8 :=
  text.toByteArray.data.toList

/-- The text that the bytes spell, if they are well formed. -/
def decode? (bytes : List UInt8) : Option String :=
  String.fromUTF8? ⟨bytes.toArray⟩

/-- The bytes of one character. -/
def ofChar (c : Char) : List UInt8 :=
  encode (String.singleton c)

end EntityGraph.Utf8
