/-! White space as Unicode lists it. -/

namespace EntityGraph.Blank

/-- The code points with the property White_Space, as closed ranges in increasing order. -/
def ranges : List (Nat × Nat) :=
  [(0x9, 0xd), (0x20, 0x20), (0x85, 0x85), (0xa0, 0xa0), (0x1680, 0x1680), (0x2000, 0x200a),
   (0x2028, 0x2029), (0x202f, 0x202f), (0x205f, 0x205f), (0x3000, 0x3000)]

/-- A white-space character. -/
def isBlank (c : Char) : Bool :=
  ranges.any fun r => r.1 ≤ c.toNat && c.toNat ≤ r.2

/-- A text with nothing but white space in it. -/
def isBlankText (text : String) : Bool :=
  text.toList.all isBlank

end EntityGraph.Blank
