/-! The bounds that every reader and writer keeps, and the constants of the snapshot format. -/

namespace EntityGraph.Limits

/-- The release of the library. -/
def version : String := "0.1.0"

/-- The first four bytes of a plain snapshot. -/
def plainMagic : List UInt8 := [0x54, 0x48, 0x47, 0x31]

/-- The first five bytes of a compressed snapshot: the plain ones and a mark. -/
def compressedMagic : List UInt8 := [0x54, 0x48, 0x47, 0x31, 0x5a]

/-- The format version that snapshots are written in. -/
def formatVersion : UInt8 := 1

/-- The oldest format version that snapshots are read in. -/
def oldestFormatVersion : UInt8 := 1

/-- A variable-length integer has at most this many groups of seven bits. -/
def varintGroups : Nat := 10

/-- Longest text, in bytes. -/
def textBytes : Nat := 16777216

/-- Most elements of a list or map. -/
def collectionItems : Nat := 1000000

/-- Most fields of a record on the wire. -/
def wireFields : Nat := 4096

/-- Deepest nesting of records and collections. -/
def depth : Nat := 128

/-- Longest snapshot, in bytes. -/
def snapshotBytes : Nat := 67108864

end EntityGraph.Limits
