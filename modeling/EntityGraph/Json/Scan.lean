import EntityGraph.Json.TokenTree

/-! Reading the tokens of a JSON text. A text that stops being JSON yields the tokens before that point. -/

namespace EntityGraph.Scan

/-- Space, tab and line breaks. -/
def isBlank (b : UInt8) : Bool :=
  b == 0x20 || b == 0x09 || b == 0x0a || b == 0x0d

/-- The text after leading blanks. -/
def skipBlank (bytes : List UInt8) : List UInt8 :=
  bytes.dropWhile isBlank

/-- A decimal digit. -/
def isDigit (b : UInt8) : Bool :=
  0x30 ≤ b && b ≤ 0x39

/-- The number that digits spell, after those read before. -/
def digitsValue (before : Nat) (digits : List UInt8) : Nat :=
  digits.foldl (fun n b => 10 * n + (b.toNat - 0x30)) before

/-- Digits and the text after them; at least one digit is needed. -/
def someDigits? (bytes : List UInt8) : Option (List UInt8 × List UInt8) :=
  let digits := bytes.takeWhile isDigit
  if digits.isEmpty then none else some (digits, bytes.drop digits.length)

/-- The digits before the point: zero stands alone. -/
def wholeDigits? (bytes : List UInt8) : Option (List UInt8 × List UInt8) := do
  let (digits, rest) ← someDigits? bytes
  if digits.head? == some 0x30 && digits.length != 1 then none else some (digits, rest)

/-- The exponent after its mark. -/
def exponent? (bytes : List UInt8) : Option (Int × List UInt8) :=
  let read := fun (negative : Bool) (bytes : List UInt8) => do
    let (digits, rest) ← someDigits? bytes
    let n : Int := digitsValue 0 digits
    return (if negative then -n else n, rest)
  match bytes with
  | 0x2b :: rest => read false rest
  | 0x2d :: rest => read true rest
  | _ => read false bytes

/-- Adds the exponent, if one follows. -/
def withExponent? (l : Literal) (bytes : List UInt8) : Option (Literal × List UInt8) :=
  match bytes with
  | [] => some (l, bytes)
  | b :: rest =>
    if b == 0x65 || b == 0x45 then do
      let (e, rest) ← exponent? rest
      return (⟨l.negative, l.digits, l.places, e, false⟩, rest)
    else some (l, bytes)

/-- A number after its sign. -/
def number? (negative : Bool) (bytes : List UInt8) : Option (Literal × List UInt8) := do
  let (whole, rest) ← wholeDigits? bytes
  let n := digitsValue 0 whole
  match rest with
  | 0x2e :: rest => do
    let (fraction, rest) ← someDigits? rest
    withExponent? ⟨negative, digitsValue n fraction, fraction.length, 0, false⟩ rest
  | _ => withExponent? ⟨negative, n, 0, 0, true⟩ rest

/-- A part of a string: a byte as it stands, or an escaped unit of sixteen bits. -/
inductive Piece where
  | byte (b : UInt8)
  | unit (n : Nat)
deriving DecidableEq

/-- The value of a hexadecimal digit in either case. -/
def hexValue? (b : UInt8) : Option Nat :=
  if 0x30 ≤ b && b ≤ 0x39 then some (b.toNat - 0x30)
  else if 0x61 ≤ b && b ≤ 0x66 then some (b.toNat - 0x57)
  else if 0x41 ≤ b && b ≤ 0x46 then some (b.toNat - 0x37)
  else none

/-- Four hexadecimal digits. -/
def hexUnit? (a b c d : UInt8) : Option Nat := do
  let a ← hexValue? a
  let b ← hexValue? b
  let c ← hexValue? c
  let d ← hexValue? d
  return ((a * 16 + b) * 16 + c) * 16 + d

/-- What an escape of one letter stands for. -/
def escaped? (b : UInt8) : Option UInt8 :=
  if b == 0x22 || b == 0x5c || b == 0x2f then some b
  else if b == 0x62 then some 0x08
  else if b == 0x66 then some 0x0c
  else if b == 0x6e then some 0x0a
  else if b == 0x72 then some 0x0d
  else if b == 0x74 then some 0x09
  else none

/-- The pieces up to the closing quote, latest first before they are turned round, and the text after it. -/
def pieces? (before : List Piece) : List UInt8 → Option (List Piece × List UInt8)
  | [] => none
  | b :: rest =>
    if b == 0x22 then some (before.reverse, rest)
    else if b == 0x5c then
      match rest with
      | [] => none
      | e :: tail =>
        if e == 0x75 then
          match tail with
          | h1 :: h2 :: h3 :: h4 :: tail =>
            match hexUnit? h1 h2 h3 h4 with
            | some n => pieces? (.unit n :: before) tail
            | none => none
          | _ => none
        else
          match escaped? e with
          | some c => pieces? (.byte c :: before) tail
          | none => none
    else if b < 0x20 then none
    else pieces? (.byte b :: before) rest

/-- The bytes that pieces stand for, latest first before they are turned round. Surrogates come in pairs. -/
def pieceBytes? (before : List UInt8) : List Piece → Option (List UInt8)
  | [] => some before.reverse
  | .byte b :: rest => pieceBytes? (b :: before) rest
  | .unit high :: .unit low :: rest =>
    if 0xd800 ≤ high ∧ high ≤ 0xdbff then
      if 0xdc00 ≤ low ∧ low ≤ 0xdfff then
        let c := Char.ofNat ((high - 0xd800) * 0x400 + (low - 0xdc00) + 0x10000)
        pieceBytes? ((Utf8.ofChar c).reverse ++ before) rest
      else none
    else if 0xdc00 ≤ high ∧ high ≤ 0xdfff then none
    else pieceBytes? ((Utf8.ofChar (Char.ofNat high)).reverse ++ before) (.unit low :: rest)
  | .unit n :: rest =>
    if 0xd800 ≤ n ∧ n ≤ 0xdfff then none
    else pieceBytes? ((Utf8.ofChar (Char.ofNat n)).reverse ++ before) rest

/-- The text that pieces spell. -/
def pieceText? (pieces : List Piece) : Option String := do
  let bytes ← pieceBytes? [] pieces
  Utf8.decode? bytes

/-- A string after its opening quote: its text, if it is one, and the text after the closing quote. -/
def string? (bytes : List UInt8) : Option (Option String × List UInt8) := do
  let (pieces, rest) ← pieces? [] bytes
  return (pieceText? pieces, rest)

/-- What reading a value came to. -/
inductive Result where
  /-- The whole value, and the text after it. -/
  | whole (tree : TokenTree) (rest : List UInt8)
  /-- The text stops being JSON inside the value. -/
  | cut (tree : TokenTree)
  /-- There is no value. -/
  | none

/-- The text after a word. -/
def word? (word bytes : List UInt8) : Option (List UInt8) :=
  if word.isPrefixOf bytes then some (bytes.drop word.length) else .none

/-- A value other than an array or object. -/
def scalar (first : UInt8) (bytes rest : List UInt8) : Result :=
  let ofWord := fun (tree : TokenTree) (word : List UInt8) =>
    match word? word bytes with
    | some rest => Result.whole tree rest
    | .none => .none
  let ofNumber := fun (result : Option (Literal × List UInt8)) =>
    match result with
    | some (l, rest) => Result.whole (.number l) rest
    | .none => .none
  if first == 0x22 then
    match string? rest with
    | some (s, rest) => .whole (.string s) rest
    | .none => .none
  else if first == 0x6e then ofWord .null [0x6e, 0x75, 0x6c, 0x6c]
  else if first == 0x74 then ofWord (.bool true) [0x74, 0x72, 0x75, 0x65]
  else if first == 0x66 then ofWord (.bool false) [0x66, 0x61, 0x6c, 0x73, 0x65]
  else if first == 0x2d then ofNumber (number? true rest)
  else ofNumber (number? false bytes)

mutual

/-- A value. The fuel bounds the number of nested and following calls: two for each byte and two more suffice. -/
def value : Nat → List UInt8 → Result
  | 0, _ => .none
  | fuel + 1, bytes =>
    match skipBlank bytes with
    | [] => .none
    | first :: rest =>
      if first == 0x5b then
        match skipBlank rest with
        | 0x5d :: tail => .whole (.array [] true) tail
        | inner => items fuel [] inner
      else if first == 0x7b then
        match skipBlank rest with
        | 0x7d :: tail => .whole (.object [] true) tail
        | inner => members fuel [] inner
      else scalar first (first :: rest) rest

/-- Items of an array, at least one, after those read before, which stand latest first. -/
def items : Nat → List TokenTree → List UInt8 → Result
  | 0, before, _ => .cut (.array before.reverse false)
  | fuel + 1, before, bytes =>
    match value fuel bytes with
    | .none => .cut (.array before.reverse false)
    | .cut tree => .cut (.array (tree :: before).reverse false)
    | .whole tree rest =>
      match skipBlank rest with
      | 0x2c :: tail => items fuel (tree :: before) tail
      | 0x5d :: tail => .whole (.array (tree :: before).reverse true) tail
      | _ => .cut (.array (tree :: before).reverse false)

/-- Members of an object, at least one, after those read before, which stand latest first. -/
def members : Nat → List (Option String × TokenTree) → List UInt8 → Result
  | 0, before, _ => .cut (.object before.reverse false)
  | fuel + 1, before, bytes =>
    match skipBlank bytes with
    | 0x22 :: rest =>
      match string? rest with
      | .none => .cut (.object before.reverse false)
      | some (key, rest) =>
        match skipBlank rest with
        | 0x3a :: rest =>
          match value fuel rest with
          | .none => .cut (.object before.reverse false)
          | .cut tree => .cut (.object ((key, tree) :: before).reverse false)
          | .whole tree rest =>
            match skipBlank rest with
            | 0x2c :: tail => members fuel ((key, tree) :: before) tail
            | 0x7d :: tail => .whole (.object ((key, tree) :: before).reverse true) tail
            | _ => .cut (.object ((key, tree) :: before).reverse false)
        | _ => .cut (.object before.reverse false)
    | _ => .cut (.object before.reverse false)

end

/-- The first value of a text. -/
def document (bytes : List UInt8) : Result :=
  value (2 * bytes.length + 2) bytes

/-- The document of a text, with nothing but blanks around it. -/
def json? (bytes : List UInt8) : Option Json :=
  match document bytes with
  | .whole tree rest => if (skipBlank rest).isEmpty then tree.toJson? TokenTree.levels else .none
  | _ => .none

end EntityGraph.Scan
