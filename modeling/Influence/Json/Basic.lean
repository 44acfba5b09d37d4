import Influence.Decimal.Digits
import Influence.Decimal.Scaled

/-! # JSON documents

`Json` is the tree of a document, and `Json.read?` reads a text as one, strictly: exactly one value,
no text after it, blanks only where the grammar has them, and no control characters in strings.

Two things are kept as they were written, because not every reader of a tree needs them to make
sense: a `Numeral` may be too large for any number, and a string whose escapes name half a
surrogate pair is no text (`none`). -/

namespace Influence

/-- A number as written: a sign, the digits before and after the point, and an exponent. -/
structure Numeral where
  negative : Bool
  whole : List Nat
  fraction : List Nat
  exponent : Int
deriving DecidableEq, Repr

namespace Numeral

/-- The number that all digits together stand for. -/
def significand (n : Numeral) : Nat := Decimal.ofDigits (n.whole ++ n.fraction)

/-- The power of ten that the significand is multiplied by. -/
def scale (n : Numeral) : Int := n.exponent - n.fraction.length

/-- The floating-point value nearest to a numeral. -/
def nearest? (n : Numeral) : Option Float :=
  Decimal.nearestDigits? n.negative n.whole n.fraction n.exponent

/-- The floating-point value of a numeral, computed in floating-point arithmetic.  It may differ
from the nearest one in its last bits. -/
def scaled? (n : Numeral) : Option Float :=
  Decimal.scaled? n.negative n.whole n.fraction n.exponent

/-- The natural number that a numeral without point and exponent stands for. -/
def toNat? (n : Numeral) : Option Nat :=
  if n.scale = 0 ∧ (!n.negative || n.significand == 0) then some n.significand else none

end Numeral

/-- The tree of a document.  Members of objects stand in the order of the text, and keys may
repeat. -/
inductive Json where
  | null
  | bool (b : Bool)
  | number (n : Numeral)
  | text (s : Option String)
  | array (items : List Json)
  | object (members : List (Option String × Json))
deriving Repr

namespace Json

/-! ### Strings -/

/-- A piece of a string: a character, or the 16-bit unit that an escape names. -/
inductive Piece where
  | char (c : Char)
  | unit (n : Nat)
deriving DecidableEq, Repr

/-- The value of a hexadecimal digit. -/
def hexDigit? (c : Char) : Option Nat :=
  if '0' ≤ c ∧ c ≤ '9' then some (c.toNat - '0'.toNat)
  else if 'a' ≤ c ∧ c ≤ 'f' then some (c.toNat - 'a'.toNat + 10)
  else if 'A' ≤ c ∧ c ≤ 'F' then some (c.toNat - 'A'.toNat + 10)
  else none

/-- The value of four hexadecimal digits. -/
def hexUnit? (a b c d : Char) : Option Nat := do
  let a ← hexDigit? a
  let b ← hexDigit? b
  let c ← hexDigit? c
  let d ← hexDigit? d
  return ((a * 16 + b) * 16 + c) * 16 + d

/-- The character that an escape of one letter stands for. -/
def escaped? : Char → Option Char
  | '"' => some '"'
  | '\\' => some '\\'
  | '/' => some '/'
  | 'b' => some '\x08'
  | 'f' => some '\x0c'
  | 'n' => some '\n'
  | 'r' => some '\r'
  | 't' => some '\t'
  | _ => none

/-- The pieces up to the closing quote, and the text after it. -/
def readPieces : List Char → Option (List Piece × List Char)
  | [] => none
  | '"' :: rest => some ([], rest)
  | '\\' :: 'u' :: a :: b :: c :: d :: rest => do
    let n ← hexUnit? a b c d
    let (pieces, rest) ← readPieces rest
    return (.unit n :: pieces, rest)
  | '\\' :: c :: rest => do
    let c ← escaped? c
    let (pieces, rest) ← readPieces rest
    return (.char c :: pieces, rest)
  | c :: rest =>
    if c < ' ' then none
    else do
      let (pieces, rest) ← readPieces rest
      return (.char c :: pieces, rest)

/-- The characters of some pieces.  A surrogate unit needs its other half right beside it. -/
def join? : List Piece → Option (List Char)
  | [] => some []
  | .char c :: rest => (join? rest).map (c :: ·)
  | .unit n :: rest =>
    if n < 0xd800 ∨ 0xe000 ≤ n then (join? rest).map (Char.ofNat n :: ·)
    else if 0xdc00 ≤ n then none
    else match rest with
      | .unit m :: rest =>
        if 0xdc00 ≤ m ∧ m < 0xe000 then
          (join? rest).map (Char.ofNat (0x10000 + (n - 0xd800) * 0x400 + (m - 0xdc00)) :: ·)
        else none
      | _ => none

/-- A string after its opening quote. -/
def readString (input : List Char) : Option (Option String × List Char) := do
  let (pieces, rest) ← readPieces input
  return ((join? pieces).map String.ofList, rest)

/-! ### Numbers -/

/-- The values of the leading decimal digits of a text, and the rest. -/
def spanDigits (input : List Char) : List Nat × List Char :=
  let (digits, rest) := input.span Char.isDigit
  (digits.map fun c => c.toNat - '0'.toNat, rest)

/-- The digits before the point: a single zero, or digits that do not begin with zero. -/
def readWhole (input : List Char) : Option (List Nat × List Char) :=
  match input with
  | '0' :: rest => if rest.head?.any Char.isDigit then none else some ([0], rest)
  | _ =>
    let (digits, rest) := spanDigits input
    if digits.isEmpty then none else some (digits, rest)

/-- The digits after the point, if there is one. -/
def readFraction : List Char → Option (List Nat × List Char)
  | '.' :: rest =>
    let (digits, rest) := spanDigits rest
    if digits.isEmpty then none else some (digits, rest)
  | input => some ([], input)

/-- The exponent, if there is one. -/
def readExponent (input : List Char) : Option (Int × List Char) :=
  match input with
  | c :: rest =>
    if c = 'e' ∨ c = 'E' then
      let (negative, rest) := match rest with
        | '-' :: rest => (true, rest)
        | '+' :: rest => (false, rest)
        | _ => (false, rest)
      let (digits, rest) := spanDigits rest
      if digits.isEmpty then none
      else
        let n : Int := Decimal.ofDigits digits
        some (if negative then -n else n, rest)
    else some (0, input)
  | [] => some (0, input)

/-- A number. -/
def readNumeral (input : List Char) : Option (Numeral × List Char) := do
  let (negative, input) := match input with
    | '-' :: rest => (true, rest)
    | _ => (false, input)
  let (whole, input) ← readWhole input
  let (fraction, input) ← readFraction input
  let (exponent, input) ← readExponent input
  return (⟨negative, whole, fraction, exponent⟩, input)

/-! ### Documents -/

/-- Whether a character may stand between the parts of a document. -/
def isSpace (c : Char) : Bool := c == ' ' || c == '\n' || c == '\t' || c == '\r'

/-- The text without the blanks at its beginning. -/
def skip (input : List Char) : List Char := input.dropWhile isSpace

/-- A text after a given beginning. -/
def after? : List Char → List Char → Option (List Char)
  | [], rest => some rest
  | c :: word, d :: rest => if c = d then after? word rest else none
  | _ :: _, [] => none

mutual

/-- A value.  Each call has one unit of `fuel` less than its caller. -/
def readValue : Nat → List Char → Option (Json × List Char)
  | 0, _ => none
  | fuel + 1, input =>
    match skip input with
    | 'n' :: rest => (after? "ull".toList rest).map fun rest => (null, rest)
    | 't' :: rest => (after? "rue".toList rest).map fun rest => (bool true, rest)
    | 'f' :: rest => (after? "alse".toList rest).map fun rest => (bool false, rest)
    | '"' :: rest => (readString rest).map fun (s, rest) => (text s, rest)
    | '[' :: rest =>
      match skip rest with
      | ']' :: rest => some (array [], rest)
      | rest => (readItems fuel rest).map fun (items, rest) => (array items, rest)
    | '\x7b' :: rest =>
      match skip rest with
      | '\x7d' :: rest => some (object [], rest)
      | rest => (readMembers fuel rest).map fun (members, rest) => (object members, rest)
    | input => (readNumeral input).map fun (n, rest) => (number n, rest)

/-- The remaining items of an array, up to its closing bracket. -/
def readItems : Nat → List Char → Option (List Json × List Char)
  | 0, _ => none
  | fuel + 1, input => do
    let (item, rest) ← readValue fuel input
    match skip rest with
    | ']' :: rest => return ([item], rest)
    | ',' :: rest =>
      let (items, rest) ← readItems fuel rest
      return (item :: items, rest)
    | _ => none

/-- The remaining members of an object, up to its closing brace. -/
def readMembers : Nat → List Char → Option (List (Option String × Json) × List Char)
  | 0, _ => none
  | fuel + 1, input => do
    let '"' :: rest := skip input | none
    let (key, rest) ← readString rest
    let ':' :: rest := skip rest | none
    let (value, rest) ← readValue fuel rest
    match skip rest with
    | '\x7d' :: rest => return ([(key, value)], rest)
    | ',' :: rest =>
      let (members, rest) ← readMembers fuel rest
      return ((key, value) :: members, rest)
    | _ => none

end

/-- Reads a text as one document. -/
def read? (input : String) : Option Json := do
  let chars := input.toList
  let (value, rest) ← readValue (2 * chars.length + 2) chars
  if (skip rest).isEmpty then return value else none

end Json

end Influence
