/-! # Blank characters

`isBlank` tells the characters with the Unicode property White_Space, and `trim` drops them from
both ends of a text.  The property holds for 25 characters, which `blankRanges` lists. -/

namespace Influence.Text

/-- The ranges of code points with the Unicode property White_Space, ends included. -/
def blankRanges : List (Nat × Nat) :=
  [(0x9, 0xd), (0x20, 0x20), (0x85, 0x85), (0xa0, 0xa0), (0x1680, 0x1680), (0x2000, 0x200a),
   (0x2028, 0x2029), (0x202f, 0x202f), (0x205f, 0x205f), (0x3000, 0x3000)]

/-- Whether a character is blank. -/
def isBlank (c : Char) : Bool :=
  blankRanges.any fun (first, last) => first ≤ c.toNat && c.toNat ≤ last

/-- The text without the blank characters at its two ends. -/
def trim (text : String) : String :=
  String.ofList (((text.toList.dropWhile isBlank).reverse.dropWhile isBlank).reverse)

/-- The table holds 25 characters. -/
example : (blankRanges.map fun (first, last) => last + 1 - first).sum = 25 := by decide

end Influence.Text
