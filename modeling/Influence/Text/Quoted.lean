import Influence.Text.Hidden

/-! # Quoted texts

Two ways to write a text between double quotes.  In both, a quote and a backslash inside the text
stand behind a backslash, as do the usual letters for line ends and tabs.

* `json` writes other control characters with four hexadecimal digits and all else as it is.
* `listing` writes hidden characters with their code point between braces. -/

namespace Influence.Text

/-- A number in lower-case hexadecimal digits. -/
def hex (n : Nat) : String := String.ofList (Nat.toDigits 16 n)

/-- A character inside a string of a JSON document. -/
def jsonChar (c : Char) : String :=
  match c with
  | '"' => "\\\""
  | '\\' => "\\\\"
  | '\x08' => "\\b"
  | '\x0c' => "\\f"
  | '\n' => "\\n"
  | '\r' => "\\r"
  | '\t' => "\\t"
  | _ =>
    if c < ' ' then
      let digits := hex c.toNat
      "\\u" ++ "".pushn '0' (4 - digits.length) ++ digits
    else c.toString

/-- A text as a string of a JSON document. -/
def json (text : String) : String := "\"" ++ String.join (text.toList.map jsonChar) ++ "\""

/-- A character inside a string of a listing. -/
def listingChar (c : Char) : String :=
  match c with
  | '"' => "\\\""
  | '\\' => "\\\\"
  | '\n' => "\\n"
  | '\r' => "\\r"
  | '\t' => "\\t"
  | '\x00' => "\\0"
  | _ => if isHidden c then "\\u\x7b" ++ hex c.toNat ++ "\x7d" else c.toString

/-- A text as a string of a listing. -/
def listing (text : String) : String := "\"" ++ String.join (text.toList.map listingChar) ++ "\""

end Influence.Text
