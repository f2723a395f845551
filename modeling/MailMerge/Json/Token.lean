import MailMerge.Text.Cut
import MailMerge.Json.Value
import MailMerge.Json.Number

/-!
# The Lexemes of JSON

A JSON text is a sequence of lexemes with blanks between them: six marks of
punctuation, strings, and words. A word is as long a run of letters, digits,
signs and points as there is, and it has to be one of `null`, `true` and
`false` or a number. No two words and no two strings can follow each other in
JSON without punctuation between them, so taking words as long as possible
accepts neither more nor less.

A string is a list of letters, which stand for themselves or are coded by four
hexadecimal digits. The digits give a unit of UTF-16, and two of them may be
needed for one character. Half of such a pair denotes nothing.

The text is cut with a recogniser of lexemes, and what is passed over must be
blank. The blanks of JSON are four.

## Main definitions

* `Letter`, `letters?`: The letters of a string, up to its closing mark.
* `decode?`: The characters that letters denote.
* `Token`, `token?`: A lexeme, and the recogniser of lexemes.
* `tokens?`: The lexemes of a text.

## Theorems

* `decode?_map_plain`: Letters that stand for themselves denote themselves.
-/

namespace MailMerge

namespace Json

/-- The four characters that JSON counts as blanks. -/
def isSpace (c : Char) : Bool := c = ' ' || c = '\t' || c = '\n' || c = '\r'

/-- The value of a hexadecimal digit. -/
def hexDigit? (c : Char) : Option Nat :=
  if c.isDigit then some (c.toNat - '0'.toNat)
  else if 'a' ≤ c ∧ c ≤ 'f' then some (c.toNat - 'a'.toNat + 10)
  else if 'A' ≤ c ∧ c ≤ 'F' then some (c.toNat - 'A'.toNat + 10)
  else none

/-- A letter of a string: a character, or a unit of UTF-16 given by its
    code. -/
inductive Letter where
  | plain (c : Char)
  | coded (unit : Nat)
deriving DecidableEq, Repr

/-- The unit that four hexadecimal digits give. -/
def unit? (a b c d : Char) : Option Nat := do
  let a ← hexDigit? a
  let b ← hexDigit? b
  let c ← hexDigit? c
  let d ← hexDigit? d
  return ((a * 16 + b) * 16 + c) * 16 + d

/-- The character that stands for a letter behind a backslash. -/
def escaped? : Char → Option Char
  | '"' => some '"'
  | '\\' => some '\\'
  | '/' => some '/'
  | 'b' => some '\x08'
  | 'f' => some '\x0C'
  | 'n' => some '\n'
  | 'r' => some '\r'
  | 't' => some '\t'
  | _ => none

/-- The letters of a string up to its closing mark, and how many characters
    they and the mark take. Control characters may not stand for themselves. -/
def letters? : List Char → Option (List Letter × Nat)
  | [] => none
  | '"' :: _ => some ([], 1)
  | '\\' :: 'u' :: a :: b :: c :: d :: t => do
      let unit ← unit? a b c d
      let (rest, count) ← letters? t
      return (.coded unit :: rest, count + 6)
  | '\\' :: c :: t => do
      let letter ← escaped? c
      let (rest, count) ← letters? t
      return (.plain letter :: rest, count + 2)
  | c :: t => do
      if c.toNat < 0x20 then none
      let (rest, count) ← letters? t
      return (.plain c :: rest, count + 1)

/-- Whether a unit is the first half of a surrogate pair. -/
def isHigh (unit : Nat) : Bool := 0xD800 ≤ unit && unit < 0xDC00

/-- Whether a unit is the second half of a surrogate pair. -/
def isLow (unit : Nat) : Bool := 0xDC00 ≤ unit && unit < 0xE000

/-- The character of a surrogate pair. -/
def pair (high low : Nat) : Char :=
  Char.ofNat (0x10000 + (high - 0xD800) * 0x400 + (low - 0xDC00))

/-- The characters that letters denote, unless half of a surrogate pair is
    among them. -/
def decode? : List Letter → Option (List Char)
  | [] => some []
  | .plain c :: rest => (decode? rest).map (c :: ·)
  | .coded unit :: rest =>
      if isHigh unit then
        match rest with
        | .coded low :: rest =>
            if isLow low then (decode? rest).map (pair unit low :: ·) else none
        | _ => none
      else if isLow unit then none
      else (decode? rest).map (Char.ofNat unit :: ·)

/-- Letters that stand for themselves denote themselves. -/
theorem decode?_map_plain (t : List Char) : decode? (t.map .plain) = some t := by
  induction t with
  | nil => rfl
  | cons c t ih => simp only [List.map_cons, decode?, ih, Option.map_some]

/-- A lexeme. The characters of a string are missing if it denotes none. -/
inductive Token where
  | openArray
  | closeArray
  | openObject
  | closeObject
  | comma
  | colon
  | word (v : Json)
  | string (s : Option String)

/-- Whether a character may stand in a word. -/
def isWordChar (c : Char) : Bool := c.isAlphanum || c = '+' || c = '-' || c = '.'

/-- The value that a word denotes. -/
def word? (t : List Char) : Option Json :=
  match String.ofList t with
  | "null" => some .null
  | "true" => some (.bool true)
  | "false" => some (.bool false)
  | literal => (numeral? t).map fun n => if n.inRange then .number literal else .unreadable

/-- Recognises a lexeme. -/
def token? : List Char → Option (Text.Find Token)
  | [] => none
  | '[' :: _ => some ⟨.openArray, 0⟩
  | ']' :: _ => some ⟨.closeArray, 0⟩
  | '\x7b' :: _ => some ⟨.openObject, 0⟩
  | '\x7d' :: _ => some ⟨.closeObject, 0⟩
  | ',' :: _ => some ⟨.comma, 0⟩
  | ':' :: _ => some ⟨.colon, 0⟩
  | '"' :: t => (letters? t).map fun (letters, count) =>
      ⟨.string ((decode? letters).map String.ofList), count⟩
  | t =>
      let word := t.takeWhile isWordChar
      (word? word).map fun v => ⟨.word v, word.length - 1⟩

/-- The lexemes among the pieces of a text, if all that is between them is
    blank. -/
def gather? : List (Text.Piece Token) → Option (List Token)
  | [] => some []
  | .plain c :: rest => if isSpace c then gather? rest else none
  | .find _ token :: rest => (gather? rest).map (token :: ·)

/-- The lexemes of a text. -/
def tokens? (t : List Char) : Option (List Token) := gather? (Text.pieces token? t)

end Json

end MailMerge
