import MailMerge.Text.Cut
import MailMerge.Xml.Fault

/-!
# References in Character Data

The five named references of XML and the numeric ones, and the resolving of
all references in a text.

A reference begins at an ampersand and runs to the next semicolon, and no
further ampersand may stand in between. What is between them is a name or,
behind a number sign, a number: decimal, or hexadecimal behind a lower-case
`x`. The number must fit in 32 bits and be the code of a character. Digits are
looked at one by one, so of two faults in a number the one further left is
reported.

Resolving is a single walk over the text. Its state is the reference that is
being collected, if one is: where its ampersand stood, and its characters so
far.

## Main definitions

* `named?`: The characters of the named references.
* `characterOf`: The character of a numeric reference.
* `unescape`: A text with its references resolved.

## Theorems

* `unescape_eq_self`: A text without ampersands stands for itself.
-/

namespace MailMerge

namespace Xml

/-- The character that a named reference stands for. -/
def named? (name : List Char) : Option Char :=
  match String.ofList name with
  | "lt" => some '<'
  | "gt" => some '>'
  | "amp" => some '&'
  | "apos" => some '\''
  | "quot" => some '"'
  | _ => none

/-- The value of a character as a digit in a base of at most sixteen. -/
def digit? (base : Nat) (c : Char) : Option Nat :=
  let value :=
    if c.isDigit then c.toNat - '0'.toNat
    else if 'a' ≤ c ∧ c ≤ 'f' then c.toNat - 'a'.toNat + 10
    else if 'A' ≤ c ∧ c ≤ 'F' then c.toNat - 'A'.toNat + 10
    else base
  if value < base then some value else none

/-- Reads digits on behind a number that was already read, as long as the
    result fits in 32 bits. -/
def readDigits (base : Nat) : (value : Nat) → List Char → Except ReferenceFault Nat
  | value, [] => .ok value
  | value, c :: t => match digit? base c with
    | none => .error .badDigit
    | some d =>
        if value * base + d < Nat.pow 2 32 then readDigits base (value * base + d) t
        else .error .tooLarge

/-- Reads an unsigned number. -/
def readNumber (base : Nat) : List Char → Except ReferenceFault Nat
  | [] => .error .noDigits
  | '+' :: _ | '-' :: _ => .error .sign
  | digits => readDigits base 0 digits

/-- The character with a code. Zero is the code of a character that XML does
    not permit. -/
def characterOfCode (code : Nat) : Except ReferenceFault Char :=
  if code = 0 then .error .null
  else if code.isValidChar then .ok (Char.ofNat code)
  else .error (.notScalar code)

/-- The character that a numeric reference stands for, given what follows its
    number sign. -/
def characterOf : List Char → Except ReferenceFault Char
  | 'x' :: hex => readNumber 16 hex >>= characterOfCode
  | decimal => readNumber 10 decimal >>= characterOfCode

/-- The character that a reference stands for, given what stands between its
    ampersand and its semicolon, and the places of the two ends. -/
def resolve (start stop : Nat) (name : List Char) : Except EscapeFault Char :=
  match name with
  | '#' :: number => (characterOf number).mapError .badReference
  | _ => match named? name with
    | some c => .ok c
    | none => .error (.unknownEntity start stop (String.ofList name))

/-- Resolves the references in what is left of a text of `size` bytes.
    `pending` is the reference being collected: where its ampersand stands, and
    its characters so far, the last one first. -/
def unescapeFrom (size : Nat) : (offset : Nat) → (pending : Option (Nat × List Char)) →
    List Char → Except EscapeFault (List Char)
  | _, none, [] => .ok []
  | _, some (start, _), [] => .error (.unterminated start size)
  | offset, none, c :: t =>
      if c = '&' then unescapeFrom size (offset + 1) (some (offset, [])) t
      else (unescapeFrom size (offset + c.utf8Size) none t).map (c :: ·)
  | offset, some (start, name), c :: t =>
      if c = '&' then .error (.unterminated start size)
      else if c = ';' then do
        let character ← resolve (start + 1) offset name.reverse
        let rest ← unescapeFrom size (offset + 1) none t
        return character :: rest
      else unescapeFrom size (offset + c.utf8Size) (some (start, c :: name)) t

/-- A text with its references resolved. -/
def unescape (t : List Char) : Except EscapeFault (List Char) :=
  unescapeFrom (Text.byteLength t) 0 none t

theorem unescapeFrom_eq_self {size offset : Nat} {t : List Char} (h : '&' ∉ t) :
    unescapeFrom size offset none t = .ok t := by
  induction t generalizing offset with
  | nil => rfl
  | cons c t ih =>
      simp only [List.mem_cons, not_or] at h
      simp only [unescapeFrom, Ne.symm h.1, if_false, ih h.2]
      rfl

/-- A text without ampersands stands for itself. -/
theorem unescape_eq_self {t : List Char} (h : '&' ∉ t) : unescape t = .ok t :=
  unescapeFrom_eq_self h

end Xml

end MailMerge
