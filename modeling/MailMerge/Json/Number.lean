/-!
# Numbers in JSON

The grammar of JSON numbers, and which of them denote a number at all.

A numeral is refused when its magnitude is beyond the largest finite number of
the 64-bit floating point format. How a numeral is brought into that format
decides the borderline, so it is stated here in whole numbers: as many digits
as fit go into an unsigned 64-bit significand, the digits left out of the whole
part and the written exponent make up a power of ten, and significand and power
are each brought to 53 significant bits before they are multiplied. The product
is out of range when it would be rounded up past the largest finite number. A
power beyond 10^308 is out of range whatever it multiplies, except zero.

## Main definitions

* `Numeral`, `numeral?`: A number as written, and its grammar.
* `pack`: Collecting digits in a significand of 64 bits.
* `roundTo53`: The nearest number of 53 significant bits.
* `Numeral.inRange`: Whether a numeral denotes a number.

## Theorems

* `pack_lt`: The significand fits in 64 bits.
* `roundTo53_eq_self`: Rounding leaves a number of 53 bits as it is.
-/

namespace MailMerge

namespace Json

/-- The parts of a number as written: the digits of its whole part, those of
    its fraction, and its exponent. The sign plays no part in its range. -/
structure Numeral where
  whole : List Nat
  fraction : List Nat
  exponent : Int
deriving DecidableEq, Repr

/-- The digits that a text begins with, and what is left of it. -/
def digits (t : List Char) : List Nat × List Char :=
  ((t.takeWhile Char.isDigit).map fun c => c.toNat - '0'.toNat, t.dropWhile Char.isDigit)

/-- The whole part that a text begins with. It has no needless zero in
    front. -/
def wholePart? (t : List Char) : Option (List Nat × List Char) :=
  match digits t with
  | ([], _) | (0 :: _ :: _, _) => none
  | r => some r

/-- The fraction that a text begins with, none if there is no point. -/
def fractionPart? : List Char → Option (List Nat × List Char)
  | '.' :: t => match digits t with
    | ([], _) => none
    | r => some r
  | t => some ([], t)

/-- The sign that a text begins with, true for a minus, and what is left. -/
def sign : List Char → Bool × List Char
  | '-' :: t => (true, t)
  | '+' :: t => (false, t)
  | t => (false, t)

/-- The exponent that a text begins with, zero if there is none. -/
def exponentPart? : List Char → Option (Int × List Char)
  | c :: t =>
      if c = 'e' ∨ c = 'E' then
        let (negative, t) := sign t
        match digits t with
        | ([], _) => none
        | (ds, rest) =>
            let value : Nat := ds.foldl (fun n d => n * 10 + d) 0
            some (if negative then -(value : Int) else value, rest)
      else some (0, c :: t)
  | [] => some (0, [])

/-- Reads a text as a number of JSON's grammar. -/
def numeral? (t : List Char) : Option Numeral := do
  let t := match t with
    | '-' :: t => t
    | t => t
  let (whole, t) ← wholePart? t
  let (fraction, t) ← fractionPart? t
  let (exponent, t) ← exponentPart? t
  if t.isEmpty then some ⟨whole, fraction, exponent⟩ else none

/-- Collects digits behind a significand as long as it fits in 64 bits.
    Returns it with the digits left out. -/
def pack : (significand : Nat) → List Nat → Nat × List Nat
  | s, [] => (s, [])
  | s, d :: ds => if s * 10 + d < Nat.pow 2 64 then pack (s * 10 + d) ds else (s, d :: ds)

/-- The significand fits in 64 bits. -/
theorem pack_lt {s : Nat} (ds : List Nat) (h : s < Nat.pow 2 64) :
    (pack s ds).1 < Nat.pow 2 64 := by
  induction ds generalizing s with
  | nil => exact h
  | cons d ds ih =>
      simp only [pack]
      split
      · next hd => exact ih hd
      · exact h

/-- The nearest number of 53 significant bits, of two equally near ones the
    one whose last bit is zero. -/
def roundTo53 (n : Nat) : Nat :=
  if n < Nat.pow 2 53 then n
  else
    let unit := Nat.pow 2 (n.log2 - 52)
    let q := n / unit
    let r := n % unit
    if 2 * r < unit ∨ (2 * r = unit ∧ q % 2 = 0) then q * unit else (q + 1) * unit

/-- Rounding leaves a number of 53 bits as it is. -/
theorem roundTo53_eq_self {n : Nat} (h : n < Nat.pow 2 53) : roundTo53 n = n := by
  simp only [roundTo53, h, if_true]

/-- The least product that is rounded up past the largest finite number. -/
def outOfRange : Nat := Nat.pow 2 1024 - Nat.pow 2 970

/-- Whether a numeral denotes a number. -/
def Numeral.inRange (n : Numeral) : Bool :=
  let (s, beyond) := pack 0 n.whole
  let (s, unused) := pack s n.fraction
  let scale : Int := beyond.length + unused.length - n.fraction.length + n.exponent
  s = 0 || scale < 0 ||
    (scale ≤ 308 && roundTo53 s * roundTo53 (Nat.pow 10 scale.toNat) < outOfRange)

end Json

end MailMerge
