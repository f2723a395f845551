/-!
# Blank Characters

The characters that count as blank space wherever a template author may have
typed them: around a marker's keywords, inside a path, at the ends of a text.

The set is the Unicode property White_Space, which has twenty-five members.
It is wider than the four blanks of XML and of JSON, which have their own
tests beside the grammars that use them, and wider than `Char.isWhitespace`,
which knows ASCII only. Zero-width characters are not in it: U+200B and U+FEFF
look like nothing and are text all the same.

Texts are taken apart as lists of characters, and glued together again as
strings at the edges.

## Main definitions

* `isBlank`: Membership in White_Space.
* `dropBlank`, `trim`: Removing blanks at one end or at both.
* `deleteBlank`: Removing blanks everywhere.
* `trimmed`, `isBlankText`: The same tests and cuts on strings.

## Theorems

* `isBlank_of_isWhitespace`: The ASCII blanks of the core library are blank.
* `dropBlank_dropBlank`: Nothing blank is left in front.
* `deleteBlank_eq_self`: A text without blanks is left as it is.
-/

namespace MailMerge

namespace Text

/-- The ranges of code points with the Unicode property White_Space, both
    ends included. -/
def blankRanges : List (Nat × Nat) :=
  [(0x9, 0xD), (0x20, 0x20), (0x85, 0x85), (0xA0, 0xA0), (0x1680, 0x1680),
   (0x2000, 0x200A), (0x2028, 0x2029), (0x202F, 0x202F), (0x205F, 0x205F),
   (0x3000, 0x3000)]

/-- A character is blank when its code point lies in one of the ranges. -/
def isBlank (c : Char) : Bool :=
  blankRanges.any fun r => decide (r.1 ≤ c.toNat ∧ c.toNat ≤ r.2)

theorem isBlank_of_isWhitespace (c : Char) (h : c.isWhitespace = true) : isBlank c = true := by
  simp only [Char.isWhitespace, Bool.or_eq_true, decide_eq_true_eq] at h
  rcases h with ((h | h) | h) | h <;> subst h <;> decide

/-- What is left of a text after the blanks it begins with. -/
def dropBlank (t : List Char) : List Char := t.dropWhile isBlank

theorem dropBlank_dropBlank (t : List Char) : dropBlank (dropBlank t) = dropBlank t := by
  induction t with
  | nil => rfl
  | cons c t ih =>
      by_cases h : isBlank c = true
      · simpa only [dropBlank, List.dropWhile_cons, h, if_true] using ih
      · simp only [dropBlank, List.dropWhile_cons, h, if_false, Bool.false_eq_true]

/-- A text without the blanks at its two ends. -/
def trim (t : List Char) : List Char := (dropBlank (dropBlank t).reverse).reverse

/-- A text without any of its blanks. -/
def deleteBlank (t : List Char) : List Char := t.filter fun c => !isBlank c

theorem deleteBlank_eq_self {t : List Char} (h : ∀ c ∈ t, isBlank c = false) :
    deleteBlank t = t := by
  simp only [deleteBlank, List.filter_eq_self]
  intro c hc
  rw [h c hc, Bool.not_false]

/-- A string without the blanks at its two ends. -/
def trimmed (s : String) : String := String.ofList (trim s.toList)

/-- Whether a string holds nothing but blanks. -/
def isBlankText (s : String) : Bool := s.toList.all isBlank

end Text

end MailMerge
