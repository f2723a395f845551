import MailMerge.Text.Blank
import MailMerge.Text.Cut

/-!
# Markers

A template asks for data with markers in its text. There are two kinds, one
for a stretch of text and one for a table, and they differ in one word:

    <# <Content Select="./Applicant/Name" /> #>
    <# <Table Select="./Incomes" /> #>

Blanks may stand between the parts. They have to stand between the first word
and `Select`, and they may not stand inside `<#`, `/>` or `#>`. The path stands
between two quotes, which may be of different sorts, and holds no line break. It
ends at the first quote behind which the marker can be finished, so a quote
alone does not end it, and a path may even hold the beginning of another marker.

Of two ways to read a text the earlier marker wins, and a marker's text belongs
to it alone. This is what cutting a text into finds gives. A marker remembers
where it stood, in bytes, and the exact text it covered. That text, its literal,
is what a merge replaces.

## Main definitions

* `Marker`, `Marker.Kind`: A marker found in a text.
* `Marker.recognise`: Whether a marker begins where a text begins.
* `scan`: All markers of a kind in a text.
* `Marker.occurs`, `hasMarkers`: Whether there are any, of a kind or of either kind.
* `Marker.distinct`: The first marker of each literal.

## Theorems

* `quote?_eq_some_iff`: A quote takes one character.
* `kind_of_mem_scan`: A scan finds markers of the kind it was asked for.
* `hasMarkers_eq_false_iff`: A text holds no marker when neither scan finds one.
* `map_literal_distinct`, `nodup_literal_distinct`: Each literal is kept once.
-/

namespace MailMerge

namespace Marker

/-- What a marker asks for. -/
inductive Kind where
  | content
  | table
deriving DecidableEq, Repr

/-- The word that tells the kind of a marker. -/
def Kind.word : Kind → String
  | .content => "Content"
  | .table => "Table"

end Marker

/-- A marker found in a text: the text it covers, the path it names as it was
    typed, and the bytes from `start` to `stop` where it stood. -/
structure Marker where
  kind : Marker.Kind
  literal : String
  path : String
  start : Nat
  stop : Nat
deriving DecidableEq, Repr

namespace Marker

open Text (dropBlank strip?)

/-- What is left behind a quote of either sort. -/
def quote? : List Char → Option (List Char)
  | c :: t => if c = '"' ∨ c = '\'' then some t else none
  | [] => none

/-- What is left behind one blank or more. -/
def blanks? : List Char → Option (List Char)
  | c :: t => if Text.isBlank c then some (dropBlank t) else none
  | [] => none

/-- What is left behind the beginning of a marker, the first quote included. -/
def opening? (kind : Kind) (t : List Char) : Option (List Char) := do
  let t ← strip? ['<', '#'] t
  let t ← strip? ('<' :: kind.word.toList) (dropBlank t)
  let t ← blanks? t
  let t ← strip? "Select".toList t
  let t ← strip? ['='] (dropBlank t)
  quote? (dropBlank t)

/-- What is left behind the end of a marker, from the last quote on. -/
def closing? (t : List Char) : Option (List Char) := do
  let t ← quote? t
  let t ← strip? ['/', '>'] (dropBlank t)
  strip? ['#', '>'] (dropBlank t)

/-- The path that a text begins with, up to the first place where the marker
    can end, and what is left behind that end. -/
def path? : List Char → Option (List Char × List Char)
  | [] => none
  | c :: t => match closing? (c :: t) with
    | some rest => some ([], rest)
    | none =>
      if c = '\n' then none
      else (path? t).map fun (path, rest) => (c :: path, rest)

/-- Finds a marker of a kind, its value being its path. -/
def recognise (kind : Kind) (t : List Char) : Option (Text.Find (List Char)) := do
  let (path, rest) ← path? (← opening? kind t)
  return ⟨path, t.length - rest.length - 1⟩

/-- The finds among pieces as markers, the first piece standing at byte
    `offset`. -/
def ofPieces (kind : Kind) : (offset : Nat) → List (Text.Piece (List Char)) → List Marker
  | _, [] => []
  | offset, .plain c :: rest => ofPieces kind (offset + c.utf8Size) rest
  | offset, .find text path :: rest =>
      let stop := offset + Text.byteLength text
      ⟨kind, String.ofList text, String.ofList path, offset, stop⟩ :: ofPieces kind stop rest

/-- Whether a marker of a kind begins anywhere in a text. -/
def occurs (kind : Kind) : List Char → Bool
  | [] => false
  | c :: t => (recognise kind (c :: t)).isSome || occurs kind t

/-- Cutting a text makes a find if a marker occurs. The first place where one begins cannot
    have been taken by a find, as there is none before it. -/
theorem ofPieces_cut_eq_nil_iff {kind : Kind} {offset : Nat} {t : List Char} :
    ofPieces kind offset (Text.cut (recognise kind) 0 t) = [] ↔ occurs kind t = false := by
  induction t generalizing offset with
  | nil => exact ⟨fun _ => rfl, fun _ => rfl⟩
  | cons c t ih =>
      rw [Text.cut, occurs]
      cases recognise kind (c :: t) with
      | some f => exact ⟨fun h => absurd h (List.cons_ne_nil _ _), fun h => absurd h.symm
          Bool.false_ne_true⟩
      | none => rw [ofPieces, ih, Option.isSome_none, Bool.false_or]

/-- The first marker of each literal. -/
def distinct : List Marker → List Marker
  | [] => []
  | m :: rest => m :: (distinct rest).filter fun other => other.literal ≠ m.literal

/-- Markers are only left out, and stay in order. -/
theorem distinct_sublist (l : List Marker) : (distinct l).Sublist l := by
  induction l with
  | nil => exact List.Sublist.refl []
  | cons m l ih => exact (List.filter_sublist.trans ih).cons_cons m

/-- A marker that is kept was there. -/
theorem mem_of_mem_distinct {m : Marker} {l : List Marker} (h : m ∈ distinct l) : m ∈ l :=
  (distinct_sublist l).subset h

-- By induction for all ways to leave out literals, as each marker leaves out its own.
theorem map_literal_filter_distinct (l : List Marker) (p : String → Bool) :
    ((distinct l).filter fun m => p m.literal).map literal =
      ((l.map literal).filter p).eraseDups := by
  induction l generalizing p with
  | nil => rfl
  | cons m l ih =>
      have hrest := ih fun t => p t && !t == m.literal
      have hfilter : ((distinct l).filter fun other => p other.literal &&
          decide (other.literal ≠ m.literal)) = (distinct l).filter fun other =>
            p other.literal && !other.literal == m.literal := by
        congr 1
        funext other
        exact congrArg (p other.literal && ·) decide_not
      rw [distinct, List.map_cons, List.filter_cons, List.filter_cons, List.filter_filter, hfilter]
      split
      · rw [List.map_cons, hrest, List.eraseDups_cons, List.filter_filter]
        congr 3
        funext t
        exact Bool.and_comm _ _
      · -- The literal of the marker is left out already.
        next hp =>
          rw [hrest]
          congr 2
          funext t
          cases ht : t == m.literal with
          | false => rw [Bool.not_false, Bool.and_true]
          | true => rw [Bool.not_true, Bool.and_false, eq_of_beq ht, eq_false_of_ne_true hp]

/-- The literals that are kept: each of them once, in the order in which they first stand. -/
theorem map_literal_distinct (l : List Marker) :
    (distinct l).map literal = (l.map literal).eraseDups := by
  have h := map_literal_filter_distinct l fun _ => true
  rwa [List.filter_eq_self.mpr fun _ _ => rfl, List.filter_eq_self.mpr fun _ _ => rfl] at h

/-- No literal is kept twice. -/
theorem nodup_literal_distinct (l : List Marker) : ((distinct l).map literal).Nodup := by
  induction l with
  | nil => exact List.nodup_nil
  | cons m l ih =>
      rw [distinct, List.map_cons, List.nodup_cons]
      refine ⟨?_, (List.filter_sublist.map literal).nodup ih⟩
      intro h
      obtain ⟨other, ho, he⟩ := List.mem_map.mp h
      simp only [List.mem_filter, decide_eq_true_eq] at ho
      exact ho.2 he

/-- A quote takes one character. -/
theorem quote?_eq_some_iff {t rest : List Char} :
    quote? t = some rest ↔ t = '"' :: rest ∨ t = '\'' :: rest := by
  cases t with
  | nil => simp only [quote?, reduceCtorEq, or_self]
  | cons c t =>
      by_cases h : c = '"' ∨ c = '\''
      · simp only [quote?, h, if_true, Option.some.injEq, List.cons.injEq]
        rcases h with rfl | rfl <;>
          simp only [true_and, Char.reduceEq, false_and, or_false, false_or]
      · simp only [quote?, h, if_false, reduceCtorEq, List.cons.injEq, false_iff]
        intro h'
        exact h (h'.imp And.left And.left)

theorem kind_of_mem_ofPieces {kind : Kind} {m : Marker} {offset : Nat}
    {l : List (Text.Piece (List Char))} (h : m ∈ ofPieces kind offset l) : m.kind = kind := by
  induction l generalizing offset with
  | nil => exact absurd h List.not_mem_nil
  | cons p l ih =>
      cases p with
      | plain c => exact ih h
      | find text path =>
          rcases List.mem_cons.mp h with rfl | h
          · rfl
          · exact ih h

end Marker

/-- All markers of a kind in a text, from left to right. -/
def scan (kind : Marker.Kind) (text : String) : List Marker :=
  Marker.ofPieces kind 0 (Text.pieces (Marker.recognise kind) text.toList)

/-- Whether a text holds a marker of either kind. Nothing is cut to find this out. -/
def hasMarkers (text : String) : Bool :=
  Marker.occurs .content text.toList || Marker.occurs .table text.toList

/-- A text holds no marker when neither scan finds one. -/
theorem hasMarkers_eq_false_iff {text : String} :
    hasMarkers text = false ↔ scan .content text = [] ∧ scan .table text = [] := by
  rw [hasMarkers, Bool.or_eq_false_iff, scan, scan, Text.pieces, Text.pieces,
    Marker.ofPieces_cut_eq_nil_iff, Marker.ofPieces_cut_eq_nil_iff]

/-- A scan finds markers of the kind it was asked for. -/
theorem kind_of_mem_scan {kind : Marker.Kind} {text : String} {m : Marker}
    (h : m ∈ scan kind text) : m.kind = kind :=
  Marker.kind_of_mem_ofPieces h

end MailMerge
