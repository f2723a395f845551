import MailMerge.Proofs.Reporting
import MailMerge.Proofs.Tidy

/-!
# Stretches between Tables

A split does not ask where the markers of a text stood. It takes their literals, each of
them once and in the order in which they first stand, and looks every one up as mere text,
behind the place where it found the one before. A literal may well hold another one, since a
path may hold the beginning of a marker, so a lookup may hit upon a place that is no marker of
the scan.

It never hits upon a place too far behind. The literals stand in the text one behind the
other, at the places where the scan first found them. As a lookup takes the first occurrence, it
finds its literal at that place or earlier, and what it leaves behind it holds all that stands
behind that place. So the further literals are still to come, no lookup fails, and the text is
cut into as many stretches as there are literals, and one more.

All that a split does is then told by these stretches: it keeps each of them in its place, as a
paragraph of its own unless it is blank, and puts one table in the place of each literal.

## Main definitions

* `stretches?`: A text cut at some literals, each looked up behind the one before.
* `StandInOrder`: Literals that stand in a text one behind the other.
* `Marker.due`: The table that is due for a marker.

## Theorems

* `exists_splitAtFirst?`: A literal is found no later than where it is known to stand.
* `StandInOrder.exists_stretches?`: Literals that stand in order are all found.
* `standInOrder_of_sublist`: The literals of a scan stand in order, also when some are left out.
* `splitAround_effect`: What a split gives and reports.
-/

namespace MailMerge

open Text (splitAtFirst? strip? strip?_eq_some_iff)

/-- A text cut at some literals: what stands before the first of them, and what stands behind
    each of them up to the next. Each is looked up behind the one before, and may be missing. -/
def stretches? : (rest : List Char) → List String → Option (List Char × List (List Char))
  | rest, [] => some (rest, [])
  | rest, literal :: literals => do
      let (before, behind) ← splitAtFirst? literal.toList rest
      let (next, others) ← stretches? behind literals
      return (before, next :: others)

theorem stretches?_cons_eq_some {rest first : List Char} {literal : String}
    {literals : List String} {behind : List (List Char)}
    (h : stretches? rest (literal :: literals) = some (first, behind)) :
    ∃ rest' next others, splitAtFirst? literal.toList rest = some (first, rest') ∧
      stretches? rest' literals = some (next, others) ∧ behind = next :: others := by
  simp only [stretches?, Option.bind_eq_bind, Option.bind_eq_some_iff, Option.pure_def,
    Option.some.injEq, Prod.mk.injEq] at h
  rcases h with ⟨⟨before, rest'⟩, hsplit, ⟨next, others⟩, hrest, rfl, rfl⟩
  exact ⟨rest', next, others, hsplit, hrest, rfl⟩

/-- The stretches and the literals between them make up the text. -/
theorem eq_of_stretches? {literals : List String} {rest first : List Char}
    {behind : List (List Char)} (h : stretches? rest literals = some (first, behind)) :
    behind.length = literals.length ∧
      rest = first ++ (literals.zip behind).flatMap fun x => x.1.toList ++ x.2 := by
  induction literals generalizing rest first behind with
  | nil =>
      simp only [stretches?, Option.some.injEq, Prod.mk.injEq] at h
      rcases h with ⟨rfl, rfl⟩
      exact ⟨rfl, (List.append_nil rest).symm⟩
  | cons literal literals ih =>
      rcases stretches?_cons_eq_some h with ⟨rest', next, others, hsplit, hrest, rfl⟩
      rcases ih hrest with ⟨hlength, hrest'⟩
      refine ⟨by rw [List.length_cons, hlength, List.length_cons], ?_⟩
      rw [Text.eq_of_splitAtFirst? hsplit, hrest', List.zip_cons_cons, List.flatMap_cons]
      simp only [List.append_assoc]

/-- Putting tables in for literals keeps the stretches between them. -/
theorem interleave_of_stretches? {tables : List (String × Table)} {rest first : List Char}
    {behind : List (List Char)}
    (h : stretches? rest (tables.map Prod.fst) = some (first, behind)) :
    interleave rest tables =
      fragment first ++ (tables.zip behind).flatMap fun x => .table x.1.2 :: fragment x.2 := by
  induction tables generalizing rest first behind with
  | nil =>
      simp only [List.map_nil, stretches?, Option.some.injEq, Prod.mk.injEq] at h
      rcases h with ⟨rfl, rfl⟩
      exact (List.append_nil _).symm
  | cons table tables ih =>
      rcases stretches?_cons_eq_some h with ⟨rest', next, others, hsplit, hrest, rfl⟩
      rw [interleave, hsplit]
      dsimp only
      rw [ih hrest, List.zip_cons_cons, List.flatMap_cons, List.cons_append]

/-! ### Lookups -/

/-- A literal is found no later than where it is known to stand. -/
theorem exists_splitAtFirst? (literal before behind : List Char) :
    ∃ before' behind', splitAtFirst? literal (before ++ (literal ++ behind)) =
      some (before', behind') ∧ behind <:+ behind' := by
  induction before with
  | nil => exact ⟨[], behind, splitAtFirst?_append_self literal behind, List.suffix_refl behind⟩
  | cons c before ih =>
      rw [List.cons_append, splitAtFirst?]
      cases hstrip : strip? literal (c :: (before ++ (literal ++ behind))) with
      | none =>
          rcases ih with ⟨before', behind', hsplit, hsuffix⟩
          rw [hsplit]
          exact ⟨c :: before', behind', rfl, hsuffix⟩
      | some rest =>
          -- The literal is found at once, and what is behind it is longer.
          refine ⟨[], rest, rfl, ?_⟩
          have heq := strip?_eq_some_iff.mp hstrip
          have hbehind : behind <:+ literal ++ rest := by
            rw [← heq]
            exact ⟨c :: (before ++ literal), by simp only [List.cons_append, List.append_assoc]⟩
          refine List.suffix_of_suffix_length_le hbehind (List.suffix_append literal rest) ?_
          have hlength := congrArg List.length heq
          simp only [List.length_cons, List.length_append] at hlength
          omega

/-- Whether some literals stand in a text, each of them behind the one before. -/
def StandInOrder : List String → List Char → Prop
  | [], _ => True
  | literal :: literals, t => ∃ before behind, t = before ++ (literal.toList ++ behind) ∧
      StandInOrder literals behind

theorem StandInOrder.of_suffix {literals : List String} {t t' : List Char}
    (h : StandInOrder literals t) (hsuffix : t <:+ t') : StandInOrder literals t' := by
  cases literals with
  | nil => exact trivial
  | cons literal literals =>
      rcases h with ⟨before, behind, rfl, hbehind⟩
      rcases hsuffix with ⟨front, rfl⟩
      exact ⟨front ++ before, behind, (List.append_assoc _ _ _).symm, hbehind⟩

/-- Literals that stand in order are all found. -/
theorem StandInOrder.exists_stretches? {literals : List String} {t : List Char}
    (h : StandInOrder literals t) :
    ∃ first behind, stretches? t literals = some (first, behind) := by
  induction literals generalizing t with
  | nil => exact ⟨t, [], rfl⟩
  | cons literal literals ih =>
      rcases h with ⟨before, behind, rfl, hbehind⟩
      rcases exists_splitAtFirst? literal.toList before behind with
        ⟨first, rest, hsplit, hsuffix⟩
      -- The others stand in what the lookup left, which is more than what the place left.
      rcases ih (hbehind.of_suffix hsuffix) with ⟨next, others, hrest⟩
      exact ⟨first, next :: others, by
        simp only [stretches?, hsplit, hrest, Option.bind_eq_bind, Option.bind_some,
          Option.pure_def]⟩

/-- The literals of a scan stand in order, also when some markers are left out. -/
theorem standInOrder_of_sublist {kind : Marker.Kind} {offset : Nat}
    {pieces : List (Text.Piece (List Char))} {markers : List Marker}
    (h : markers.Sublist (Marker.ofPieces kind offset pieces)) :
    StandInOrder (markers.map Marker.literal) (pieces.flatMap Text.Piece.text) := by
  induction pieces generalizing offset markers with
  | nil =>
      rw [List.sublist_nil.mp h]
      exact trivial
  | cons piece pieces ih =>
      rw [List.flatMap_cons]
      cases piece with
      | plain c => exact (ih h).of_suffix (List.suffix_append _ _)
      | find text path =>
          rw [Marker.ofPieces] at h
          cases h with
          | cons _ hrest => exact (ih hrest).of_suffix (List.suffix_append _ _)
          | cons_cons _ hrest =>
              refine ⟨[], _, ?_, ih hrest⟩
              rw [String.toList_ofList]
              rfl

/-- The different literals of a scan are all found. -/
theorem exists_stretches?_scan (kind : Marker.Kind) (text : String) :
    ∃ first behind, stretches? text.toList ((Marker.distinct (scan kind text)).map
      Marker.literal) = some (first, behind) := by
  have horder := standInOrder_of_sublist (Marker.distinct_sublist (scan kind text))
  rw [Text.flatMap_text_pieces] at horder
  exact horder.exists_stretches?

-- A literal that holds another one and is repeated: the other one is found inside of it, and
-- its own place is left as text.
example :
    let inner := "<#<Table Select='A'/>#>"
    let outer := "<#<Table Select='" ++ inner
    let text := outer ++ outer ++ inner
    (Marker.distinct (scan .table text)).map Marker.literal = [outer, inner] ∧
      stretches? text.toList [outer, inner] =
        some ([], ["<#<Table Select='".toList, inner.toList]) := by
  decide +kernel

/-! ### What a split does -/

/-- The table that is due for a marker: that of the children of the element at its path, and
    an empty one when the path leads nowhere. -/
def Marker.due (data : Element) (options : Options) (m : Marker) : Table :=
  match data.resolve? m.path with
  | some e => .ofElements options e.children
  | none => .empty

theorem Marker.ofElements_listAt (data : Element) (options : Options) (m : Marker) :
    .ofElements options (data.listAt m.path) = m.due data options := by
  rw [Element.listAt, due]
  cases data.resolve? m.path <;> rfl

theorem filterMap_table?_fragment (t : List Char) : (fragment t).filterMap Block.table? = [] := by
  rw [fragment]
  split <;> rfl

/-- The tables among tables and stretches. -/
theorem filterMap_table?_flatMap {α : Type} (f : α → Table) {l : List α}
    {behind : List (List Char)} (h : behind.length = l.length) :
    ((l.zip behind).flatMap fun x => .table (f x.1) :: fragment x.2).filterMap Block.table? =
      l.map f := by
  induction l generalizing behind with
  | nil => rfl
  | cons a l ih =>
      cases behind with
      | nil => exact absurd h (by simp only [List.length_nil, List.length_cons]; omega)
      | cons next others =>
          rw [List.zip_cons_cons, List.flatMap_cons, List.filterMap_append, ih (Nat.succ.inj h),
            List.filterMap_cons, filterMap_table?_fragment]
          rfl

/-- A split gives the stretches, and between them the tables that are due. -/
theorem value_splitAround_of_stretches? {data : Element} {options : Options} {text : String}
    {markers : List Marker} {first : List Char} {behind : List (List Char)}
    (h : stretches? text.toList ((Marker.distinct markers).map Marker.literal) =
      some (first, behind)) :
    (splitAround data options text markers).value = fragment first ++
      ((Marker.distinct markers).zip behind).flatMap fun x =>
        .table (x.1.due data options) :: fragment x.2 := by
  have h' : stretches? text.toList (((Marker.distinct markers).map fun m =>
      (m.literal, m.due data options)).map Prod.fst) = some (first, behind) := by
    rw [List.map_map]
    exact h
  rw [value_splitAround]
  simp only [Marker.ofElements_listAt]
  rw [interleave_of_stretches? h', List.zip_map_left, List.flatMap_map]
  simp only [Prod.map, id]

/-- What a split around all table markers of a text does, whatever the text. The markers that
    get a table are the first ones of their literals, in order. The text is cut at their
    literals, each of which is found behind the one before, and the blocks are the stretches and
    the tables in that order, where a blank stretch gives no block. All else that happens is that
    the tables are counted, and that each path that leads nowhere is noted. -/
theorem splitAround_effect (data : Element) (options : Options) (text : String)
    (report : Report) :
    let markers := Marker.distinct (scan .table text)
    let result := splitAround data options text (scan .table text)
    let said (t : List Char) : List Block :=
      if t.all Text.isBlank then [] else [.paragraph ⟨∅, [⟨∅, String.ofList t⟩]⟩]
    markers.Sublist (scan .table text) ∧
    markers.map Marker.literal = ((scan .table text).map Marker.literal).eraseDups ∧
    (∃ first behind,
      stretches? text.toList (markers.map Marker.literal) = some (first, behind) ∧
      behind.length = markers.length ∧
      text.toList =
        first ++ (markers.zip behind).flatMap (fun x => x.1.literal.toList ++ x.2) ∧
      result.value = said first ++
        (markers.zip behind).flatMap fun x => .table (x.1.due data options) :: said x.2) ∧
    result.value.filterMap Block.table? = markers.map (Marker.due data options) ∧
    report ++ result.report =
      { report with
        tablesSynthesized := report.tablesSynthesized + markers.length
        diagnostics := report.diagnostics ++
          (markers.filter fun m => data.resolve? m.path = none).map fun m =>
            ⟨.unresolvedPlaceholder, "table placeholder has no data",
              some (Path.normalize m.path)⟩ } := by
  intro markers result said
  rcases exists_stretches?_scan .table text with ⟨first, behind, hstretches⟩
  rcases eq_of_stretches? hstretches with ⟨hlength, htext⟩
  rw [List.length_map] at hlength
  rw [List.zip_map_left, List.flatMap_map] at htext
  have hvalue : result.value = fragment first ++
      (markers.zip behind).flatMap fun x => .table (x.1.due data options) :: fragment x.2 :=
    value_splitAround_of_stretches? hstretches
  refine ⟨Marker.distinct_sublist _, Marker.map_literal_distinct _,
    ⟨first, behind, hstretches, hlength, htext, hvalue⟩, ?_, ?_⟩
  · rw [hvalue, List.filterMap_append, filterMap_table?_fragment, List.nil_append,
      filterMap_table?_flatMap (Marker.due data options) hlength]
  · rw [report_splitAround, Report.append_def]
    rfl

end MailMerge
