import MailMerge.Proofs.TrackedFill

/-!
# The Table Pass by Identity

What the table pass is meant to do, said without addresses. The markers are bound
beforehand, each to its paragraph and to the first table after it. Then they are
honoured in turn: the table is filled if it is still there, and the marker is taken
out of its paragraph if that is still there. What is still there is found by looking
for it, wherever it may stand by then. What taking a marker out leaves of a paragraph is
said here too, and not taken from the pass: all occurrences go, the rest is one run
without formatting, and there are no runs if the rest is blank.

The pass itself looks for nothing. It remembers addresses and brings them up to date.
That this comes to the same is proved step by step. The invariant is that a block with
an identity is in the tree exactly where following its address through the shifts
leads, and is not there when the address is lost. A fill moves blocks as rebasing moves
addresses, so the invariant is kept. It remains to see that a marker's paragraph may be
looked up before the fill of its table, as the pass does: a paragraph that comes before
a table is not inside of it, and no fill moves it there.

## Main definitions

* `Binding`, `bindings`: The table markers with what they are bound to.
* `TableReference.without`, `TableReference.paragraphWithout`: What is left without a marker.
* `TableReference.honour`, `TableReference.run`: The pass by identity.
* `TablePass.Tracks`: The invariant.

## Theorems

* `bindings_trackBody`: Markers are bound to what they ask for.
* `paragraphWithout_eq`: The pass leaves of a paragraph what is left without the marker.
* `tracks_fillAt`, `tracks_erase`, `tracks_step`: What each step of the pass keeps.
* `run_eq_reference`: The pass and the pass by identity are the same.
-/

namespace MailMerge

variable {ι : Type}

/-- A table marker with the identity of its paragraph, and of the table it is bound
    to if a table follows. -/
structure Binding (ι : Type) where
  marker : Marker
  paragraph : ι
  target : Option ι

/-- The first table among blocks. -/
def firstTableId? (later : List (TrackedBlock ι)) : Option ι :=
  (later.find? fun b => b.kind = .table).bind TrackedBlock.id

/-- The bindings of the markers in the paragraphs among blocks. -/
def bindingsAmong : List (TrackedBlock ι) → List (Binding ι)
  | [] => []
  | .paragraph (some i) p :: later =>
      (scan .table p.text).map (fun m => ⟨m, i, firstTableId? later⟩) ++ bindingsAmong later
  | .paragraph none _ :: later => bindingsAmong later
  | .table _ _ :: later => bindingsAmong later

/-- All table markers of a tracked body with what they are bound to, in document
    order. -/
def bindings (tree : List (TrackedBlock ι)) : List (Binding ι) := bindingsAmong (allInBlocks tree)

/-- The table with an identity, if it is there. -/
def tableOf? [DecidableEq ι] (i : ι) (tree : List (TrackedBlock ι)) : Option (TrackedTable ι) :=
  (allInBlocks tree).findSome? fun
    | .table id t => if id = some i then some t else none
    | .paragraph _ _ => none

namespace TableReference

variable [DecidableEq ι]

/-- How far the pass by identity is: the tree, and how many tables were filled. -/
structure Progress (ι : Type) where
  tree : List (TrackedBlock ι)
  populated : Nat

/-- Fills the table with an identity with the rows at a path, if it is there. -/
def fill (data : Element) (options : Options) (path : String) (target : ι) (s : Progress ι) :
    Progress ι :=
  match (tableOf? target s.tree).bind (TrackedTable.fill options (data.listAt path)) with
  | some t => ⟨changeInBlocks target (fun _ => .table (some target) t) s.tree, s.populated + 1⟩
  | none => s

/-- A text without a literal: read from the left, the literal is left out wherever it stands. -/
def without (literal : List Char) : List Char → List Char
  | [] => []
  | c :: t =>
      if literal ≠ [] ∧ literal <+: c :: t then without literal ((c :: t).drop literal.length)
      else c :: without literal t
termination_by t => t.length
decreasing_by
  · next h =>
      have hpos := List.length_pos_iff.mpr h.1
      rw [List.length_drop, List.length_cons]
      omega
  · exact Nat.lt_succ_self _

/-- A paragraph without a literal. What is left of its text is in a single run without
    formatting, and there are no runs if nothing but blanks is left. -/
def paragraphWithout (literal : String) (p : Paragraph) : Paragraph :=
  let remaining := without literal.toList p.text.toList
  ⟨p.properties, if remaining.all Text.isBlank then [] else [⟨∅, String.ofList remaining⟩]⟩

/-- Takes a marker out of the paragraph with an identity, if it is there. -/
def erase (literal : String) (paragraph : ι) (s : Progress ι) : Progress ι :=
  { s with tree := changeInBlocks paragraph (.mapParagraph (paragraphWithout literal)) s.tree }

/-- Honours one binding. -/
def honour (data : Element) (options : Options) (s : Progress ι) (b : Binding ι) : Progress ι :=
  match b.target with
  | none => s
  | some target => erase b.marker.literal b.paragraph (fill data options b.marker.path target s)

/-- Honours bindings in turn. -/
def honourAll (data : Element) (options : Options) (s : Progress ι) (l : List (Binding ι)) :
    Progress ι := l.foldl (honour data options) s

/-- The table pass by identity. -/
def run (data : Element) (options : Options) (tree : List (TrackedBlock ι)) : Progress ι :=
  honourAll data options ⟨tree, 0⟩ (bindings tree)

end TableReference

/-! ### Erasing -/

namespace TableReference

theorem literal?_eq (literal t : List Char) : Text.literal? literal t =
    if literal ≠ [] ∧ literal <+: t then some ⟨(), literal.length - 1⟩ else none := by
  cases literal with
  | nil => rfl
  | cons x beyond =>
      cases hstrip : Text.strip? (x :: beyond) t with
      | none =>
          have hnot : ¬ x :: beyond <+: t := by
            rintro ⟨rest, hrest⟩
            rw [Text.strip?_eq_some_iff.mpr hrest.symm] at hstrip
            exact Option.some_ne_none rest hstrip
          rw [if_neg fun h => hnot h.2]
          simp only [Text.literal?, hstrip]
      | some rest =>
          have hbegins : x :: beyond <+: t := ⟨rest, (Text.strip?_eq_some_iff.mp hstrip).symm⟩
          rw [if_pos ⟨List.cons_ne_nil x beyond, hbegins⟩]
          simp only [Text.literal?, hstrip, List.length_cons, Nat.add_sub_cancel]

/-- Replacing a literal by nothing leaves the text without it. -/
theorem replaceFinds_literal? (literal t : List Char) :
    Text.replaceFinds (Text.literal? literal) (fun _ => []) t = without literal t := by
  rw [Text.replaceFinds, Text.pieces]
  -- As `without` goes on behind a whole literal, so does the induction.
  induction t using without.induct literal with
  | case1 =>
      rw [without]
      rfl
  | case2 c t h ih =>
      rw [without, if_pos h, ← ih, Text.cut, literal?_eq, if_pos h]
      dsimp only
      rw [List.flatMap_cons, List.nil_append, Text.cut_eq_cut_drop]
      cases literal with
      | nil => exact absurd rfl h.1
      | cons x beyond => rfl
  | case3 c t h ih =>
      rw [without, if_neg h, ← ih, Text.cut, literal?_eq, if_neg h]
      rfl

/-- What the table pass leaves of a paragraph is the paragraph without the literal. -/
theorem paragraphWithout_eq (literal : String) :
    paragraphWithout literal = eraseLiteral literal := by
  funext p
  have htext : Text.replaceAll literal "" p.text =
      String.ofList (without literal.toList p.text.toList) :=
    congrArg String.ofList (replaceFinds_literal? literal.toList p.text.toList)
  rw [paragraphWithout, eraseLiteral, htext, Text.isBlankText, String.toList_ofList]
  split <;> rfl

theorem erase_eq [DecidableEq ι] (literal : String) (paragraph : ι) (s : Progress ι) :
    erase literal paragraph s =
      ⟨changeInBlocks paragraph (.mapParagraph (eraseLiteral literal)) s.tree, s.populated⟩ := by
  rw [erase, paragraphWithout_eq]

end TableReference

/-! ### Requests and bindings -/

/-- What a request is bound to, blocks being identified by their addresses. -/
def TableRequest.binding (r : TableRequest) : Binding Address := ⟨r.marker, r.paragraph, r.target⟩

/-- Whether a tracked block is what stands at a place. -/
def IsAt (blocks : List Block) (place : Place) (c : TrackedBlock Address) : Prop :=
  trackedAt? (trackBody blocks) place.address = some c ∧ c.kind = place.kind

theorem id_of_isAt {blocks : List Block} {place : Place} {c : TrackedBlock Address}
    (h : IsAt blocks place c) : c.id = some place.address := by
  rcases h with ⟨h, _⟩
  rw [trackedAt?_trackBody] at h
  rcases Option.map_eq_some_iff.mp h with ⟨b, _, rfl⟩
  exact Block.id_track some place.address b

-- From here on places and blocks are taken together, in document order, and the
-- induction is on how they are paired.
theorem firstTableId?_eq {blocks : List Block} {later : List Place}
    {later' : List (TrackedBlock Address)} (h : List.Forall₂ (IsAt blocks) later later') :
    firstTableId? later' = firstTable? later := by
  induction h with
  | nil => rfl
  | cons hplace _ ih =>
      rw [firstTableId?, firstTable?, List.find?_cons, List.find?_cons, hplace.2]
      split
      · rw [Option.bind_some, Option.map_some, id_of_isAt hplace]
      · exact ih

theorem bindingsAmong_eq {blocks : List Block} {l : List Place} {l' : List (TrackedBlock Address)}
    (h : List.Forall₂ (IsAt blocks) l l') :
    bindingsAmong l' = (requestsAmong blocks l).map TableRequest.binding := by
  induction h with
  | nil => rfl
  | @cons place c later later' hplace hlater ih =>
      rcases hplace with ⟨hat, _⟩
      rw [trackedAt?_trackBody] at hat
      rcases Option.map_eq_some_iff.mp hat with ⟨b, hb, rfl⟩
      rw [requestsAmong, paragraphAt?, hb, Option.bind_some]
      cases b with
      | paragraph p =>
          rw [Block.track, bindingsAmong, Block.paragraph?, List.map_append, List.map_map, ih,
            firstTableId?_eq hlater]
          rfl
      | table t =>
          rw [Block.track_table, bindingsAmong, Block.paragraph?, ih]

/-- Markers are bound to what they ask for. -/
theorem bindings_trackBody (blocks : List Block) :
    bindings (trackBody blocks) = (tableRequests blocks).map TableRequest.binding :=
  bindingsAmong_eq (forall₂_places blocks)

/-- Where a request leads in the body as it was: from a paragraph to a table after it. -/
structure TableRequest.Sound (blocks : List Block) (r : TableRequest) : Prop where
  paragraph : (blockAt? blocks r.paragraph).map Block.kind = some .paragraph
  target : ∀ t, r.target = some t → (blockAt? blocks t).map Block.kind = some .table
  before : ∀ t, r.target = some t → t.rowIn? r.paragraph = none

-- Each place is paired with the block that stands there, so it has its kind.
theorem kind_of_mem_places {blocks : List Block} {place : Place} (h : place ∈ places blocks) :
    (blockAt? blocks place.address).map Block.kind = some place.kind := by
  have hand : List.Forall₂ (fun place c =>
      (blockAt? blocks place.address).map Block.kind = some place.kind ∧ IsAt blocks place c)
      (places blocks) (allInBlocks (trackBody blocks)) := by
    refine (forall₂_places blocks).imp fun place c hplace => ⟨?_, hplace⟩
    rcases hplace with ⟨hat, hkind⟩
    rw [trackedAt?_trackBody] at hat
    rcases Option.map_eq_some_iff.mp hat with ⟨b, hb, rfl⟩
    rw [hb, Option.map_some, ← hkind, Block.kind_track]
  exact ((List.forall₂_and_left _ _).mp hand).1 place h

theorem mem_of_firstTable?_eq_some {later : List Place} {t : Address}
    (h : firstTable? later = some t) :
    ∃ place ∈ later, place.address = t ∧ place.kind = .table := by
  rcases Option.map_eq_some_iff.mp h with ⟨place, hfind, rfl⟩
  have hkind : decide (place.kind = .table) = true :=
    List.find?_some (p := fun place : Place => decide (place.kind = .table)) hfind
  exact ⟨place, List.mem_of_find?_eq_some hfind, rfl, of_decide_eq_true hkind⟩

/-- Where a request comes from: a marker in a paragraph, and the table that it asks for is the
    first one among the places after the paragraph. -/
theorem exists_of_mem_requestsAmong {blocks : List Block} {l : List Place} {r : TableRequest}
    (h : r ∈ requestsAmong blocks l) :
    ∃ earlier place later p, l = earlier ++ place :: later ∧ place.address = r.paragraph ∧
      paragraphAt? blocks r.paragraph = some p ∧ r.marker ∈ scan .table p.text ∧
        r.target = firstTable? later := by
  induction l with
  | nil => exact absurd h List.not_mem_nil
  | cons place later ih =>
      have hcons : r ∈ requestsAmong blocks later ∨
          ∃ p, paragraphAt? blocks place.address = some p ∧
            ∃ m ∈ scan .table p.text, ⟨m, place.address, firstTable? later⟩ = r := by
        rw [requestsAmong] at h
        split at h
        · next p hp =>
            exact (List.mem_append.mp h).symm.imp_right fun h => ⟨p, hp, List.mem_map.mp h⟩
        · exact Or.inl h
      rcases hcons with hlater | ⟨p, hp, m, hm, rfl⟩
      · rcases ih hlater with ⟨earlier, x, rest, p, rfl, hr⟩
        exact ⟨place :: earlier, x, rest, p, rfl, hr⟩
      · exact ⟨[], place, later, p, rfl, rfl, hp, hm, rfl⟩

theorem sound_of_mem_tableRequests {blocks : List Block} {r : TableRequest}
    (h : r ∈ tableRequests blocks) : r.Sound blocks := by
  rcases exists_of_mem_requestsAmong h with
    ⟨earlier, place, later, p, hsplit, hplace, hp, _, htarget⟩
  refine ⟨?_, fun t ht => ?_, fun t ht => ?_⟩
  · rw [paragraphAt?_eq_some_iff.mp hp]
    rfl
  · rcases mem_of_firstTable?_eq_some (htarget ▸ ht) with ⟨x, hx, rfl, hkind⟩
    have hmem : x ∈ places blocks := by
      rw [hsplit]
      exact List.mem_append_right earlier (List.mem_cons_of_mem place hx)
    rw [kind_of_mem_places hmem, hkind]
  · -- In document order the table comes after the paragraph.
    rcases mem_of_firstTable?_eq_some (htarget ▸ ht) with ⟨x, hx, rfl, _⟩
    have hbefore := hsplit ▸ pairwise_places blocks
    have hlater := (List.pairwise_append.mp hbefore).2.1
    rw [← hplace]
    exact Address.rowIn?_eq_none_of_before (List.rel_of_pairwise_cons hlater hx)

/-! ### The invariant -/

-- The identity stands nowhere else, so what is found is what stands at the address.
theorem tableOf?_eq_some {tree : List (TrackedBlock ι)} [DecidableEq ι] {a : Address} {i : ι}
    (only : ∀ b kind, Located tree b i kind → b = a) {t : TrackedTable ι} {id : Option ι}
    (at_a : trackedAt? tree a = some (.table id t)) (hid : id = some i) :
    tableOf? i tree = some t := by
  have hmem : .table id t ∈ allInBlocks tree := mem_allInBlocks_iff.mpr ⟨a, at_a⟩
  have honly : ∀ b ∈ allInBlocks tree, b.id = some i → b = .table id t := by
    intro b hb hbi
    rcases mem_allInBlocks_iff.mp hb with ⟨c, hc⟩
    rw [only c b.kind ⟨b, hc, hbi, rfl⟩, at_a, Option.some.injEq] at hc
    exact hc.symm
  cases hfind : tableOf? i tree with
  | none =>
      have hnone := List.findSome?_eq_none_iff.mp hfind _ hmem
      simp only [hid, if_true, reduceCtorEq] at hnone
  | some u =>
      rcases List.exists_of_findSome?_eq_some hfind with ⟨b, hb, hu⟩
      cases b with
      | paragraph id p => exact absurd hu (by simp only [reduceCtorEq, not_false_eq_true])
      | table id' t' =>
          simp only [Option.ite_none_right_eq_some, Option.some.injEq] at hu
          rcases hu with ⟨hid', rfl⟩
          have heq := honly _ hb hid'
          simp only [TrackedBlock.table.injEq] at heq
          rw [heq.2]

theorem tableOf?_eq_none {tree : List (TrackedBlock ι)} [DecidableEq ι] {i : ι}
    (h : ∀ b, ¬ Located tree b i .table) : tableOf? i tree = none := by
  rw [tableOf?, List.findSome?_eq_none_iff]
  intro b hb
  cases b with
  | paragraph id p => rfl
  | table id t =>
      rcases mem_allInBlocks_iff.mp hb with ⟨a, ha⟩
      exact if_neg (fun hid => h a ⟨_, ha, hid, rfl⟩)

-- Looking up rows may note that there are none, but it fills nothing.
theorem Element.tablesPopulated_rowsAt (data : Element) (path : String) :
    (data.rowsAt path).report.tablesPopulated = 0 := by
  unfold rowsAt
  cases data.resolve? path <;> rfl

namespace TablePass

/-- The invariant: the tree is the body, and a block of the original body stands in it
    where its address leads, and does not when its address is lost. -/
structure Tracks (origin : List Block) (s : State) (tree : List (TrackedBlock Address)) :
    Prop where
  blocks : forgetBlocks tree = s.blocks
  inserted : ∀ shift ∈ s.shifts, 0 < shift.inserted
  located : ∀ a i kind, Located tree a i kind ↔
    (blockAt? origin i).map Block.kind = some kind ∧ Shift.follow s.shifts i = some a

variable {origin : List Block} {s : State} {tree : List (TrackedBlock Address)}

/-- Before the first step every block stands at its own address. -/
theorem tracks_trackBody (blocks : List Block) : Tracks blocks ⟨blocks, []⟩ (trackBody blocks) := by
  refine ⟨forgetBlocks_trackBody blocks, fun _ h => absurd h List.not_mem_nil, fun a i kind => ?_⟩
  simp only [Located, trackedAt?_trackBody, Option.map_eq_some_iff, Shift.follow,
    Option.some.injEq]
  constructor
  · intro h'
    rcases h' with ⟨_, ⟨b, hb, rfl⟩, hid, hkind⟩
    rw [Block.id_track, Option.some.injEq] at hid
    subst hid
    exact ⟨⟨b, hb, (Block.kind_track some a b).symm.trans hkind⟩, rfl⟩
  · intro h'
    rcases h' with ⟨⟨b, hb, rfl⟩, rfl⟩
    exact ⟨_, ⟨b, hb, rfl⟩, Block.id_track some i b, Block.kind_track some i b⟩

-- Following an address leads to one place at most.
theorem Tracks.address_unique (h : Tracks origin s tree) {a b : Address} {i : Address}
    {kind kind' : Block.Kind} (ha : Located tree a i kind) (hb : Located tree b i kind') :
    a = b := by
  have ha := ((h.located a i kind).mp ha).2
  have hb := ((h.located b i kind').mp hb).2
  rw [ha, Option.some.injEq] at hb
  exact hb

/-- A table that is not lost is there to be filled. -/
theorem Tracks.tableOf?_of_follow (h : Tracks origin s tree) {i a : Address}
    (hi : (blockAt? origin i).map Block.kind = some .table)
    (ha : Shift.follow s.shifts i = some a) :
    ∃ t, trackedAt? tree a = some (.table (some i) t) ∧ tableOf? i tree = some t ∧
      tableAt? s.blocks a = some t.forget := by
  have hloc := (h.located a i .table).mpr ⟨hi, ha⟩
  rcases hloc with ⟨c, hc, hid, hkind⟩
  cases c with
  | paragraph id p => exact absurd hkind (by simp only [TrackedBlock.kind, reduceCtorEq,
      not_false_eq_true])
  | table id t =>
      simp only [TrackedBlock.id] at hid
      subst hid
      refine ⟨t, hc, tableOf?_eq_some (fun b kind hb => ?_) hc rfl, ?_⟩
      · exact h.address_unique hb ⟨_, hc, rfl, rfl⟩
      · rw [tableAt?, ← h.blocks, blockAt?_forgetBlocks, hc, Option.map_some, Option.bind_some,
          TrackedBlock.forget_table]
        rfl

/-- The paragraph of a request does not come to stand inside of its table. -/
theorem Tracks.rowIn?_eq_none_of_follow (h : Tracks origin s tree) {r : TableRequest}
    (hr : r.Sound origin) {t a b : Address} (htarget : r.target = some t)
    (ha : Shift.follow s.shifts t = some a) (hb : Shift.follow s.shifts r.paragraph = some b) :
    a.rowIn? b = none := by
  have hrow := (Shift.rowIn?_follow h.inserted hb ha).1
  rw [hr.before t htarget] at hrow
  exact Option.not_isSome_iff_eq_none.mp (by rw [hrow]; exact Bool.false_ne_true)

/-- Nothing is found of a block that is lost. -/
theorem Tracks.not_located (h : Tracks origin s tree) {i : Address}
    (hi : Shift.follow s.shifts i = none) (a : Address) (kind : Block.Kind) :
    ¬ Located tree a i kind := by
  intro ha
  rw [((h.located a i kind).mp ha).2] at hi
  exact absurd hi (by simp only [reduceCtorEq, not_false_eq_true])

/-- The table that filling the one at an address gives, if it gives one. -/
def filledAt? (data : Element) (options : Options) (path : String) (a : Address) (s : State) :
    Option Table :=
  (tableAt? s.blocks a).bind fun t => (Table.fill options (data.listAt path) t).table?

theorem filledAt?_of_tableAt? {a : Address} {t : TrackedTable ι}
    (h : tableAt? s.blocks a = some t.forget) (data : Element) (options : Options)
    (path : String) :
    filledAt? data options path a s =
      (t.fill options (data.listAt path)).map TrackedTable.forget := by
  rw [filledAt?, h, Option.bind_some, TrackedTable.forget_fill]

/-- A fill that gives a table puts it in place and remembers how many rows came in. -/
theorem fillAt_of_eq_some {data : Element} {options : Options} {path : String} {a : Address}
    {filled : Table} (h : filledAt? data options path a s = some filled) :
    (fillAt data options path a s).value = ⟨modifyAt (fun _ => .table filled) a s.blocks,
        s.shifts ++ [⟨a, (data.listAt path).length⟩]⟩ ∧
      (fillAt data options path a s).report.tablesPopulated = 1 := by
  rcases Option.bind_eq_some_iff.mp h with ⟨t, ht, h⟩
  rw [fillAt, Reported.value_bind, Reported.report_bind, Element.value_rowsAt, ht, Option.map_some]
  cases hfill : Table.fill options (data.listAt path) t with
  | filled table =>
      rw [hfill, Table.Filling.table?, Option.some.injEq] at h
      subst h
      exact ⟨rfl, by rw [Report.append_def, Element.tablesPopulated_rowsAt]; rfl⟩
  | noData => rw [hfill] at h; exact absurd h (by simp only [Table.Filling.table?, reduceCtorEq,
      not_false_eq_true])
  | misfit reason => rw [hfill] at h; exact absurd h (by simp only [Table.Filling.table?,
      reduceCtorEq, not_false_eq_true])

/-- A fill that gives no table changes nothing. -/
theorem fillAt_of_eq_none {data : Element} {options : Options} {path : String} {a : Address}
    (h : filledAt? data options path a s = none) :
    (fillAt data options path a s).value = s ∧
      (fillAt data options path a s).report.tablesPopulated = 0 := by
  rw [fillAt, Reported.value_bind, Reported.report_bind, Element.value_rowsAt, Report.append_def,
    Element.tablesPopulated_rowsAt]
  cases ht : tableAt? s.blocks a with
  | none => exact ⟨rfl, rfl⟩
  | some t =>
      rw [filledAt?, ht, Option.bind_some] at h
      rw [Option.map_some]
      cases hfill : Table.fill options (data.listAt path) t with
      | filled table =>
          rw [hfill] at h
          exact absurd h (by simp only [Table.Filling.table?, reduceCtorEq, not_false_eq_true])
      | noData => exact ⟨rfl, rfl⟩
      | misfit reason => exact ⟨rfl, rfl⟩

/-- A fill leaves what is followed to outside of its table. -/
theorem follow_fillAt {data : Element} {options : Options} {path : String} {a i : Address}
    (h : ∀ b, Shift.follow s.shifts i = some b → a.rowIn? b = none) :
    Shift.follow (fillAt data options path a s).value.shifts i = Shift.follow s.shifts i := by
  cases hfilled : filledAt? data options path a s with
  | none => rw [(fillAt_of_eq_none hfilled).1]
  | some filled =>
      rw [(fillAt_of_eq_some hfilled).1, Shift.follow_concat]
      cases hi : Shift.follow s.shifts i with
      | none => rfl
      | some b =>
          rw [Option.bind_some]
          exact Address.rebase_of_rowIn?_eq_none (h b hi)

/-- Filling the table that an address was followed to is filling it by identity. -/
theorem tracks_fillAt (h : Tracks origin s tree) {i a : Address}
    (hi : (blockAt? origin i).map Block.kind = some .table)
    (ha : Shift.follow s.shifts i = some a) (data : Element) (options : Options) (path : String)
    (populated : Nat) :
    Tracks origin (fillAt data options path a s).value
        (TableReference.fill data options path i ⟨tree, populated⟩).tree ∧
      (TableReference.fill data options path i ⟨tree, populated⟩).populated =
        populated + (fillAt data options path a s).report.tablesPopulated := by
  rcases h.tableOf?_of_follow hi ha with ⟨t, hat, htable, htableAt⟩
  have hfilled := filledAt?_of_tableAt? htableAt data options path
  -- Both fill the same table with the same rows, so both fill it or neither does.
  rw [TableReference.fill, htable, Option.bind_some]
  cases hfill : t.fill options (data.listAt path) with
  | none =>
      rw [hfill, Option.map_none] at hfilled
      rcases fillAt_of_eq_none hfilled with ⟨hvalue, hreport⟩
      rw [hvalue, hreport]
      exact ⟨h, rfl⟩
  | some t' =>
      rw [hfill, Option.map_some] at hfilled
      rcases fillAt_of_eq_some hfilled with ⟨hvalue, hreport⟩
      rw [hvalue, hreport]
      clear hvalue hreport hfilled
      generalize data.listAt path = elements at hfill ⊢
      have hloc : Located tree a i .table := ⟨_, hat, rfl, rfl⟩
      have hchange : changeInBlocks i (fun _ => .table (some i) t') tree =
          modifyTrackedAt (fun _ => .table (some i) t') a tree :=
        changeInBlocks_eq_modifyTrackedAt _ hat rfl
          fun b c hc hid => h.address_unique ⟨c, hc, hid, rfl⟩ hloc
      refine ⟨⟨?_, ?_, fun c j kind => ?_⟩, rfl⟩
      · -- The tree is still the body.
        change forgetBlocks (changeInBlocks i (fun _ => .table (some i) t') tree) = _
        rw [hchange, ← h.blocks]
        exact forgetBlocks_modifyTrackedAt (fun _ => TrackedBlock.forget_table (some i) t') a tree
      · -- The new shift puts in a row for each element, and there is one at least.
        intro shift hshift
        rcases List.mem_append.mp hshift with hshift | hshift
        · exact h.inserted shift hshift
        · rcases TrackedTable.rows_of_fill hfill with ⟨hpos, _⟩
          rw [List.mem_singleton.mp hshift]
          exact hpos
      · -- Blocks are moved by the fill as addresses are by the new shift.
        change Located (changeInBlocks i (fun _ => .table (some i) t') tree) c j kind ↔ _
        rw [hchange, located_fill hfill hat, Shift.follow_concat, Option.bind_eq_some_iff]
        constructor
        · intro h'
          rcases h' with ⟨b, hb, hrebase⟩
          rcases (h.located b j kind).mp hb with ⟨hj, hfollow⟩
          exact ⟨hj, b, hfollow, hrebase⟩
        · intro h'
          rcases h' with ⟨hj, b, hfollow, hrebase⟩
          exact ⟨b, (h.located b j kind).mpr ⟨hj, hfollow⟩, hrebase⟩

theorem forget_mapParagraph_eraseLiteral (literal : String) (b : TrackedBlock ι) :
    (b.mapParagraph (eraseLiteral literal)).forget = eraseMarker literal b.forget := by
  cases b with
  | paragraph id p => rfl
  | table id t =>
      cases t
      rfl

/-- Taking a marker out of the paragraph that an address was followed to is taking it out
    by identity. -/
theorem tracks_erase (h : Tracks origin s tree) {i : Address}
    (hi : (blockAt? origin i).map Block.kind = some .paragraph) (literal : String) :
    Tracks origin
      (match Shift.follow s.shifts i with
        | some a => { s with blocks := modifyAt (eraseMarker literal) a s.blocks }
        | none => s)
      (changeInBlocks i (.mapParagraph (eraseLiteral literal)) tree) := by
  cases hfollow : Shift.follow s.shifts i with
  | none =>
      -- The paragraph is lost, so there is nothing to change by identity.
      rw [changeInBlocks_of_forall_ne]
      · exact h
      · intro a c hc hid
        exact h.not_located hfollow a c.kind ⟨c, hc, hid, rfl⟩
  | some a =>
      have hloc := (h.located a i .paragraph).mpr ⟨hi, hfollow⟩
      rcases hloc with ⟨c, hc, hid, hkind⟩
      rw [changeInBlocks_eq_modifyTrackedAt _ hc hid fun b d hd hdi =>
        h.address_unique ⟨d, hd, hdi, rfl⟩ ⟨c, hc, hid, rfl⟩]
      refine ⟨?_, h.inserted, fun b j kind => ?_⟩
      · simp only [← h.blocks]
        exact forgetBlocks_modifyTrackedAt (forget_mapParagraph_eraseLiteral literal) a tree
      · rw [located_mapParagraph]
        exact h.located b j kind

/-- What honouring a request with a table does: the paragraph is looked up first, then the
    table is filled, then the marker is taken out. -/
theorem value_step_some (data : Element) (options : Options) (s : State) (marker : Marker)
    (paragraph target : Address) :
    (step data options s ⟨marker, paragraph, some target⟩).value =
      let next := match Shift.follow s.shifts target with
        | some table => (fillAt data options marker.path table s).value
        | none => s
      match Shift.follow s.shifts paragraph with
      | some a => { next with blocks := modifyAt (eraseMarker marker.literal) a next.blocks }
      | none => next := by
  simp only [step]
  cases Shift.follow s.shifts target <;> cases Shift.follow s.shifts paragraph <;>
    simp only [Reported.value_bind, Reported.value_pure]

-- Taking out the marker rebases nothing.
theorem shifts_step_some (data : Element) (options : Options) (s : State) (marker : Marker)
    (paragraph target : Address) :
    (step data options s ⟨marker, paragraph, some target⟩).value.shifts =
      (match Shift.follow s.shifts target with
        | some table => (fillAt data options marker.path table s).value
        | none => s).shifts := by
  rw [value_step_some]
  cases Shift.follow s.shifts paragraph <;> rfl

theorem report_step_some (data : Element) (options : Options) (s : State) (marker : Marker)
    (paragraph target : Address) :
    (step data options s ⟨marker, paragraph, some target⟩).report =
      match Shift.follow s.shifts target with
        | some table => (fillAt data options marker.path table s).report
        | none => ∅ := by
  simp only [step]
  cases Shift.follow s.shifts target <;> cases Shift.follow s.shifts paragraph <;>
    simp only [Reported.report_bind, Reported.report_pure, Report.append_empty]

/-- Honouring a request is honouring its binding. -/
theorem tracks_step (h : Tracks origin s tree) {r : TableRequest} (hr : r.Sound origin)
    (data : Element) (options : Options) (populated : Nat) :
    Tracks origin (step data options s r).value
        (TableReference.honour data options ⟨tree, populated⟩ r.binding).tree ∧
      (TableReference.honour data options ⟨tree, populated⟩ r.binding).populated =
        populated + (step data options s r).report.tablesPopulated := by
  rcases r with ⟨marker, paragraph, target⟩
  cases target with
  | none => exact ⟨h, rfl⟩
  | some target =>
      have htarget := hr.target target rfl
      -- The paragraph may be looked up before the fill: it is not inside of the table.
      have hsame : ∀ table, Shift.follow s.shifts target = some table →
          Shift.follow (fillAt data options marker.path table s).value.shifts paragraph =
            Shift.follow s.shifts paragraph := by
        intro table htable
        exact follow_fillAt fun b hb => h.rowIn?_eq_none_of_follow hr rfl htable hb
      have hhonour : TableReference.honour data options ⟨tree, populated⟩
          (TableRequest.binding ⟨marker, paragraph, some target⟩) =
          TableReference.erase marker.literal paragraph
            (TableReference.fill data options marker.path target ⟨tree, populated⟩) := rfl
      rw [hhonour, TableReference.erase_eq, value_step_some, report_step_some]
      cases hfollow : Shift.follow s.shifts target with
      | none =>
          -- The table is lost, so it is not found by identity either.
          have hnone : tableOf? target tree = none :=
            tableOf?_eq_none fun b => h.not_located hfollow b .table
          have hfill : TableReference.fill data options marker.path target ⟨tree, populated⟩ =
              ⟨tree, populated⟩ := by
            rw [TableReference.fill, hnone, Option.bind_none]
          rw [hfill]
          exact ⟨tracks_erase h hr.paragraph marker.literal, rfl⟩
      | some table =>
          rcases tracks_fillAt h htarget hfollow data options marker.path populated with
            ⟨hfill, hpopulated⟩
          have herase := tracks_erase hfill hr.paragraph marker.literal
          rw [hsame table hfollow] at herase
          exact ⟨herase, hpopulated⟩

/-- Honouring requests in turn is honouring their bindings in turn. -/
theorem tracks_steps (h : Tracks origin s tree) {l : List TableRequest}
    (hl : ∀ r ∈ l, r.Sound origin) (data : Element) (options : Options) (populated : Nat) :
    Tracks origin (steps data options s l).value
        (TableReference.honourAll data options ⟨tree, populated⟩
          (l.map TableRequest.binding)).tree ∧
      (TableReference.honourAll data options ⟨tree, populated⟩
          (l.map TableRequest.binding)).populated =
        populated + (steps data options s l).report.tablesPopulated := by
  induction l generalizing s tree populated with
  | nil => exact ⟨h, rfl⟩
  | cons r rest ih =>
      rcases tracks_step h (hl r List.mem_cons_self) data options populated with ⟨hstep, hcount⟩
      have hrest := ih hstep (fun x hx => hl x (List.mem_cons_of_mem r hx))
        (TableReference.honour data options ⟨tree, populated⟩ r.binding).populated
      rw [steps, Reported.value_bind, Reported.report_bind, Report.append_def, List.map_cons]
      refine ⟨hrest.1, ?_⟩
      change _ = populated + ((step data options s r).report.tablesPopulated +
        (steps data options (step data options s r).value rest).report.tablesPopulated)
      rw [← Nat.add_assoc, ← hcount]
      exact hrest.2

-- A block of a known kind can be named with what it holds.
theorem located_paragraph_iff {a i : Address} :
    Located tree a i .paragraph ↔ ∃ p, trackedAt? tree a = some (.paragraph (some i) p) := by
  constructor
  · intro h
    rcases h with ⟨c, hc, hid, hkind⟩
    cases c with
    | paragraph id p =>
        simp only [TrackedBlock.id] at hid
        exact ⟨p, hid ▸ hc⟩
    | table id t => exact absurd hkind (by simp only [TrackedBlock.kind, reduceCtorEq,
        not_false_eq_true])
  · intro h
    rcases h with ⟨p, hp⟩
    exact ⟨_, hp, rfl, rfl⟩

theorem located_table_iff {a i : Address} :
    Located tree a i .table ↔ ∃ t, trackedAt? tree a = some (.table (some i) t) := by
  constructor
  · intro h
    rcases h with ⟨c, hc, hid, hkind⟩
    cases c with
    | paragraph id p => exact absurd hkind (by simp only [TrackedBlock.kind, reduceCtorEq,
        not_false_eq_true])
    | table id t =>
        simp only [TrackedBlock.id] at hid
        exact ⟨t, hid ▸ hc⟩
  · intro h
    rcases h with ⟨t, ht⟩
    exact ⟨_, ht, rfl, rfl⟩

/-- The table pass gives the body that the pass by identity gives, and fills as many
    tables. All along the way an address that the pass still needs leads to the block
    that it was taken from, and is lost when that block is gone. -/
theorem run_eq_reference (data : Element) (options : Options) (blocks : List Block) :
    (run data options blocks).value =
        forgetBlocks (TableReference.run data options (trackBody blocks)).tree ∧
      (run data options blocks).report.tablesPopulated =
        (TableReference.run data options (trackBody blocks)).populated ∧
      ∀ k,
        let s := (steps data options ⟨blocks, []⟩ ((tableRequests blocks).take k)).value
        let tree := (TableReference.honourAll data options ⟨trackBody blocks, 0⟩
          ((bindings (trackBody blocks)).take k)).tree
        s.blocks = forgetBlocks tree ∧ ∀ r ∈ (tableRequests blocks).drop k,
          (∀ a, Shift.follow s.shifts r.paragraph = some a ↔
            ∃ p, trackedAt? tree a = some (.paragraph (some r.paragraph) p)) ∧
          ∀ target, r.target = some target → ∀ a, Shift.follow s.shifts target = some a ↔
            ∃ t, trackedAt? tree a = some (.table (some target) t) := by
  have hsound : ∀ r ∈ tableRequests blocks, r.Sound blocks :=
    fun _ hr => sound_of_mem_tableRequests hr
  -- Body and count after all steps, then the addresses after the first `k`.
  rcases tracks_steps (tracks_trackBody blocks) hsound data options 0 with ⟨htracks, hcount⟩
  rw [TableReference.run, bindings_trackBody]
  refine ⟨htracks.blocks.symm, ?_, fun k => ?_⟩
  · rw [hcount, Nat.zero_add, run, Reported.report_bind, Reported.report_pure, Report.append_empty]
  · have htake : ∀ r ∈ (tableRequests blocks).take k, r.Sound blocks :=
      fun r hr => hsound r (List.mem_of_mem_take hr)
    rw [← List.map_take]
    have hk := (tracks_steps (tracks_trackBody blocks) htake data options 0).1
    refine ⟨hk.blocks.symm, fun r hr => ?_⟩
    have hr := hsound r (List.mem_of_mem_drop hr)
    refine ⟨fun a => ?_, fun target htarget a => ?_⟩
    · rw [← located_paragraph_iff, hk.located]
      exact ⟨fun h => ⟨hr.paragraph, h⟩, And.right⟩
    · rw [← located_table_iff, hk.located]
      exact ⟨fun h => ⟨hr.target target htarget, h⟩, And.right⟩

end TablePass

end MailMerge
