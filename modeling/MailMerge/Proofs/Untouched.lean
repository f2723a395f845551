import MailMerge.Document.Texts
import MailMerge.Proofs.Reach
import MailMerge.Proofs.Remains

/-!
# What a Merge Leaves Alone

A merge writes to few blocks. The table pass writes to the paragraph of each request and
to the table that it asks for, and although both may have moved by then, they are still
under the block of the body under which they were. So the blocks of the body that are
written to can be read off the requests: they are the footprint of the pass. All others
are as they were, and none of them comes to stand elsewhere.

The content pass puts several blocks where there was one, which moves those behind. As it
is a flat map, a block that it expands to itself stands between what its neighbours are
expanded to. This is what becomes of a block without markers.

Both together tell which blocks of a body are not touched, whether the merge comes
through or is refused in the end.

## Main definitions

* `TableRequest.footprint`: The blocks of the body that a request writes to.
* `Frame`: A change that is confined to some blocks of the body.
* `IsUntouched`, `untouched`: The blocks that a merge leaves alone.

## Theorems

* `expandTable_of_no_markers`, `ContentPass.run_of_no_markers`: The content pass leaves
  alone what has no markers.
* `frame_step`, `frame_run`: The table pass is confined to its footprint.
* `notMem_footprint`: A block that is left alone is outside of it.
* `document_run_untouched`: The blocks that are left alone are there in the end, in the
  order in which they were.
-/

namespace MailMerge

/-! ### Without markers -/

-- Work that leaves each element alone leaves the list alone.
theorem Reported.mapM_eq_pure {α : Type} {f : α → Reported α} {l : List α}
    (h : ∀ a ∈ l, f a = Pure.pure a) : l.mapM f = Pure.pure l := by
  induction l with
  | nil => rfl
  | cons a l ih =>
      rw [List.mapM_cons, h a List.mem_cons_self, pure_bind,
        ih fun b hb => h b (List.mem_cons_of_mem a hb), pure_bind]

namespace ContentPass

variable {data : Element} {options : Options}

theorem expand_of_hasMarkers_eq_false {p : Paragraph} (h : hasMarkers p.text = false) :
    expand data options p = pure [.paragraph p] :=
  expand_of_no_markers (hasMarkers_eq_false_iff.mp h).1 (hasMarkers_eq_false_iff.mp h).2

/-- The blocks of a cell stay if no paragraph among them has markers. -/
theorem expandBlocks_of_no_markers {blocks : List Block}
    (h : ∀ p, .paragraph p ∈ blocks → hasMarkers p.text = false) :
    expandBlocks data options blocks = pure blocks := by
  induction blocks with
  | nil => rfl
  | cons b rest ih =>
      have hrest := ih fun p hp => h p (List.mem_cons_of_mem b hp)
      cases b with
      | paragraph p =>
          rw [expandBlocks, expand_of_hasMarkers_eq_false (h p List.mem_cons_self), pure_bind,
            hrest, pure_bind, List.singleton_append]
      | table t => rw [expandBlocks, hrest, pure_bind]

/-- A table stays if no paragraph directly in its cells has markers. -/
theorem expandTable_of_no_markers {t : Table}
    (h : ∀ p ∈ (Block.table t).reached, hasMarkers p.text = false) :
    expandTable data options t = pure t := by
  have hrow : ∀ r ∈ t.rows, expandRow data options r = pure r := by
    intro r hr
    have hcell : ∀ c ∈ r.cells, expandCell data options c = pure c := by
      intro c hc
      have hblocks : ∀ p, .paragraph p ∈ c.blocks → hasMarkers p.text = false :=
        fun p hp => h p (mem_reached_table.mpr ⟨r, hr, c, hc, hp⟩)
      rw [expandCell, expandBlocks_of_no_markers hblocks, pure_bind]
      cases c
      rfl
    rw [expandRow, Reported.mapM_eq_pure hcell, pure_bind]
    cases r
    rfl
  rw [expandTable, Reported.mapM_eq_pure hrow, pure_bind]
  cases t
  rfl

/-- A body stays if nothing within reach has markers. -/
theorem run_of_no_markers {blocks : List Block}
    (h : ∀ p ∈ reached blocks, hasMarkers p.text = false) :
    run data options blocks = pure blocks := by
  induction blocks with
  | nil => rfl
  | cons b rest ih =>
      have hfirst : ∀ p ∈ b.reached, hasMarkers p.text = false :=
        fun p hp => h p (List.mem_flatMap.mpr ⟨b, List.mem_cons_self, hp⟩)
      have hrest : run data options rest = pure rest := by
        refine ih fun p hp => ?_
        rcases List.mem_flatMap.mp hp with ⟨c, hc, hp⟩
        exact h p (List.mem_flatMap.mpr ⟨c, List.mem_cons_of_mem b hc, hp⟩)
      cases b with
      | paragraph p =>
          rw [run, expand_of_hasMarkers_eq_false (hfirst p (List.mem_singleton_self p)), pure_bind,
            hrest, pure_bind, List.singleton_append]
      | table t => rw [run, expandTable_of_no_markers hfirst, pure_bind, hrest, pure_bind]

-- The blocks of a body are expanded on their own, so none depends on its neighbours.
theorem value_run_eq_flatMap (blocks : List Block) :
    (run data options blocks).value = blocks.flatMap fun b => (run data options [b]).value := by
  simp only [value_run, List.flatMap_singleton]

end ContentPass

/-! ### The footprint of the table pass -/

/-- The blocks of the body to which a request writes. -/
def TableRequest.footprint (r : TableRequest) : List Nat :=
  r.paragraph.root :: r.target.toList.map Address.root

/-- A change of a body that is confined to some of its blocks. -/
structure Frame (written : List Nat) (before after : List Block) : Prop where
  length : after.length = before.length
  outside : ∀ k, k ∉ written → after[k]? = before[k]?

namespace Frame

variable {written : List Nat} {before between after : List Block}

theorem refl : Frame written before before := ⟨rfl, fun _ _ => rfl⟩

theorem trans (h : Frame written before between) (h' : Frame written between after) :
    Frame written before after :=
  ⟨h'.length.trans h.length, fun k hk => (h'.outside k hk).trans (h.outside k hk)⟩

theorem mono {more : List Nat} (h : Frame written before after) (hle : ∀ k ∈ written, k ∈ more) :
    Frame more before after :=
  ⟨h.length, fun k hk => h.outside k fun hwritten => hk (hle k hwritten)⟩

theorem modifyAt (f : Block → Block) {a : Address} (ha : a.root ∈ written) :
    Frame written before (MailMerge.modifyAt f a before) := by
  refine ⟨List.length_modify _ _ _, fun k hk => ?_⟩
  have hne : a.root ≠ k := by
    rintro rfl
    exact hk ha
  rw [MailMerge.modifyAt, List.getElem?_modify_ne _ _ hne]

end Frame

namespace TablePass

variable {data : Element} {options : Options} {s : State} {written : List Nat}

-- Wherever a block goes, it stays under the same block of the body.
theorem root_of_follow {shifts : List Shift} {a a' : Address}
    (h : Shift.follow shifts a = some a') : a'.root = a.root := by
  induction shifts generalizing a with
  | nil =>
      rw [Shift.follow, Option.some.injEq] at h
      rw [h]
  | cons s shifts ih =>
      rcases Option.bind_eq_some_iff.mp h with ⟨b, hb, hfollow⟩
      rw [ih hfollow, (Address.rebase_eq_some_iff.mp hb).1]

/-- Filling a table is confined to the block of the body that it is in. -/
theorem frame_fillAt {path : String} {a : Address} (ha : a.root ∈ written) :
    Frame written s.blocks (fillAt data options path a s).value.blocks := by
  cases hfilled : filledAt? data options path a s with
  | none =>
      rw [(fillAt_of_eq_none hfilled).1]
      exact Frame.refl
  | some t =>
      rw [(fillAt_of_eq_some hfilled).1]
      exact Frame.modifyAt _ ha

/-- Honouring a request is confined to its footprint. -/
theorem frame_step (r : TableRequest) :
    Frame r.footprint s.blocks (step data options s r).value.blocks := by
  rcases r with ⟨marker, paragraph, target | target⟩
  · exact Frame.refl
  · have hparagraph : ∀ a, Shift.follow s.shifts paragraph = some a →
        a.root ∈ TableRequest.footprint ⟨marker, paragraph, some target⟩ := by
      intro a ha
      rw [root_of_follow ha]
      exact List.mem_cons_self
    have htarget : ∀ a, Shift.follow s.shifts target = some a →
        a.root ∈ TableRequest.footprint ⟨marker, paragraph, some target⟩ := by
      intro a ha
      rw [root_of_follow ha]
      exact List.mem_cons_of_mem _ (List.mem_singleton_self target.root)
    rw [value_step_some]
    -- The table or the paragraph may be lost, and then nothing is written there.
    cases hfollow : Shift.follow s.shifts target with
    | none =>
        cases hfollow' : Shift.follow s.shifts paragraph with
        | none => exact Frame.refl
        | some a => exact Frame.modifyAt _ (hparagraph a hfollow')
    | some table =>
        have hfill : Frame (TableRequest.footprint ⟨marker, paragraph, some target⟩) s.blocks
            (fillAt data options marker.path table s).value.blocks :=
          frame_fillAt (htarget table hfollow)
        cases hfollow' : Shift.follow s.shifts paragraph with
        | none => exact hfill
        | some a => exact hfill.trans (Frame.modifyAt _ (hparagraph a hfollow'))

/-- Honouring requests in turn is confined to what they write to. -/
theorem frame_steps (l : List TableRequest) :
    Frame (l.flatMap TableRequest.footprint) s.blocks (steps data options s l).value.blocks := by
  induction l generalizing s with
  | nil => exact Frame.refl
  | cons r rest ih =>
      rw [steps, Reported.value_bind, List.flatMap_cons]
      have hfirst : Frame r.footprint s.blocks (step data options s r).value.blocks :=
        frame_step r
      exact (hfirst.mono fun _ hk => List.mem_append_left _ hk).trans
        (ih.mono fun _ hk => List.mem_append_right _ hk)

/-- The table pass is confined to what the requests write to. -/
theorem frame_run (data : Element) (options : Options) (blocks : List Block) :
    Frame ((tableRequests blocks).flatMap TableRequest.footprint) blocks
      (run data options blocks).value :=
  frame_steps (s := ⟨blocks, []⟩) (tableRequests blocks)

end TablePass

/-! ### Blocks that are left alone -/

/-- Whether the block `k` of a body is one that a merge leaves alone. A paragraph must have
    no markers. In a table no paragraph may have table markers at whatever depth, nor one
    directly in a cell content markers, and neither the table itself nor one inside it may
    be the first table after a table marker. -/
def IsUntouched (blocks : List Block) (k : Nat) : Block → Prop
  | .paragraph p => hasMarkers p.text = false
  | .table t =>
      (∀ text ∈ (Block.table t).paragraphTexts, scan .table text = []) ∧
      (∀ p ∈ (Block.table t).reached, scan .content p.text = []) ∧
      ∀ r ∈ tableRequests blocks, ∀ target ∈ r.target, target.root ≠ k

instance (blocks : List Block) (k : Nat) : DecidablePred (IsUntouched blocks k)
  | .paragraph _ => inferInstanceAs (Decidable (_ = _))
  | .table _ => inferInstanceAs (Decidable (_ ∧ _ ∧ _))

/-- The blocks of a body that a merge leaves alone, in their order. -/
def untouched (blocks : List Block) : List Block :=
  (blocks.zipIdx.filter fun b => IsUntouched blocks b.2 b.1).map Prod.fst

theorem mem_textsOfBlocks {text : String} {blocks : List Block} :
    text ∈ textsOfBlocks blocks ↔ ∃ b ∈ blocks, text ∈ b.paragraphTexts := by
  induction blocks with
  | nil => simp only [textsOfBlocks, List.not_mem_nil, false_and, exists_false]
  | cons b rest ih =>
      rw [textsOfBlocks, List.mem_append, ih, List.exists_mem_cons_iff]

theorem mem_textsOfCells {text : String} {cells : List Cell} :
    text ∈ textsOfCells cells ↔ ∃ c ∈ cells, ∃ b ∈ c.blocks, text ∈ b.paragraphTexts := by
  induction cells with
  | nil => simp only [textsOfCells, List.not_mem_nil, false_and, exists_false]
  | cons c rest ih =>
      cases c
      rw [textsOfCells, List.mem_append, ih, mem_textsOfBlocks, List.exists_mem_cons_iff]

/-- The texts in a table are those of the blocks in its cells. -/
theorem mem_paragraphTexts_table {text : String} {t : Table} :
    text ∈ (Block.table t).paragraphTexts ↔
      ∃ r ∈ t.rows, ∃ c ∈ r.cells, ∃ b ∈ c.blocks, text ∈ b.paragraphTexts := by
  rcases t with ⟨properties, rows⟩
  rw [Block.paragraphTexts]
  induction rows with
  | nil => simp only [textsOfRows, List.not_mem_nil, false_and, exists_false]
  | cons r rest ih =>
      cases r
      rw [textsOfRows, List.mem_append, ih, mem_textsOfCells, List.exists_mem_cons_iff]

-- What stands somewhere in a block says something in it.
theorem text_mem_paragraphTexts {b : Block} {steps : List Step} {p : Paragraph}
    (h : b.at? steps = some (.paragraph p)) : p.text ∈ b.paragraphTexts := by
  induction steps generalizing b with
  | nil =>
      rw [Block.at?_nil, Option.some.injEq] at h
      rw [h, Block.paragraphTexts]
      exact List.mem_singleton_self p.text
  | cons s steps ih =>
      rcases Block.exists_of_at?_cons h with ⟨t, rfl, r, hr, c, hc, b, hb, hp⟩
      exact mem_paragraphTexts_table.mpr ⟨r, hr, c, hc, b, hb, ih hp⟩

/-- A block that is left alone has no table markers. -/
theorem IsUntouched.scan_table {blocks : List Block} {k : Nat} {b : Block}
    (h : IsUntouched blocks k b) : ∀ text ∈ b.paragraphTexts, scan .table text = [] := by
  cases b with
  | paragraph p =>
      intro text htext
      rw [List.mem_singleton.mp htext]
      exact (hasMarkers_eq_false_iff.mp h).2
  | table t => exact h.1

/-- A block that is left alone is outside of the footprint of the table pass. -/
theorem notMem_footprint {blocks : List Block} {k : Nat} {b : Block} (hb : blocks[k]? = some b)
    (h : IsUntouched blocks k b) : k ∉ (tableRequests blocks).flatMap TableRequest.footprint := by
  intro hk
  rcases List.mem_flatMap.mp hk with ⟨r, hr, hk⟩
  have hat : ∀ a : Address, k = a.root → blockAt? blocks a = b.at? a.steps := by
    rintro a rfl
    rw [blockAt?, hb, Option.bind_some]
  rcases List.mem_cons.mp hk with hroot | htarget
  · -- The paragraph of a request has a table marker.
    rcases mem_scan_of_mem_tableRequests hr with ⟨p, hp, hmarker⟩
    rw [paragraphAt?_eq_some_iff, hat _ hroot] at hp
    rw [h.scan_table _ (text_mem_paragraphTexts hp)] at hmarker
    exact List.not_mem_nil hmarker
  · rcases List.mem_map.mp htarget with ⟨target, htarget, hroot⟩
    rw [Option.mem_toList] at htarget
    cases b with
    | paragraph p =>
        -- There is no table in a paragraph.
        have hkind := (sound_of_mem_tableRequests hr).target target htarget
        rw [hat target hroot.symm] at hkind
        cases hsteps : target.steps <;>
          exact absurd hkind (by simp only [hsteps, Block.at?, Option.map_some, Option.map_none,
            Block.kind, Option.some.injEq, reduceCtorEq, not_false_eq_true])
    | table t => exact h.2.2 r hr target htarget hroot

/-- The content pass leaves such a block alone. -/
theorem IsUntouched.value_run {blocks : List Block} {k : Nat} {b : Block}
    (h : IsUntouched blocks k b) (data : Element) (options : Options) :
    (ContentPass.run data options [b]).value = [b] := by
  have hreached : ∀ p ∈ reached [b], hasMarkers p.text = false := by
    intro p hp
    rcases mem_reached_iff.mp hp with ⟨⟨root, steps⟩, _, hat⟩
    rcases Option.bind_eq_some_iff.mp (paragraphAt?_eq_some_iff.mp hat) with ⟨c, hc, hp'⟩
    obtain rfl : c = b := List.mem_singleton.mp (List.mem_of_getElem? hc)
    have htable := h.scan_table _ (text_mem_paragraphTexts hp')
    rw [reached, List.flatMap_singleton] at hp
    cases c with
    | paragraph q =>
        rw [List.mem_singleton.mp hp]
        exact h
    | table t => exact hasMarkers_eq_false_iff.mpr ⟨h.2.1 p hp, htable⟩
  rw [ContentPass.run_of_no_markers hreached, Reported.value_pure]

namespace Merger

/-- What a merge makes of a body is what it makes of each block, put together in the order
    of the blocks. What it makes of a block that it leaves alone is this block, and so these
    blocks are all there in the end, in their order. It does not matter what becomes of the
    merge. -/
theorem document_run_untouched {m : Merger} {d : Document} {blocks : List Block}
    (body : d.body = some blocks) :
    ∃ parts : List (List Block), (m.run d).document = ⟨some parts.flatten⟩ ∧
      parts.length = blocks.length ∧
      (∀ k b, blocks[k]? = some b → IsUntouched blocks k b → parts[k]? = some [b]) ∧
      (untouched blocks).Sublist parts.flatten := by
  suffices hparts : ∃ parts : List (List Block), (m.run d).document = ⟨some parts.flatten⟩ ∧
      parts.length = blocks.length ∧
      ∀ k b, blocks[k]? = some b → IsUntouched blocks k b → parts[k]? = some [b] by
    rcases hparts with ⟨parts, hdocument, hlen, hparts⟩
    refine ⟨parts, hdocument, hlen, hparts, sublist_flatten hlen fun k b hb hkeep => ?_⟩
    rw [Nat.zero_add, decide_eq_true_eq] at hkeep
    exact hparts k b hb hkeep
  by_cases idle : m.stage = .idle
  · -- The table pass leaves the block where it was, and the content pass expands it to itself.
    have hframe := TablePass.frame_run m.data m.options blocks
    let tables := (TablePass.run m.data m.options blocks).value
    refine ⟨tables.map fun b => (ContentPass.run m.data m.options [b]).value, ?_, ?_,
      fun k b hb h => ?_⟩
    · rw [run_of_body idle body]
      dsimp only
      rw [passes, Reported.value_bind, ContentPass.value_run_eq_flatMap, List.flatMap_def]
    · rw [List.length_map]
      exact hframe.length
    · rw [List.getElem?_map, hframe.outside k (notMem_footprint hb h), hb, Option.map_some,
        h.value_run]
  · -- A merger that was used touches nothing at all.
    refine ⟨blocks.map fun b => [b], ?_, List.length_map _, fun k b hb _ => ?_⟩
    · rw [run_of_stage_ne_idle idle, ← List.flatMap_def, List.flatMap_singleton', ← body]
    · rw [List.getElem?_map, hb, Option.map_some]

end Merger

/-- A letter with a table to fill and a content marker, between parts without markers and
    a table that has a marker two tables deep. -/
def letter : List Block :=
  [.paragraph ⟨.ofList [("align", "right")], [⟨.ofList [("bold", "on")], "Dear "⟩,
      .plain "all,"]⟩,
    .paragraph (.ofText "<# <Table Select=\"A\" /> #>"),
    .table ⟨∅, [.ofTexts ["h"], .ofTexts ["./X"]]⟩,
    .table ⟨∅, [⟨∅, [⟨∅, [.paragraph (.ofText "Terms"),
      .table ⟨∅, [.ofTexts ["<# <Content Select=\"B\" /> #>"]]⟩]⟩]⟩]⟩,
    .paragraph (.ofText "<# <Content Select=\"B\" /> #>"),
    .paragraph (.ofText "Yours")]

/-- A single row, and no content. -/
def rowOnly : Element :=
  ⟨"D", [.element ⟨"A", [.element ⟨"I", [.element ⟨"X", [.text "1"]⟩]⟩]⟩]⟩

/-- A strict merge of the letter is refused, and three blocks of it are left alone. -/
theorem document_run_letter :
    ((Merger.new rowOnly { Options.default with strict := true }).run ⟨some letter⟩).result =
        .error (.document (.notHonoured 1)) ∧
      (∀ k ∈ [0, 3, 5], ∃ b ∈ letter[k]?, IsUntouched letter k b) ∧
      ∃ parts : List (List Block),
        ((Merger.new rowOnly { Options.default with strict := true }).run ⟨some letter⟩).document =
          ⟨some parts.flatten⟩ ∧ parts.length = letter.length ∧
        (∀ k b, letter[k]? = some b → IsUntouched letter k b → parts[k]? = some [b]) ∧
        (untouched letter).Sublist parts.flatten :=
  ⟨rfl, by decide +kernel, Merger.document_run_untouched rfl⟩

end MailMerge
