import MailMerge.Proofs.TableReference

/-!
# What the Table Pass Leaves

After the table pass each paragraph is of one of two sorts. It was there before, and
then it is what it was without the literals that the pass took out of it. Or it is in a
row that a fill put in, and then it says nothing or what some element has in a column.

Which literals were taken out can be read off the requests: those in that paragraph
for which there was a table. As long as the paragraph is there, it does not matter
whether the table was.

## Main definitions

* `erasedFrom`, `eraseLiterals`: What is taken out of a paragraph, and what is left.
* `IsOriginal`, `IsNew`: The two sorts.
* `TablePass.finalShifts`: What the pass shifts in all.

## Theorems

* `exists_filter_tableRequests`: The requests of a paragraph ask for one table.
* `erasedFrom_tableRequests`: All markers are taken out of a paragraph, or none.
* `isLeft_honour`, `isLeft_honourAll`: What honouring a binding leaves, and honouring all.
* `exists_of_paragraphAt?_run`: Each paragraph is of one of the two sorts.
* `paragraphAt?_run_of_follow`: A paragraph that is not lost is there.
-/

namespace MailMerge

/-- The literals that some requests take out of a paragraph. -/
def erasedFrom (i : Address) (l : List TableRequest) : List String :=
  (l.filter fun r => decide (r.paragraph = i) && r.target.isSome).map fun r => r.marker.literal

/-- A paragraph without some literals, which are taken out in turn. -/
def eraseLiterals (literals : List String) (p : Paragraph) : Paragraph :=
  literals.foldl (fun p literal => eraseLiteral literal p) p

/-- Whether a paragraph is what was at an address, without what some requests took out. -/
def IsOriginal (origin : List Block) (done : List TableRequest) (i : Address) (p : Paragraph) :
    Prop :=
  ∃ p₀, blockAt? origin i = some (.paragraph p₀) ∧ p = eraseLiterals (erasedFrom i done) p₀

/-- Whether a paragraph says nothing, or what an element that some requests ask for has in
    a column. -/
def IsNew (data : Element) (done : List TableRequest) (p : Paragraph) : Prop :=
  ∃ text, p = .ofText text ∧ (text = "" ∨
    ∃ r ∈ done, ∃ e ∈ data.listAt r.marker.path, ∃ name, text = e.textUnder name)

/-- Whether a node can be left by some requests. -/
def Node.IsLeft (origin : List Block) (data : Element) (done : List TableRequest)
    (n : Node Address) : Prop :=
  ∀ p, n.paragraph = some p →
    (∃ i, n.id = some i ∧ IsOriginal origin done i p) ∨ n.id = none ∧ IsNew data done p

-- Requests are honoured in turn, so all about them is by induction from the other end.
theorem erasedFrom_concat (i : Address) (done : List TableRequest) (r : TableRequest) :
    erasedFrom i (done ++ [r]) = erasedFrom i done ++
      if r.paragraph = i ∧ r.target.isSome = true then [r.marker.literal] else [] := by
  rw [erasedFrom, erasedFrom, List.filter_append, List.map_append]
  congr 1
  by_cases h : r.paragraph = i ∧ r.target.isSome = true
  · rw [if_pos h, List.filter_cons_of_pos (by rw [decide_eq_true h.1, h.2]; rfl)]
    rfl
  · rw [if_neg h, List.filter_cons_of_neg]
    · rfl
    · rw [Bool.and_eq_true, decide_eq_true_eq]
      exact h

theorem eraseLiterals_cons (literal : String) (rest : List String) (p : Paragraph) :
    eraseLiterals (literal :: rest) p = eraseLiterals rest (eraseLiteral literal p) := by
  rw [eraseLiterals, List.foldl_cons, eraseLiterals]

theorem eraseLiterals_append (l m : List String) (p : Paragraph) :
    eraseLiterals (l ++ m) p = eraseLiterals m (eraseLiterals l p) := List.foldl_append

theorem eraseLiterals_singleton (literal : String) (p : Paragraph) :
    eraseLiterals [literal] p = eraseLiteral literal p := by
  rw [eraseLiterals, List.foldl_cons, List.foldl_nil]

-- A request takes something out of its own paragraph if it has a table, and else nothing
-- out of any.
theorem IsOriginal.concat_of_ne {origin : List Block} {done : List TableRequest} {i : Address}
    {p : Paragraph} (h : IsOriginal origin done i p) {r : TableRequest}
    (hr : ¬ (r.paragraph = i ∧ r.target.isSome = true)) :
    IsOriginal origin (done ++ [r]) i p := by
  rcases h with ⟨p₀, hp₀, hp⟩
  refine ⟨p₀, hp₀, ?_⟩
  rw [erasedFrom_concat, if_neg hr, List.append_nil]
  exact hp

theorem IsOriginal.concat_of_eq {origin : List Block} {done : List TableRequest} {i : Address}
    {p : Paragraph} (h : IsOriginal origin done i p) {r : TableRequest} (hr : r.paragraph = i)
    (htarget : r.target.isSome = true) :
    IsOriginal origin (done ++ [r]) i (eraseLiteral r.marker.literal p) := by
  rcases h with ⟨p₀, hp₀, rfl⟩
  refine ⟨p₀, hp₀, ?_⟩
  rw [erasedFrom_concat, if_pos ⟨hr, htarget⟩, eraseLiterals_append, eraseLiterals_singleton]

theorem IsNew.concat {data : Element} {done : List TableRequest} {p : Paragraph}
    (h : IsNew data done p) (r : TableRequest) : IsNew data (done ++ [r]) p := by
  rcases h with ⟨text, hp, htext⟩
  refine ⟨text, hp, htext.imp_right ?_⟩
  intro h'
  rcases h' with ⟨x, hx, he⟩
  exact ⟨x, List.mem_append_left [r] hx, he⟩

/-- What another request leaves that does nothing to a node. -/
theorem Node.IsLeft.concat {origin : List Block} {data : Element} {done : List TableRequest}
    {n : Node Address} (h : n.IsLeft origin data done) {r : TableRequest}
    (hr : ¬ (n.id = some r.paragraph ∧ r.target.isSome = true)) :
    n.IsLeft origin data (done ++ [r]) := by
  intro p hp
  rcases h p hp with ⟨i, hid, horiginal⟩ | ⟨hid, hnew⟩
  · refine Or.inl ⟨i, hid, horiginal.concat_of_ne fun hri => hr ⟨?_, hri.2⟩⟩
    rw [hid, hri.1]
  · exact Or.inr ⟨hid, hnew.concat r⟩

/-- What is left of the paragraph of a request when its marker is taken out. -/
theorem Node.IsLeft.erase {origin : List Block} {data : Element} {done : List TableRequest}
    {n : Node Address} (h : n.IsLeft origin data done) {r : TableRequest}
    (hid : n.id = some r.paragraph) (htarget : r.target.isSome = true) :
    Node.IsLeft origin data (done ++ [r])
      { n with paragraph := n.paragraph.map (eraseLiteral r.marker.literal) } := by
  intro p hp
  rcases Option.map_eq_some_iff.mp hp with ⟨p', hp', rfl⟩
  rcases h p' hp' with ⟨i, hi, horiginal⟩ | ⟨hnone, _⟩
  · rw [hid, Option.some.injEq] at hi
    exact Or.inl ⟨i, hi ▸ hid, horiginal.concat_of_eq hi htarget⟩
  · rw [hnone] at hid
    exact absurd hid (by simp only [reduceCtorEq, not_false_eq_true])

/-- What a request puts in is left by it. -/
theorem Node.IsFresh.isLeft {data : Element} {r : TableRequest} {n : Node Address}
    (h : n.IsFresh (data.listAt r.marker.path)) (origin : List Block) (done : List TableRequest) :
    n.IsLeft origin data (done ++ [r]) := by
  rcases h with ⟨hnone, text, hp, htext⟩
  intro p hp'
  rw [hp, Option.some.injEq] at hp'
  refine Or.inr ⟨hnone, text, hp'.symm, htext.imp_right ?_⟩
  intro h'
  rcases h' with ⟨e, he, name, hname⟩
  exact ⟨r, List.mem_append_right done List.mem_cons_self, e, he, name, hname⟩

/-! ### Requests of a paragraph -/

-- Wherever something stands there is a place.
theorem exists_mem_places {blocks : List Block} {a : Address} {b : Block}
    (h : blockAt? blocks a = some b) : ∃ place ∈ places blocks, place.address = a := by
  have hmem : b.track some a ∈ allInBlocks (trackBody blocks) := by
    refine mem_allInBlocks_iff.mpr ⟨a, ?_⟩
    rw [trackedAt?_trackBody, h, Option.map_some]
  rcases List.mem_iff_get.mp hmem with ⟨⟨n, hn⟩, hget⟩
  have hlen : n < (places blocks).length := by
    rw [(forall₂_places blocks).length_eq]
    exact hn
  have hat := (forall₂_places blocks).get hlen hn
  rw [hget] at hat
  have hid := id_of_isAt hat
  rw [Block.id_track, Option.some.injEq] at hid
  exact ⟨_, List.get_mem _ _, hid.symm⟩

/-- A request comes from a marker in the text of its paragraph. -/
theorem mem_scan_of_mem_tableRequests {blocks : List Block} {r : TableRequest}
    (h : r ∈ tableRequests blocks) :
    ∃ p, paragraphAt? blocks r.paragraph = some p ∧ r.marker ∈ scan .table p.text := by
  rcases exists_of_mem_requestsAmong h with ⟨_, _, _, p, _, _, hp, hmarker, _⟩
  exact ⟨p, hp, hmarker⟩

/-- The requests of a paragraph are its markers in turn, which all ask for the same table. -/
theorem exists_filter_tableRequests {blocks : List Block} {a : Address} {p : Paragraph}
    (hp : paragraphAt? blocks a = some p) :
    ∃ target, (tableRequests blocks).filter (fun r => r.paragraph = a) =
      (scan .table p.text).map fun m => ⟨m, a, target⟩ := by
  -- By induction on the places that are left, of which one is that of the paragraph. The
  -- table is the first one after it, and no place comes twice.
  suffices hl : ∀ l : List Place, (∃ place ∈ l, place.address = a) →
      (l.Pairwise fun x y => x.address.Before y.address) →
        ∃ target, (requestsAmong blocks l).filter (fun r => r.paragraph = a) =
          (scan .table p.text).map fun m => ⟨m, a, target⟩ by
    have hplace := exists_mem_places (paragraphAt?_eq_some_iff.mp hp)
    exact hl (places blocks) hplace (pairwise_places blocks)
  intro l hmem hbefore
  induction l with
  | nil =>
      rcases hmem with ⟨place, hplace, _⟩
      exact absurd hplace List.not_mem_nil
  | cons place later ih =>
      by_cases hplace : place.address = a
      · -- No later request is in this paragraph.
        subst hplace
        have hlater : (requestsAmong blocks later).filter
            (fun r => r.paragraph = place.address) = [] := by
          rw [List.filter_eq_nil_iff]
          intro r hr heq
          rcases exists_of_mem_requestsAmong hr with ⟨earlier, x, rest, _, rfl, hxr, _⟩
          have hx : x ∈ earlier ++ x :: rest := List.mem_append_right earlier List.mem_cons_self
          exact (List.rel_of_pairwise_cons hbefore hx).ne
            ((of_decide_eq_true heq).symm.trans hxr.symm)
        refine ⟨firstTable? later, ?_⟩
        rw [requestsAmong, hp]
        dsimp only
        rw [List.filter_append, hlater, List.append_nil, List.filter_eq_self]
        intro r hr
        rcases List.mem_map.mp hr with ⟨m, _, rfl⟩
        exact decide_eq_true rfl
      · -- No request of the first place is in this paragraph.
        have hrest : ∃ x ∈ later, x.address = a := by
          rcases hmem with ⟨x, hx, hxa⟩
          rcases List.mem_cons.mp hx with rfl | hx
          · exact absurd hxa hplace
          · exact ⟨x, hx, hxa⟩
        rcases ih hrest hbefore.of_cons with ⟨target, htarget⟩
        refine ⟨target, ?_⟩
        rw [← htarget, requestsAmong]
        split
        · next q hq =>
            rw [List.filter_append, List.filter_eq_nil_iff.mpr, List.nil_append]
            intro r hr heq
            rcases List.mem_map.mp hr with ⟨m, _, rfl⟩
            exact hplace (of_decide_eq_true heq)
        · rfl

/-- A request is in a paragraph if its marker is, and then it asks for the one table. -/
theorem exists_target {blocks : List Block} {a : Address} {p : Paragraph}
    (hp : paragraphAt? blocks a = some p) :
    ∃ target, ∀ r, r ∈ tableRequests blocks ∧ r.paragraph = a ↔
      ∃ m ∈ scan .table p.text, r = ⟨m, a, target⟩ := by
  rcases exists_filter_tableRequests hp with ⟨target, htarget⟩
  refine ⟨target, fun r => ?_⟩
  have hmem : r ∈ tableRequests blocks ∧ r.paragraph = a ↔
      r ∈ (tableRequests blocks).filter fun r => r.paragraph = a := by
    rw [List.mem_filter, decide_eq_true_eq]
  rw [hmem, htarget, List.mem_map]
  simp only [eq_comm]

-- Nothing is taken out of a paragraph whose markers have no table.
theorem erasedFrom_eq_nil {l : List TableRequest} {i : Address}
    (h : ∀ r ∈ l, r.paragraph = i → r.target = none) : erasedFrom i l = [] := by
  rw [erasedFrom, List.map_eq_nil_iff, List.filter_eq_nil_iff]
  intro r hr
  rw [Bool.and_eq_true, decide_eq_true_eq]
  intro hcond
  rw [h r hr hcond.1, Option.isSome_none] at hcond
  exact Bool.false_ne_true hcond.2

/-- If one marker of a paragraph has no table then none has. -/
theorem target_eq_none_of_paragraph_eq {blocks : List Block} {r q : TableRequest}
    (hr : r ∈ tableRequests blocks) (htarget : r.target = none) (hq : q ∈ tableRequests blocks)
    (heq : q.paragraph = r.paragraph) : q.target = none := by
  rcases mem_scan_of_mem_tableRequests hr with ⟨p, hp, _⟩
  rcases exists_target hp with ⟨target, hrequests⟩
  rcases (hrequests r).mp ⟨hr, rfl⟩ with ⟨m, _, hrm⟩
  rcases (hrequests q).mp ⟨hq, heq⟩ with ⟨m', _, hqm⟩
  rw [hrm] at htarget
  rw [hqm]
  exact htarget

/-- Either no marker of a paragraph has a table, or all of them are taken out. -/
theorem erasedFrom_tableRequests {blocks : List Block} {a : Address} {p : Paragraph}
    (hp : paragraphAt? blocks a = some p) :
    (∀ r ∈ tableRequests blocks, r.paragraph = a → r.target = none) ∨
      ∀ literal, literal ∈ erasedFrom a (tableRequests blocks) ↔
        literal ∈ (scan .table p.text).map Marker.literal := by
  rcases exists_target hp with ⟨target, htarget⟩
  cases target with
  | none =>
      refine Or.inl fun r hr hra => ?_
      rcases (htarget r).mp ⟨hr, hra⟩ with ⟨m, _, rfl⟩
      rfl
  | some target =>
      refine Or.inr fun literal => ?_
      rw [erasedFrom, List.mem_map, List.mem_map]
      constructor
      · intro h
        rcases h with ⟨r, hr, rfl⟩
        rcases List.mem_filter.mp hr with ⟨hr, hcond⟩
        rw [Bool.and_eq_true, decide_eq_true_eq] at hcond
        rcases (htarget r).mp ⟨hr, hcond.1⟩ with ⟨m, hm, rfl⟩
        exact ⟨m, hm, rfl⟩
      · intro h
        rcases h with ⟨m, hm, rfl⟩
        have hr := (htarget ⟨m, a, some target⟩).mpr ⟨m, hm, rfl⟩
        refine ⟨_, List.mem_filter.mpr ⟨hr.1, ?_⟩, rfl⟩
        rw [decide_eq_true rfl, Option.isSome_some, Bool.and_self]

/-! ### Steps -/

section

variable {ι : Type} [DecidableEq ι]

/-- Changing the paragraph with an identity shows in the nodes with that identity. -/
theorem nodeAt?_changeInBlocks_mapParagraph {tree : List (TrackedBlock ι)} {i : ι}
    (only : ∀ a b c d, trackedAt? tree a = some c → trackedAt? tree b = some d →
      c.id = some i → d.id = some i → a = b) (f : Paragraph → Paragraph) (b : Address) :
    nodeAt? (changeInBlocks i (.mapParagraph f) tree) b = (nodeAt? tree b).map fun n =>
      if n.id = some i then { n with paragraph := n.paragraph.map f } else n := by
  -- The identity stands at one address, or it stands nowhere and nothing is changed.
  by_cases h : ∃ a c, trackedAt? tree a = some c ∧ c.id = some i
  · rcases h with ⟨a, c, hc, hid⟩
    rw [changeInBlocks_eq_modifyTrackedAt _ hc hid fun b d hd hdi => only b a d c hd hc hdi hid,
      nodeAt?_mapParagraph]
    cases hb : trackedAt? tree b with
    | none => rw [nodeAt?, hb, Option.map_none, Option.map_none, Option.map_none]
    | some d =>
        rw [nodeAt?, hb, Option.map_some, Option.map_some, Option.map_some, TrackedBlock.id_node]
        by_cases hdi : d.id = some i
        · rw [if_pos hdi, if_pos (only b a d c hb hc hdi hid)]
        · have hba : b ≠ a := by
            rintro rfl
            rw [hc, Option.some.injEq] at hb
            exact hdi (hb ▸ hid)
          rw [if_neg hdi, if_neg hba]
  · have hne : ∀ a c, trackedAt? tree a = some c → c.id ≠ some i :=
      fun a c hc hid => h ⟨a, c, hc, hid⟩
    rw [changeInBlocks_of_forall_ne _ hne]
    cases hb : trackedAt? tree b with
    | none => rw [nodeAt?, hb, Option.map_none, Option.map_none]
    | some d =>
        rw [nodeAt?, hb, Option.map_some, Option.map_some, TrackedBlock.id_node,
          if_neg (hne b d hb)]

theorem exists_of_tableOf?_eq_some {tree : List (TrackedBlock ι)} {i : ι} {t : TrackedTable ι}
    (h : tableOf? i tree = some t) : ∃ a, trackedAt? tree a = some (.table (some i) t) := by
  rcases List.exists_of_findSome?_eq_some h with ⟨b, hb, ht⟩
  cases b with
  | paragraph id p => exact absurd ht (by simp only [reduceCtorEq, not_false_eq_true])
  | table id u =>
      simp only [Option.ite_none_right_eq_some, Option.some.injEq] at ht
      rcases ht with ⟨rfl, rfl⟩
      exact mem_allInBlocks_iff.mp hb

end

namespace TablePass

variable {origin : List Block} {s : State} {tree : List (TrackedBlock Address)}
  {data : Element} {options : Options}

theorem Tracks.only (h : Tracks origin s tree) (i : Address) :
    ∀ a b c d, trackedAt? tree a = some c → trackedAt? tree b = some d →
      c.id = some i → d.id = some i → a = b :=
  fun _ _ c d ha hb hc hd => h.address_unique ⟨c, ha, hc, rfl⟩ ⟨d, hb, hd, rfl⟩

/-- What stands in the tree after a fill stood there before, or is in a new row. -/
theorem nodeAt?_of_fill (h : Tracks origin s tree) {path : String} {i a : Address}
    {populated : Nat} {n : Node Address}
    (hn : nodeAt? (TableReference.fill data options path i ⟨tree, populated⟩).tree a = some n) :
    (∃ b, nodeAt? tree b = some n) ∨ n.IsFresh (data.listAt path) := by
  rw [TableReference.fill] at hn
  cases hfill : (tableOf? i tree).bind (TrackedTable.fill options (data.listAt path)) with
  | none =>
      simp only [hfill] at hn
      exact Or.inl ⟨a, hn⟩
  | some t' =>
      simp only [hfill] at hn
      rcases Option.bind_eq_some_iff.mp hfill with ⟨t, ht, hfill⟩
      rcases exists_of_tableOf?_eq_some ht with ⟨b, hb⟩
      rw [changeInBlocks_eq_modifyTrackedAt _ hb rfl fun c d hc hd => h.only i c b d _ hc hb hd rfl,
        nodeAt?_fill hfill hb] at hn
      rcases hn with ⟨c, hc, _⟩ | ⟨hfresh, _⟩
      · exact Or.inl ⟨c, hc⟩
      · exact Or.inr hfresh

-- With the table or without it, there is a state that the tree is the body of.
theorem exists_tracks_fill (h : Tracks origin s tree) {path : String} {i : Address}
    (hi : (blockAt? origin i).map Block.kind = some .table) (populated : Nat) :
    ∃ s', Tracks origin s' (TableReference.fill data options path i ⟨tree, populated⟩).tree := by
  cases hfollow : Shift.follow s.shifts i with
  | some a => exact ⟨_, (tracks_fillAt h hi hfollow data options path populated).1⟩
  | none =>
      have hnone : tableOf? i tree = none :=
        tableOf?_eq_none fun b => h.not_located hfollow b .table
      rw [TableReference.fill, hnone, Option.bind_none]
      exact ⟨s, h⟩

/-- What honouring a binding leaves. -/
theorem isLeft_honour (h : Tracks origin s tree) {r : TableRequest} (hr : r.Sound origin)
    {done : List TableRequest} {populated : Nat}
    (hleft : ∀ a n, nodeAt? tree a = some n → n.IsLeft origin data done) {a : Address}
    {n : Node Address}
    (hn : nodeAt? (TableReference.honour data options ⟨tree, populated⟩ r.binding).tree a =
      some n) : n.IsLeft origin data (done ++ [r]) := by
  cases htarget : r.target with
  | none =>
      have hsame : TableReference.honour data options ⟨tree, populated⟩ r.binding =
          ⟨tree, populated⟩ := by
        rw [TableReference.honour, TableRequest.binding, htarget]
      rw [hsame] at hn
      refine (hleft a n hn).concat fun hr => ?_
      rw [htarget, Option.isSome_none] at hr
      exact Bool.false_ne_true hr.2
  | some target =>
      have hsome : r.target.isSome = true := by rw [htarget, Option.isSome_some]
      have hhonour : (TableReference.honour data options ⟨tree, populated⟩ r.binding).tree =
          changeInBlocks r.paragraph (.mapParagraph (eraseLiteral r.marker.literal))
            (TableReference.fill data options r.marker.path target ⟨tree, populated⟩).tree := by
        rw [TableReference.honour, TableRequest.binding, htarget]
        dsimp only
        rw [TableReference.erase_eq]
      have hfill : ∃ s', Tracks origin s' (TableReference.fill data options r.marker.path target
          ⟨tree, populated⟩).tree := exists_tracks_fill h (hr.target target htarget) populated
      rcases hfill with ⟨s', hs'⟩
      rw [hhonour, nodeAt?_changeInBlocks_mapParagraph (hs'.only r.paragraph)] at hn
      rcases Option.map_eq_some_iff.mp hn with ⟨m, hm, rfl⟩
      rcases nodeAt?_of_fill h hm with ⟨b, hb⟩ | hfresh
      · -- It was there before the fill, and loses the marker if it is the paragraph.
        by_cases hid : m.id = some r.paragraph
        · rw [if_pos hid]
          exact (hleft b m hb).erase hid hsome
        · rw [if_neg hid]
          exact (hleft b m hb).concat fun hr => hid hr.1
      · -- It came with the fill, and has no identity to be found by.
        have hid : m.id ≠ some r.paragraph := by
          rw [hfresh.1]
          exact (Option.some_ne_none r.paragraph).symm
        rw [if_neg hid]
        exact hfresh.isLeft origin done

/-- What honouring bindings in turn leaves. -/
theorem isLeft_honourAll (h : Tracks origin s tree) {l : List TableRequest}
    (hl : ∀ r ∈ l, r.Sound origin) {done : List TableRequest} {populated : Nat}
    (hleft : ∀ a n, nodeAt? tree a = some n → n.IsLeft origin data done) {a : Address}
    {n : Node Address}
    (hn : nodeAt? (TableReference.honourAll data options ⟨tree, populated⟩
      (l.map TableRequest.binding)).tree a = some n) : n.IsLeft origin data (done ++ l) := by
  induction l generalizing s tree done populated with
  | nil =>
      rw [List.append_nil]
      exact hleft a n hn
  | cons r rest ih =>
      have hr := hl r List.mem_cons_self
      have hstep := (tracks_step h hr data options populated).1
      have hrest := ih hstep (fun x hx => hl x (List.mem_cons_of_mem r hx))
        (fun b m hm => isLeft_honour h hr hleft hm) hn
      rw [List.append_assoc, List.singleton_append] at hrest
      exact hrest

/-! ### Runs -/

/-- What the table pass shifts in all. -/
def finalShifts (data : Element) (options : Options) (blocks : List Block) : List Shift :=
  (steps data options ⟨blocks, []⟩ (tableRequests blocks)).value.shifts

/-- The tree that a run of the table pass comes to, with what is left in it. -/
theorem exists_tracks_run (data : Element) (options : Options) (blocks : List Block) :
    ∃ tree, Tracks blocks (steps data options ⟨blocks, []⟩ (tableRequests blocks)).value tree ∧
      ∀ a n, nodeAt? tree a = some n → n.IsLeft blocks data (tableRequests blocks) := by
  have hsound : ∀ r ∈ tableRequests blocks, r.Sound blocks :=
    fun _ hr => sound_of_mem_tableRequests hr
  refine ⟨_, (tracks_steps (tracks_trackBody blocks) hsound data options 0).1, fun a n hn => ?_⟩
  -- Before the first step each paragraph is what it was, with nothing taken out.
  have hstart : ∀ b m, nodeAt? (trackBody blocks) b = some m → m.IsLeft blocks data [] := by
    intro b m hm p hp
    rw [nodeAt?_trackBody] at hm
    rcases Option.map_eq_some_iff.mp hm with ⟨c, hc, rfl⟩
    rw [Block.paragraph?_eq_some_iff.mp hp] at hc
    exact Or.inl ⟨b, rfl, p, hc, rfl⟩
  exact isLeft_honourAll (tracks_trackBody blocks) hsound hstart hn

theorem value_run (data : Element) (options : Options) (blocks : List Block) :
    (run data options blocks).value =
      (steps data options ⟨blocks, []⟩ (tableRequests blocks)).value.blocks := rfl

/-- Each paragraph after the pass was there before, or is in a new row. -/
theorem exists_of_paragraphAt?_run {data : Element} {options : Options} {blocks : List Block}
    {a : Address} {p : Paragraph}
    (h : paragraphAt? (run data options blocks).value a = some p) :
    (∃ i, Shift.follow (finalShifts data options blocks) i = some a ∧
        IsOriginal blocks (tableRequests blocks) i p) ∨ IsNew data (tableRequests blocks) p := by
  rcases exists_tracks_run data options blocks with ⟨tree, htracks, hleft⟩
  rw [value_run, ← htracks.blocks, paragraphAt?_eq_some_iff, blockAt?_forgetBlocks] at h
  rcases Option.map_eq_some_iff.mp h with ⟨c, hc, hp⟩
  cases c with
  | table id t =>
      rw [TrackedBlock.forget_table] at hp
      exact absurd hp (by simp only [reduceCtorEq, not_false_eq_true])
  | paragraph id q =>
      rw [TrackedBlock.forget, Block.paragraph.injEq] at hp
      subst hp
      have hn : nodeAt? tree a = some ⟨id, some q⟩ := by
        rw [nodeAt?, hc, Option.map_some, TrackedBlock.node]
      rcases hleft a _ hn q rfl with ⟨i, hid, horiginal⟩ | ⟨_, hnew⟩
      · exact Or.inl ⟨i, ((htracks.located a i .paragraph).mp ⟨_, hc, hid, rfl⟩).2, horiginal⟩
      · exact Or.inr hnew

/-- A paragraph that is not lost is there after the pass, without what was taken out. -/
theorem paragraphAt?_run_of_follow {data : Element} {options : Options} {blocks : List Block}
    {i a : Address} {p₀ : Paragraph} (hi : blockAt? blocks i = some (.paragraph p₀))
    (ha : Shift.follow (finalShifts data options blocks) i = some a) :
    paragraphAt? (run data options blocks).value a =
      some (eraseLiterals (erasedFrom i (tableRequests blocks)) p₀) := by
  rcases exists_tracks_run data options blocks with ⟨tree, htracks, hleft⟩
  have hloc := (htracks.located a i .paragraph).mpr ⟨by rw [hi, Option.map_some]; rfl, ha⟩
  rcases located_paragraph_iff.mp hloc with ⟨p, hp⟩
  have hn : nodeAt? tree a = some ⟨some i, some p⟩ := by
    rw [nodeAt?, hp, Option.map_some, TrackedBlock.node]
  rw [value_run, ← htracks.blocks, paragraphAt?_eq_some_iff, blockAt?_forgetBlocks, hp,
    Option.map_some, TrackedBlock.forget, Option.some.injEq, Block.paragraph.injEq]
  rcases hleft a _ hn p rfl with ⟨j, hid, p₁, hp₁, rfl⟩ | ⟨hid, _⟩
  · simp only [Option.some.injEq] at hid
    rw [← hid, hi, Option.some.injEq, Block.paragraph.injEq] at hp₁
    rw [← hid, hp₁]
  · exact absurd hid (by simp only [reduceCtorEq, not_false_eq_true])

end TablePass

end MailMerge
