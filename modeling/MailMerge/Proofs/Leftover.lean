import MailMerge.Proofs.Reach
import MailMerge.Proofs.Shadowing
import MailMerge.Proofs.TidyParagraph

/-!
# What a Strict Merge Leaves

Whether a strict merge that comes through leaves markers where it could have replaced
them. Three mechanisms take markers out of texts: the table pass takes out literals, the
content pass replaces literals, and splitting a paragraph uses literals up. The first two
treat every occurrence. The third gives a table to each literal once, so that a literal
that is repeated in a paragraph is left in the text.

In tidy templates with tidy data this is the only way to leave a marker. It takes a
paragraph that no table follows, that is within reach of the content pass, and that did
not go away with a template row. Splitting it uses up one marker for each of its
literals. If they differ this is all of them. If not then some marker is left over, and
as it is not blank it is not dropped with the stretch of text that it is in.

## Main definitions

* `TableRequest.isSplit`: Whether a paragraph will be split for a marker.

## Theorems

* `hasMarkers_of_mem_interleave`, `exists_hasMarkers_interleave`: Splitting around
  different literals, and around too few.
* `hasMarkers_of_mem_expand`, `exists_hasMarkers_expand`: The same for a paragraph.
* `hasMarkers_reached_iff`: What a strict merge leaves.
-/

namespace MailMerge

open Text (isBlank)

/-! ### Literals that are kept once -/

namespace Marker

-- Different literals are all kept.
theorem distinct_eq_self {l : List Marker} (h : (l.map literal).Nodup) : distinct l = l := by
  induction l with
  | nil => rfl
  | cons m l ih =>
      rw [List.map_cons, List.nodup_cons] at h
      rw [distinct, ih h.2, List.filter_eq_self.mpr]
      intro other hother
      rw [decide_eq_true_eq]
      intro heq
      exact h.1 (heq ▸ List.mem_map_of_mem hother)

-- Of literals that are repeated some are not.
theorem length_distinct_lt {l : List Marker} (h : ¬ (l.map literal).Nodup) :
    (distinct l).length < l.length := by
  have hle := (distinct_sublist l).length_le
  have hne : (distinct l).length ≠ l.length := by
    intro heq
    have hnodup := nodup_literal_distinct l
    rw [(distinct_sublist l).eq_of_length heq] at hnodup
    exact h hnodup
  omega

end Marker

/-! ### Splitting -/

theorem literals_append (l m : List Segment) : literals (l ++ m) = literals l ++ literals m :=
  List.filterMap_append

theorem AllValid.of_append {l m : List Segment} (h : AllValid (l ++ m)) :
    AllValid l ∧ AllValid m :=
  ⟨fun s hs => h s (List.mem_append_left m hs), fun s hs => h s (List.mem_append_right l hs)⟩

theorem splitSegments?_eq_some {t : List Char} {l before behind : List Segment}
    (h : splitSegments? t l = some (before, behind)) :
    ∃ s, s.text = t ∧ l = before ++ s :: behind ∧ ∀ x ∈ before, x.text ≠ t := by
  induction l generalizing before with
  | nil => exact absurd h (by simp only [splitSegments?, reduceCtorEq, not_false_eq_true])
  | cons s l ih =>
      rw [splitSegments?] at h
      by_cases hs : s.text = t
      · rw [if_pos hs, Option.some.injEq, Prod.mk.injEq] at h
        rcases h with ⟨rfl, rfl⟩
        exact ⟨s, hs, rfl, fun x hx => absurd hx List.not_mem_nil⟩
      · rw [if_neg hs] at h
        rcases Option.map_eq_some_iff.mp h with ⟨⟨before', behind'⟩, hrest, heq⟩
        simp only [Prod.mk.injEq] at heq
        rcases heq with ⟨rfl, rfl⟩
        rcases ih hrest with ⟨x, hx, rfl, hbefore⟩
        refine ⟨x, hx, rfl, fun y hy => ?_⟩
        rcases List.mem_cons.mp hy with rfl | hy
        · exact hs
        · exact hbefore y hy

theorem splitSegments?_eq_none {t : List Char} {l : List Segment}
    (h : splitSegments? t l = none) : ∀ s ∈ l, s.text ≠ t := by
  induction l with
  | nil => exact fun s hs => absurd hs List.not_mem_nil
  | cons s l ih =>
      rw [splitSegments?] at h
      by_cases hs : s.text = t
      · rw [if_pos hs] at h
        exact absurd h (by simp only [reduceCtorEq, not_false_eq_true])
      · rw [if_neg hs, Option.map_eq_none_iff] at h
        intro x hx
        rcases List.mem_cons.mp hx with rfl | hx
        · exact hs
        · exact ih h x hx

-- A segment with the text of a literal is a marker with this literal.
theorem Segment.literal?_eq_some {kind : Marker.Kind} {literal : String} {path : List Char}
    (hliteral : Marker.IsLiteral kind literal.toList path) {s : Segment} (hvalid : s.Valid)
    (h : s.text = literal.toList) : s.literal? = some literal := by
  cases s with
  | plain c =>
      rcases hliteral.exists_cons with ⟨behind, hcons⟩
      rw [hcons, Segment.text, List.cons.injEq] at h
      exact absurd h.1 hvalid
  | marker kind' literal' path' =>
      rw [Segment.text] at h
      rw [Segment.literal?, h, String.ofList_toList]

theorem mem_literals_iff {literal : String} {l : List Segment} :
    literal ∈ literals l ↔ ∃ s ∈ l, s.literal? = some literal :=
  List.mem_filterMap

theorem Segment.text_of_literal? {s : Segment} {literal : String}
    (h : s.literal? = some literal) : s.text = literal.toList := by
  cases s with
  | plain c => exact absurd h (by simp only [Segment.literal?, reduceCtorEq, not_false_eq_true])
  | marker kind literal' path =>
      rw [Segment.literal?, Option.some.injEq] at h
      rw [Segment.text, ← h, String.toList_ofList]

/-- Splitting at the first literal of a text uses up its first marker. -/
theorem exists_splitSegments? {l : List Segment} (hvalid : AllValid l) {kind : Marker.Kind}
    {literal : String} {path : List Char} (hliteral : Marker.IsLiteral kind literal.toList path)
    {rest : List String} (h : literals l = literal :: rest) :
    ∃ before behind, splitSegments? literal.toList l = some (before, behind) ∧
      AllValid before ∧ AllValid behind ∧ literals before = [] ∧ literals behind = rest := by
  cases hsplit : splitSegments? literal.toList l with
  | none =>
      have hmem : literal ∈ literals l := h ▸ List.mem_cons_self
      rcases mem_literals_iff.mp hmem with ⟨s, hs, htext⟩
      exact absurd (Segment.text_of_literal? htext) (splitSegments?_eq_none hsplit s hs)
  | some parts =>
      rcases parts with ⟨before, behind⟩
      rcases splitSegments?_eq_some hsplit with ⟨s, hs, rfl, hbefore⟩
      have hparts := hvalid.of_append
      have hsome := Segment.literal?_eq_some hliteral (hparts.2 s List.mem_cons_self) hs
      have hcons : literals (s :: behind) = literal :: literals behind := by
        rw [literals, List.filterMap_cons, hsome]
        rfl
      rw [literals_append, hcons] at h
      -- A marker before that would be the first one, and its text is another one.
      have hnone : literals before = [] := by
        cases hfirst : literals before with
        | nil => rfl
        | cons x xs =>
            rw [hfirst, List.cons_append, List.cons.injEq] at h
            have hmem : x ∈ literals before := hfirst ▸ List.mem_cons_self
            rcases mem_literals_iff.mp hmem with ⟨y, hy, hyx⟩
            rw [h.1] at hyx
            exact absurd (Segment.text_of_literal? hyx) (hbefore y hy)
      rw [hnone, List.nil_append, List.cons.injEq] at h
      exact ⟨before, behind, rfl, hparts.1, hparts.2.of_cons, hnone, h.2⟩

/-- A stretch of text becomes no more than a paragraph with its markers. -/
theorem hasMarkers_of_mem_fragment {l : List Segment} (hvalid : AllValid l)
    (h : literals l = []) {b : Block} (hb : b ∈ fragment (render l)) :
    ∃ p, b = .paragraph p ∧ hasMarkers p.text = false := by
  rw [fragment] at hb
  split at hb
  · exact absurd hb List.not_mem_nil
  · refine ⟨_, List.mem_singleton.mp hb, ?_⟩
    have hreads : ReadsAs (Paragraph.ofText (String.ofList (render l))).text l :=
      ⟨hvalid, by rw [Paragraph.text_ofText, String.toList_ofList]⟩
    exact hreads.hasMarkers_eq_false_iff.mpr h

/-- A stretch of text with markers is not blank, so it becomes a paragraph. -/
theorem exists_mem_fragment {l : List Segment} (hvalid : AllValid l) (h : literals l ≠ []) :
    ∃ p, .paragraph p ∈ fragment (render l) ∧ hasMarkers p.text = true := by
  have hblank : ¬ (render l).all isBlank = true :=
    fun hblank => h (literals_eq_nil_of_isBlank hvalid hblank)
  refine ⟨.ofText (String.ofList (render l)), ?_, ?_⟩
  · rw [fragment, if_neg hblank]
    exact List.mem_singleton_self _
  · have hreads : ReadsAs (Paragraph.ofText (String.ofList (render l))).text l :=
      ⟨hvalid, by rw [Paragraph.text_ofText, String.toList_ofList]⟩
    rw [← Bool.not_eq_false, hreads.hasMarkers_eq_false_iff]
    exact h

/-- Splitting a text around the literals that it has leaves no marker. -/
theorem hasMarkers_of_mem_interleave {tables : List (String × Table)} {l : List Segment}
    (hvalid : AllValid l)
    (hliteral : ∀ t ∈ tables, ∃ kind path, Marker.IsLiteral kind t.1.toList path)
    (h : literals l = tables.map Prod.fst) {b : Block} (hb : b ∈ interleave (render l) tables) :
    (∃ p, b = .paragraph p ∧ hasMarkers p.text = false) ∨ ∃ t ∈ tables, b = .table t.2 := by
  induction tables generalizing l with
  | nil => exact Or.inl (hasMarkers_of_mem_fragment hvalid h hb)
  | cons t tables ih =>
      rcases t with ⟨literal, table⟩
      rcases hliteral _ List.mem_cons_self with ⟨kind, path, hfirst⟩
      rcases exists_splitSegments? hvalid hfirst h with
        ⟨before, behind, hsplit, hbefore, hbehind, hnone, hrest⟩
      rw [interleave, splitAtFirst?_render hfirst hvalid, hsplit, Option.map_some] at hb
      rcases List.mem_append.mp hb with hb | hb
      · exact Or.inl (hasMarkers_of_mem_fragment hbefore hnone hb)
      · rcases List.mem_cons.mp hb with rfl | hb
        · exact Or.inr ⟨_, List.mem_cons_self, rfl⟩
        · have hlater := ih hbehind (fun x hx => hliteral x (List.mem_cons_of_mem _ hx)) hrest hb
          refine hlater.imp_right fun hmem => ?_
          rcases hmem with ⟨x, hx, hxb⟩
          exact ⟨x, List.mem_cons_of_mem _ hx, hxb⟩

/-- Splitting a text around fewer literals than it has markers leaves one. -/
theorem exists_hasMarkers_interleave {tables : List (String × Table)} {l : List Segment}
    (hvalid : AllValid l)
    (hliteral : ∀ t ∈ tables, ∃ kind path, Marker.IsLiteral kind t.1.toList path)
    (h : tables.length < (literals l).length) :
    ∃ p, .paragraph p ∈ interleave (render l) tables ∧ hasMarkers p.text = true := by
  induction tables generalizing l with
  | nil => exact exists_mem_fragment hvalid (List.ne_nil_of_length_pos h)
  | cons t tables ih =>
      rcases t with ⟨literal, table⟩
      rcases hliteral _ List.mem_cons_self with ⟨kind, path, hfirst⟩
      have htables : ∀ x ∈ tables, ∃ kind path, Marker.IsLiteral kind x.1.toList path :=
        fun x hx => hliteral x (List.mem_cons_of_mem _ hx)
      rw [List.length_cons] at h
      rw [interleave, splitAtFirst?_render hfirst hvalid]
      cases hsplit : splitSegments? literal.toList l with
      | none =>
          -- The literal is not there, so there are still too few to look for.
          rw [Option.map_none]
          exact ih hvalid htables (by omega)
      | some parts =>
          rcases parts with ⟨before, behind⟩
          rcases splitSegments?_eq_some hsplit with ⟨s, _, rfl, _⟩
          have hparts := hvalid.of_append
          rw [Option.map_some]
          by_cases hnone : literals before = []
          · -- The marker that was used up is the only one that is not behind.
            have hcons : (literals (s :: behind)).length ≤ (literals behind).length + 1 := by
              rw [literals, List.filterMap_cons]
              split
              · exact Nat.le_succ _
              · exact Nat.le_refl _
            rw [literals_append, hnone, List.nil_append] at h
            rcases ih hparts.2.of_cons htables (by omega) with ⟨p, hp, hmarkers⟩
            exact ⟨p, List.mem_append_right _ (List.mem_cons_of_mem _ hp), hmarkers⟩
          · rcases exists_mem_fragment hparts.1 hnone with ⟨p, hp, hmarkers⟩
            exact ⟨p, List.mem_append_left _ hp, hmarkers⟩

/-! ### Generated tables -/

theorem hasMarkers_of_notMem {text : String} (h : '<' ∉ text.toList) : hasMarkers text = false :=
  (readsAs_plains h).hasMarkers_eq_false_iff.mpr (literals_plains text.toList)

/-- A table that is generated from tidy data has no markers. -/
theorem hasMarkers_of_mem_ofElements {options : Options} {elements : List Element}
    (h : ∀ e ∈ elements, e.Avoids '<') {q : Paragraph}
    (hq : q ∈ (Block.table (Table.ofElements options elements)).reached) :
    hasMarkers q.text = false := by
  have hcell : ∀ properties text, .paragraph q ∈ (Cell.ofText properties text).blocks →
      '<' ∉ text.toList → hasMarkers q.text = false := by
    intro properties text hmem htext
    simp only [Cell.ofText, List.mem_singleton, Block.paragraph.injEq] at hmem
    rw [hmem, Paragraph.text_ofText]
    exact hasMarkers_of_notMem htext
  rcases mem_reached_table.mp hq with ⟨r, hr, c, hc, hb⟩
  cases elements with
  | nil => exact absurd hr List.not_mem_nil
  | cons first rest =>
      rcases List.mem_cons.mp hr with rfl | hr
      · -- The header says what the columns are called.
        rcases List.mem_map.mp hc with ⟨name, hname, rfl⟩
        exact hcell _ name hb ((h first List.mem_cons_self).of_mem_columns hname)
      · rcases List.mem_map.mp hr with ⟨e, he, rfl⟩
        rcases List.mem_map.mp hc with ⟨text, htext, rfl⟩
        rcases List.mem_map.mp htext with ⟨name, _, rfl⟩
        have havoids := Element.notMem_text_of_avoids (h e he)
        exact hcell _ _ hb (Element.notMem_textUnder havoids name)

/-! ### Expanding a paragraph -/

namespace ContentPass

variable {data : Element} {options : Options} {p : Paragraph}

theorem value_expand_of_eq_nil (h : scan .table (substitute data p).value.text = []) :
    (expand data options p).value = [.paragraph (substitute data p).value] := by
  rw [expand, Reported.value_bind, h]
  rfl

theorem value_expand_of_ne_nil (h : scan .table (substitute data p).value.text ≠ []) :
    (expand data options p).value = interleave (substitute data p).value.text.toList
      ((Marker.distinct (scan .table (substitute data p).value.text)).map fun m =>
        (m.literal, Table.ofElements options (data.listAt m.path))) := by
  rw [expand, Reported.value_bind]
  cases hscan : scan .table (substitute data p).value.text with
  | nil => exact absurd hscan h
  | cons m rest =>
      exact value_splitAround _ _ _ _

/-- A paragraph with different table markers becomes blocks without markers. -/
theorem hasMarkers_of_mem_expand {l : List Segment} (h : ReadsAs p.text l)
    (hdata : data.Avoids '<') (hnodup : ((scan .table p.text).map Marker.literal).Nodup)
    {b : Block} (hb : b ∈ (expand data options p).value) {q : Paragraph} (hq : q ∈ b.reached) :
    hasMarkers q.text = false := by
  rcases h.substitute (fun m _ => hdata.textAt m.path) with ⟨l', h', hcontent, htable⟩
  have hliterals : (scan .table (substitute data p).value.text).map Marker.literal =
      literals l' := by
    rw [h'.map_literal_scan, map_fst_asked hcontent]
  by_cases hscan : scan .table (substitute data p).value.text = []
  · rw [value_expand_of_eq_nil hscan, List.mem_singleton] at hb
    rw [hb, Block.reached, List.mem_singleton] at hq
    rw [hscan, List.map_nil] at hliterals
    rw [hq]
    exact h'.hasMarkers_eq_false_iff.mpr hliterals.symm
  · have hsame : Marker.distinct (scan .table (substitute data p).value.text) =
        scan .table (substitute data p).value.text := by
      refine Marker.distinct_eq_self ?_
      rw [h'.map_literal_scan, htable, ← h.map_literal_scan]
      exact hnodup
    rw [value_expand_of_ne_nil hscan, hsame, h'.text_eq] at hb
    have hsplit := hasMarkers_of_mem_interleave h'.valid (fun t ht => by
      rcases List.mem_map.mp ht with ⟨m, hm, rfl⟩
      exact ⟨_, _, h'.isLiteral_of_mem_scan hm⟩) (by rw [← hliterals, List.map_map]; rfl) hb
    rcases hsplit with ⟨p', rfl, hp'⟩ | ⟨t, ht, rfl⟩
    · rw [Block.reached, List.mem_singleton] at hq
      rw [hq]
      exact hp'
    · rcases List.mem_map.mp ht with ⟨m, _, rfl⟩
      dsimp only at hq
      exact hasMarkers_of_mem_ofElements (fun e he => hdata.of_mem_listAt he) hq

/-- A paragraph that repeats a table marker leaves one. -/
theorem exists_hasMarkers_expand {l : List Segment} (h : ReadsAs p.text l)
    (hdata : data.Avoids '<') (hrepeated : ¬ ((scan .table p.text).map Marker.literal).Nodup) :
    ∃ q, .paragraph q ∈ (expand data options p).value ∧ hasMarkers q.text = true := by
  rcases h.substitute (fun m _ => hdata.textAt m.path) with ⟨l', h', hcontent, htable⟩
  have hliterals : (scan .table (substitute data p).value.text).map Marker.literal =
      literals l' := by
    rw [h'.map_literal_scan, map_fst_asked hcontent]
  rw [h.map_literal_scan, ← htable, ← h'.map_literal_scan] at hrepeated
  have hlt := Marker.length_distinct_lt hrepeated
  have hscan : scan .table (substitute data p).value.text ≠ [] := by
    intro hnil
    rw [hnil] at hrepeated
    exact hrepeated List.nodup_nil
  rw [value_expand_of_ne_nil hscan, h'.text_eq]
  refine exists_hasMarkers_interleave h'.valid (fun t ht => ?_) ?_
  · rcases List.mem_map.mp ht with ⟨m, hm, rfl⟩
    exact ⟨_, _, h'.isLiteral_of_mem_scan (Marker.mem_of_mem_distinct hm)⟩
  · rw [List.length_map, ← hliterals, List.length_map]
    exact hlt

end ContentPass

/-! ### Strict merges -/

/-- Whether the paragraph of a request comes to be split for it: no table follows, the
    content pass gets there, and no fill takes the paragraph away. -/
def TableRequest.isSplit (data : Element) (all : List TableRequest) (r : TableRequest) : Bool :=
  r.target.isNone && decide (r.paragraph.steps.length ≤ 1) &&
    !all.any fun q => q.isHonourable data && q.takesAway r.paragraph

theorem TableRequest.isSplit_iff {data : Element} {all : List TableRequest} {r : TableRequest} :
    r.isSplit data all = true ↔ r.target = none ∧ r.paragraph.steps.length ≤ 1 ∧
      (all.any fun q => q.isHonourable data && q.takesAway r.paragraph) = false := by
  rw [TableRequest.isSplit, Bool.and_eq_true, Bool.and_eq_true, Option.isNone_iff_eq_none,
    decide_eq_true_eq, Bool.not_eq_true', and_assoc]

/-- What a strict merge that comes through leaves within its reach, all data and texts
    being tidy: no marker, exactly if no paragraph that is split repeats one. -/
theorem hasMarkers_reached_iff {options : Options} {data : Element} {d out : Document}
    {blocks : List Block} {report : Report} (body : d.body = some blocks)
    (strict : options.strict = true) (ok : mergeWith options data d = .ok (out, report))
    (tidy : IsTidyBody blocks) (hdata : data.Avoids '<') :
    (∀ q ∈ reached (out.body.getD []), hasMarkers q.text = false) ↔
      ∀ r ∈ tableRequests blocks, r.isSplit data (tableRequests blocks) = true →
        ∀ p, paragraphAt? blocks r.paragraph = some p →
          ((scan .table p.text).map Marker.literal).Nodup := by
  rcases mergeWith_eq_ok_iff.mp ok with ⟨blocks', hbody, rfl, rfl, hclean⟩
  rw [body, Option.some.injEq] at hbody
  subst hbody
  have hsteps := TablePass.isClean_steps_of_passes (hclean strict)
  -- Nothing is lost in the table pass but what the fills take away.
  have hkeeps : ∀ u, (Shift.follow (TablePass.finalShifts data options blocks) u).isSome =
      !(tableRequests blocks).any fun q => q.isHonourable data && q.takesAway u := by
    intro u
    have hlost := TablePass.keeps_steps_of_isClean (TablePass.tracks_trackBody blocks)
      (fun _ hr => sound_of_mem_tableRequests hr) hsteps u
    rw [Shift.keeps, Shift.keeps, Shift.follow, Option.isSome_some, Bool.true_and] at hlost
    exact hlost
  rw [Option.getD_some, passes, Reported.value_bind]
  constructor
  · intro hnone r hr hsplit p hp
    rcases TableRequest.isSplit_iff.mp hsplit with ⟨htarget, hlen, hkept⟩
    have hsome := hkeeps r.paragraph
    rw [hkept, Bool.not_false] at hsome
    rcases Option.isSome_iff_exists.mp hsome with ⟨a, ha⟩
    -- The paragraph is there after the table pass, as it was, and within reach.
    have hat := TablePass.paragraphAt?_run_of_follow (paragraphAt?_eq_some_iff.mp hp) ha
    rw [erasedFrom_eq_nil fun q hq heq => target_eq_none_of_paragraph_eq hr htarget hq heq] at hat
    have hreached := mem_reached_iff.mpr ⟨a, by rw [Shift.length_of_follow ha]; exact hlen, hat⟩
    rcases (tidy _ _ hp).exists_readsAs with ⟨l, hl⟩
    by_contra hrepeated
    rcases ContentPass.exists_hasMarkers_expand hl hdata hrepeated with ⟨q, hq, hmarkers⟩
    have hfalse := hnone q (ContentPass.mem_reached_run hreached hq)
    rw [hmarkers] at hfalse
    exact Bool.false_ne_true hfalse.symm
  · intro hnodup q hq
    rcases ContentPass.exists_of_mem_reached_run hq with ⟨p, hp, b, hb, hqb⟩
    rcases mem_reached_iff.mp hp with ⟨a, hlen, ha⟩
    rcases TablePass.exists_readsAs_run tidy (fun m _ => hdata.textAt m.path) ha with
      ⟨l, hl, _, htable⟩
    refine ContentPass.hasMarkers_of_mem_expand hl hdata ?_ hb hqb
    rcases htable with hnone | ⟨i, hi, hpi, htarget⟩
    · rw [hl.map_literal_scan, hnone]
      exact List.nodup_nil
    · -- It was there before, and holds what it held. If that is nothing, nothing repeats.
      cases hscan : scan .table p.text with
      | nil => exact List.nodup_nil
      | cons m rest =>
          -- Any of the markers is a request for which the paragraph is split.
          rcases exists_target hpi with ⟨target, hrequests⟩
          have hmem : m ∈ scan .table p.text := hscan ▸ List.mem_cons_self
          have hr := (hrequests ⟨m, i, target⟩).mpr ⟨m, hmem, rfl⟩
          have hsplit : TableRequest.isSplit data (tableRequests blocks) ⟨m, i, target⟩ = true := by
            refine TableRequest.isSplit_iff.mpr ⟨htarget _ hr.1 rfl, ?_, ?_⟩
            · dsimp only
              rw [← Shift.length_of_follow hi]
              exact hlen
            · have hkept := hkeeps i
              rw [hi, Option.isSome_some] at hkept
              rw [← Bool.not_eq_true', ← hkept]
          rw [← hscan]
          exact hnodup _ hr.1 hsplit p hpi

/-- A template with a content marker and two different table markers in one paragraph. -/
def mixedMarkers : List Block :=
  [.paragraph (.ofText ("<# <Content Select=\"N\" /> #>:" ++
    "<# <Table Select=\"A\" /> #><# <Table Select=\"A/I\" /> #>"))]

/-- A template with one table marker twice in a paragraph. -/
def doubledMarker : List Block :=
  [.paragraph (.ofText "<# <Table Select=\"A\" /> #><# <Table Select=\"A\" /> #>")]

/-- A name and a single row. -/
def nameAndRow : Element :=
  ⟨"D", [.element ⟨"N", [.text "n"]⟩,
    .element ⟨"A", [.element ⟨"I", [.element ⟨"X", [.text "1"]⟩]⟩]⟩]⟩

theorem avoids_nameAndRow : nameAndRow.Avoids '<' := by
  simp [nameAndRow, Element.avoids_mk_iff]

/-- A strict merge of different markers comes through, and none of them is left. -/
theorem hasMarkers_reached_mixedMarkers :
    IsTidyBody mixedMarkers ∧ nameAndRow.Avoids '<' ∧
      ∃ out report, mergeWith { Options.default with strict := true } nameAndRow
          ⟨some mixedMarkers⟩ = .ok (out, report) ∧
        ∀ q ∈ reached (out.body.getD []), hasMarkers q.text = false := by
  have tidy : IsTidyBody mixedMarkers := by decide +kernel
  have hclean : (passes { Options.default with strict := true } nameAndRow
      mixedMarkers).report.isClean = true := by decide +kernel
  have ok := mergeWith_eq_ok_iff.mpr ⟨mixedMarkers, rfl, rfl, rfl, fun _ => hclean⟩
  have hnodup : ∀ r ∈ tableRequests mixedMarkers,
      r.isSplit nameAndRow (tableRequests mixedMarkers) = true →
        ∀ p ∈ paragraphAt? mixedMarkers r.paragraph,
          ((scan .table p.text).map Marker.literal).Nodup := by decide +kernel
  exact ⟨tidy, avoids_nameAndRow, _, _, ok,
    (hasMarkers_reached_iff rfl rfl ok tidy avoids_nameAndRow).mpr hnodup⟩

/-- A strict merge of a doubled marker comes through, and one of the two is left. -/
theorem strict_doubledMarker_leaves_one :
    IsTidyBody doubledMarker ∧ nameAndRow.Avoids '<' ∧
      ∃ out report, mergeWith { Options.default with strict := true } nameAndRow
          ⟨some doubledMarker⟩ = .ok (out, report) ∧
        ∃ q ∈ reached (out.body.getD []), hasMarkers q.text = true := by
  have hclean : (passes { Options.default with strict := true } nameAndRow
      doubledMarker).report.isClean = true := by decide +kernel
  have ok := mergeWith_eq_ok_iff.mpr ⟨doubledMarker, rfl, rfl, rfl, fun _ => hclean⟩
  exact ⟨by decide +kernel, avoids_nameAndRow, _, _, ok,
    .ofText "<# <Table Select=\"A\" /> #>", by decide +kernel, by decide +kernel⟩

end MailMerge
