import MailMerge.Proofs.Tidy

/-!
# The Grammar of Markers

What a marker looks like is told by a grammar: an opening, a path without a line break, and a
closing. The grammar says nothing about where a path ends. A path may hold quotes, and even a
whole closing, so several markers may begin at one place, one of them at the beginning of the
next. The recogniser takes the shortest. It tries each place in turn for the closing, and a
closing that begins before another one also ends before it.

The recogniser is also complete. Where a text of the grammar stands, its own closing is found at
the latest, as no line break comes before it. So nothing that is spelled like a marker is
passed over: a scan tries every place that no marker found before has taken. What it finds
are the leftmost markers, each the shortest at its place, and what is left over between them is
no place for a marker to begin.

## Main definitions

* `Marker.IsMarkerText`: The texts that are spelled like a marker, with their paths.

## Theorems

* `exists_path?_of_isClosing`: A path that can be closed ends at its closing at the latest.
* `IsMarkerText.exists_recognise`: What is spelled like a marker is found.
* `IsLiteral.length_le`: The literal is the shortest of the markers that begin at a place.
* `pairwise_ofPieces`: Markers stand one behind the other.
* `exists_mem_ofPieces_cut`: A place where a marker can begin is taken by one that was found.
* `scan_exact`: What a scan finds, and that it finds all there is.
-/

namespace MailMerge

open Text (Piece cut byteLength byteLength_append)

namespace Marker

/-- The texts that are spelled like a marker of a kind, each with a path that it may have. -/
def IsMarkerText (kind : Kind) (t path : List Char) : Prop :=
  ∃ o c, IsOpening kind o ∧ IsClosing c ∧ '\n' ∉ path ∧ t = o ++ (path ++ c)

theorem IsLiteral.isMarkerText {kind : Kind} {literal path : List Char}
    (h : IsLiteral kind literal path) : IsMarkerText kind literal path := by
  have hline := h.newline_notMem_path
  rcases h with ⟨o, c, ho, hc, hliteral, _⟩
  exact ⟨o, c, ho, hc, hline, hliteral⟩

/-- A path that can be closed ends at that closing at the latest. -/
theorem exists_path?_of_isClosing {path c : List Char} (hc : IsClosing c) (hline : '\n' ∉ path)
    (rest : List Char) :
    ∃ p r, path? (path ++ (c ++ rest)) = some (p, r) ∧ rest.length ≤ r.length := by
  induction path with
  | nil =>
      exact ⟨[], rest, path?_of_closing?_eq_some (closing?_eq_some_iff.mpr ⟨c, hc, rfl⟩),
        Nat.le_refl _⟩
  | cons x path ih =>
      rw [List.mem_cons, not_or] at hline
      cases hclosing : closing? (x :: path ++ (c ++ rest)) with
      | some r =>
          refine ⟨[], r, path?_of_closing?_eq_some hclosing, ?_⟩
          -- It ends within the path, and all of the later closing is left behind it.
          rcases closing?_eq_some_iff.mp hclosing with ⟨c', hc', heq⟩
          rcases hc.exists_append_eq (List.cons_ne_nil x path) hc' heq with ⟨between, hbetween⟩
          have hlen := congrArg List.length heq
          have hpath := congrArg List.length hbetween
          simp only [List.length_append] at hlen hpath
          omega
      | none =>
          rcases ih hline.2 with ⟨p, r, hpath, hle⟩
          refine ⟨x :: p, r, ?_, hle⟩
          rw [List.cons_append] at hclosing ⊢
          rw [path?, hclosing, if_neg (Ne.symm hline.1), hpath]
          rfl

/-- What is spelled like a marker is found, or a part of it is. -/
theorem IsMarkerText.exists_recognise {kind : Kind} {t path : List Char}
    (h : IsMarkerText kind t path) (rest : List Char) :
    ∃ f, recognise kind (t ++ rest) = some f ∧ f.beyond < t.length := by
  rcases h with ⟨o, c, ho, hc, hline, rfl⟩
  rcases exists_path?_of_isClosing hc hline rest with ⟨p, r, hpath, hle⟩
  have hopening : opening? kind (o ++ (path ++ c) ++ rest) = some (path ++ (c ++ rest)) := by
    refine opening?_eq_some_iff.mpr ⟨o, ho, ?_⟩
    simp only [List.append_assoc]
  refine ⟨⟨p, (o ++ (path ++ c) ++ rest).length - r.length - 1⟩, ?_, ?_⟩
  · simp only [recognise, hopening, Option.bind_eq_bind, Option.bind_some, hpath,
      Option.pure_def]
  · rcases hc.exists_cons with ⟨quote, behind, _, rfl, _⟩
    simp only [List.length_append, List.length_cons]
    omega

/-- The literal is the shortest of the markers of a kind that begin at a place. -/
theorem IsLiteral.length_le {kind : Kind} {literal path t path' rest rest' : List Char}
    (h : IsLiteral kind literal path) (ht : IsMarkerText kind t path')
    (heq : literal ++ rest = t ++ rest') : literal.length ≤ t.length := by
  rcases ht.exists_recognise rest' with ⟨f, hf, hlt⟩
  rw [← heq, recognise_append h rest, Option.some.injEq] at hf
  rw [← hf] at hlt
  exact Nat.le_of_pred_lt hlt

/-! ### Places -/

/-- Markers stand one behind the other. -/
theorem pairwise_ofPieces (kind : Kind) (offset : Nat) (l : List (Piece (List Char))) :
    (ofPieces kind offset l).Pairwise fun m later => m.stop ≤ later.start := by
  induction l generalizing offset with
  | nil => exact List.Pairwise.nil
  | cons piece l ih =>
      cases piece with
      | plain c => exact ih _
      | find text path => exact List.pairwise_cons.mpr ⟨fun _ => le_start_of_mem_ofPieces, ih _⟩

/-- A part of a text that ends within another part ends before the bytes of that one do. -/
theorem byteLength_lt_of_take {a b : List Char} {n : Nat} (hb : b ≠ []) (hn : a.length < n) :
    byteLength a < byteLength ((a ++ b).take n) := by
  cases b with
  | nil => exact absurd rfl hb
  | cons c b =>
      obtain ⟨k, rfl⟩ : ∃ k, n = a.length + (k + 1) := ⟨n - a.length - 1, by omega⟩
      have hpos := c.utf8Size_pos
      rw [List.take_length_add_append, List.take_succ_cons, byteLength_append, byteLength]
      omega

/-- A place where a marker can begin is taken by a marker that was found, be it that one or one
    that begins before it. -/
theorem exists_mem_ofPieces_cut {kind : Kind} {skip offset : Nat} {t a b : List Char}
    (ht : t = a ++ b) (hskip : skip ≤ a.length) (hb : recognise kind b ≠ none) :
    ∃ m ∈ ofPieces kind (offset + byteLength (t.take skip)) (cut (recognise kind) skip t),
      m.start ≤ offset + byteLength a ∧ offset + byteLength a < m.stop := by
  induction t generalizing skip offset a with
  | nil =>
      rw [(List.nil_eq_append_iff.mp ht).2] at hb
      exact absurd rfl hb
  | cons c t ih =>
      cases a with
      | nil =>
          -- The place is here, and what is found takes it.
          rw [List.nil_append] at ht
          rw [List.length_nil, Nat.le_zero] at hskip
          subst ht hskip
          rcases Option.ne_none_iff_exists'.mp hb with ⟨f, hf⟩
          rw [cut, hf]
          refine ⟨_, List.mem_cons_self, Nat.le_refl _, Nat.add_lt_add_left ?_ offset⟩
          exact byteLength_lt_of_take (a := []) (List.cons_ne_nil c t) (Nat.succ_pos f.beyond)
      | cons x a =>
          rw [List.cons_append, List.cons.injEq] at ht
          rcases ht with ⟨rfl, ht⟩
          have hsize : ∀ l, offset + byteLength (c :: l) = offset + c.utf8Size + byteLength l :=
            fun l => (Nat.add_assoc _ _ _).symm
          rw [hsize]
          cases skip with
          | succ skip =>
              rw [List.take_succ_cons, hsize]
              exact ih ht (Nat.le_of_succ_le_succ hskip)
          | zero =>
              rw [cut]
              cases hfind : recognise kind (c :: t) with
              | none => exact ih ht (Nat.zero_le _)
              | some f =>
                  by_cases hlt : a.length < f.beyond
                  · -- The place is inside of what is found here.
                    have hne : b ≠ [] := by
                      rintro rfl
                      exact hb rfl
                    refine ⟨_, List.mem_cons_self,
                      Nat.le_add_right_of_le (Nat.le_add_right _ _), ?_⟩
                    rw [← hsize, ht]
                    exact Nat.add_lt_add_left
                      (byteLength_lt_of_take (a := c :: a) hne (Nat.succ_lt_succ hlt)) offset
                  · rcases @ih f.beyond (offset + c.utf8Size) a ht (Nat.le_of_not_lt hlt) with
                      ⟨m, hm, hplace⟩
                    rw [← hsize] at hm
                    exact ⟨m, List.mem_cons_of_mem _ hm, hplace⟩

end Marker

/-! ### Scans -/

theorem utf8ByteSize_ofList (t : List Char) : (String.ofList t).utf8ByteSize = byteLength t := by
  induction t with
  | nil => rfl
  | cons c t ih =>
      have hcons : String.ofList (c :: t) = String.singleton c ++ String.ofList t := by
        rw [String.singleton_eq_ofList, ← String.ofList_append, List.singleton_append]
      rw [hcons, String.utf8ByteSize_append, String.utf8ByteSize_singleton, ih, byteLength]

theorem utf8ByteSize_eq (s : String) : s.utf8ByteSize = byteLength s.toList := by
  rw [← utf8ByteSize_ofList, String.ofList_toList]

/-- A marker has the bytes where its literal stands in the text. -/
theorem exists_append_of_mem_scan {kind : Marker.Kind} {text : String} {m : Marker}
    (h : m ∈ scan kind text) :
    ∃ before behind : String, text = before ++ m.literal ++ behind ∧
      m.start = before.utf8ByteSize ∧ m.stop = (before ++ m.literal).utf8ByteSize := by
  rcases toList_eq_append_of_mem_scan h with ⟨before, behind, htext, hstart, hstop⟩
  refine ⟨String.ofList before, String.ofList behind, ?_, ?_, ?_⟩
  · rw [← String.toList_inj, htext]
    simp only [String.toList_append, String.toList_ofList]
  · rw [hstart, utf8ByteSize_ofList]
  · rw [hstop, utf8ByteSize_eq, String.toList_append, String.toList_ofList]

/-- Where no marker that was found stands, nothing begins that is spelled like a marker. -/
theorem Marker.IsMarkerText.exists_mem_scan {kind : Kind} {t path : List Char}
    (h : IsMarkerText kind t path) (before : String) {behind : String}
    (ht : t <+: behind.toList) :
    ∃ m ∈ scan kind (before ++ behind),
      m.start ≤ before.utf8ByteSize ∧ before.utf8ByteSize < m.stop := by
  rcases ht with ⟨rest, hrest⟩
  rcases h.exists_recognise rest with ⟨f, hf, _⟩
  rw [hrest] at hf
  have hfind : recognise kind behind.toList ≠ none := by
    rw [hf]
    exact Option.some_ne_none f
  have hmem := @exists_mem_ofPieces_cut kind 0 0 _ _ _
    (String.toList_append (s := before) (t := behind)) (Nat.zero_le _) hfind
  simp only [List.take_zero, Nat.zero_add] at hmem
  rw [utf8ByteSize_eq]
  exact hmem

/-- What the markers are that a scan finds.

    Each of them has the bytes of a part of the text, and its literal is that part. The literal
    is spelled like a marker with the path of the marker, and nothing shorter is that begins at
    the same place. No marker is empty, and each ends before the next one begins. Nothing
    that is spelled like a marker begins at any place outside of the markers. -/
theorem scan_exact (kind : Marker.Kind) (text : String) :
    let markers := scan kind text
    (∀ m ∈ markers, m.kind = kind ∧ ∃ before behind : String,
      text = before ++ m.literal ++ behind ∧ m.start = before.utf8ByteSize ∧
        m.stop = (before ++ m.literal).utf8ByteSize ∧
        Marker.IsMarkerText kind m.literal.toList m.path.toList ∧
        ∀ t path, Marker.IsMarkerText kind t path → t <+: (m.literal ++ behind).toList →
          m.literal.toList.length ≤ t.length) ∧
      (∀ m ∈ markers, m.start < m.stop) ∧
      markers.Pairwise (fun m later => m.stop ≤ later.start) ∧
      ∀ before behind : String, text = before ++ behind →
        (∀ m ∈ markers, before.utf8ByteSize < m.start ∨ m.stop ≤ before.utf8ByteSize) →
          ∀ t path, Marker.IsMarkerText kind t path → ¬ t <+: behind.toList := by
  intro markers
  refine ⟨fun m hm => ?_, fun m hm => ?_, ?_, ?_⟩
  · have hliteral := Marker.isLiteral_of_mem_scan hm
    rcases exists_append_of_mem_scan hm with ⟨before, behind, htext, hstart, hstop⟩
    refine ⟨kind_of_mem_scan hm, before, behind, htext, hstart, hstop, hliteral.isMarkerText, ?_⟩
    intro t path ht hprefix
    rcases hprefix with ⟨rest, hrest⟩
    rw [String.toList_append] at hrest
    exact hliteral.length_le ht hrest.symm
  · have hne := (Marker.isLiteral_of_mem_scan hm).ne_nil
    rcases exists_append_of_mem_scan hm with ⟨before, _, _, hstart, hstop⟩
    rw [hstart, hstop, String.utf8ByteSize_append, Nat.lt_add_right_iff_pos, Nat.pos_iff_ne_zero,
      Ne, String.utf8ByteSize_eq_zero_iff]
    rintro hempty
    rw [hempty] at hne
    exact hne rfl
  · exact Marker.pairwise_ofPieces kind 0 _
  · intro before behind htext houtside t path ht hprefix
    rcases ht.exists_mem_scan before hprefix with ⟨m, hm, hstart, hstop⟩
    rw [← htext] at hm
    rcases houtside m hm with hlt | hle
    · exact absurd hstart (Nat.not_le_of_lt hlt)
    · exact absurd hstop (Nat.not_lt_of_le hle)

/-- A marker with two places where it can end. -/
def twoClosings : String := "\u00e9<#<Content Select=\"a'/>#>\"/>#>!"

/-- The longer of the two readings is spelled like a marker. The shorter one is found, and the
    rest of the longer one is no marker. -/
theorem scan_exact_twoClosings :
    let literal := "<#<Content Select=\"a'/>#>"
    let longer := "<#<Content Select=\"a'/>#>\"/>#>"
    ⟨.content, literal, "a", 2, 27⟩ ∈ scan .content twoClosings ∧
      Marker.IsMarkerText .content longer.toList "a'/>#>".toList ∧
      (∃ before behind : String, twoClosings = before ++ literal ++ behind ∧
        2 = before.utf8ByteSize ∧ 27 = (before ++ literal).utf8ByteSize ∧
        Marker.IsMarkerText .content literal.toList "a".toList ∧
        ∀ t path, Marker.IsMarkerText .content t path → t <+: (literal ++ behind).toList →
          literal.toList.length ≤ t.length) ∧
      twoClosings = ("\u00e9" ++ literal) ++ "\"/>#>!" ∧ ¬ longer.toList <+: "\"/>#>!".toList := by
  intro literal longer
  have hscan : scan .content twoClosings = [⟨.content, literal, "a", 2, 27⟩] := by decide +kernel
  have hlonger : Marker.IsMarkerText .content longer.toList "a'/>#>".toList :=
    ⟨"<#<Content Select=\"".toList, "\"/>#>".toList,
      ⟨[], [' '], [], [], '"', by decide, by decide, by decide, by decide, by decide, by decide,
        by decide +kernel⟩,
      ⟨'"', [], [], by decide, by decide, by decide, by decide +kernel⟩, by decide +kernel,
      by decide +kernel⟩
  have htext : twoClosings = ("\u00e9" ++ literal) ++ "\"/>#>!" := by decide +kernel
  have heffect := scan_exact .content twoClosings
  dsimp only at heffect
  rw [hscan] at heffect ⊢
  rcases heffect with ⟨hmarkers, _, _, houtside⟩
  refine ⟨List.mem_singleton_self _, hlonger, (hmarkers _ (List.mem_singleton_self _)).2, htext, ?_⟩
  refine houtside _ _ htext (fun m hm => Or.inr ?_) _ _ hlonger
  rw [List.mem_singleton.mp hm]
  decide +kernel

end MailMerge
