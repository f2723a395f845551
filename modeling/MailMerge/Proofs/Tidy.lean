import MailMerge.Proofs.Literal

/-!
# Tidy Texts

A text is tidy when it uses `<` for markers only. It is then a row of segments, each
of them a character other than `<` or the literal of a marker, and everything that is
done to a text by looking for literals is done segment by segment: scanning for
markers, replacing one literal wherever it stands, and cutting at its first
occurrence. What is put in for a literal may be anything without a `<`, and the text
stays tidy.

This is what makes texts with markers predictable. In a text that is not tidy, replacing
one literal may bring the parts of another one together.

## Main definitions

* `Segment`, `render`: A text in segments.
* `Segment.Valid`: What segments are made of.
* `Respects`: A recogniser that finds nothing but whole literals.
* `Covered`: A text in which each `<` lies in a marker that a scan finds.

## Theorems

* `pieces_render`: Cutting a row of segments cuts between them.
* `scan_render`, `replaceAll_render`, `splitAtFirst?_render`: What is done to a text is
  done to its segments.
* `toList_eq_append_of_mem_scan`: The literal of a marker stands where the marker was found.
* `IsTidy.exists_segments`: A tidy text is a row of segments.
-/

namespace MailMerge

open Text (Piece Find pieces cut strip? strip?_eq_some_iff byteLength byteLength_append)

/-- A part of a text: a character that is no part of a marker, or a marker. -/
inductive Segment where
  | plain (c : Char)
  | marker (kind : Marker.Kind) (literal path : List Char)
deriving DecidableEq

namespace Segment

/-- The text of a segment. -/
def text : Segment → List Char
  | .plain c => [c]
  | .marker _ literal _ => literal

/-- Whether a segment is what it says: no `<` outside of markers, and markers that are
    literals and have no `<` in their paths. -/
def Valid : Segment → Prop
  | .plain c => c ≠ '<'
  | .marker kind literal path => Marker.IsLiteral kind literal path ∧ '<' ∉ path

end Segment

/-- The text of some segments. -/
def render (l : List Segment) : List Char := l.flatMap Segment.text

/-- Whether all segments are valid. -/
def AllValid (l : List Segment) : Prop := ∀ s ∈ l, s.Valid

theorem AllValid.of_cons {s : Segment} {l : List Segment} (h : AllValid (s :: l)) : AllValid l :=
  fun x hx => h x (List.mem_cons_of_mem s hx)

theorem AllValid.cons {s : Segment} {l : List Segment} (hl : AllValid l) (hs : s.Valid) :
    AllValid (s :: l) := by
  intro x hx
  rcases List.mem_cons.mp hx with rfl | hx
  · exact hs
  · exact hl x hx

theorem render_cons (s : Segment) (l : List Segment) : render (s :: l) = s.text ++ render l :=
  List.flatMap_cons

/-- A text without `<` in segments. -/
def plains (t : List Char) : List Segment := t.map Segment.plain

theorem render_plains (t : List Char) : render (plains t) = t := by
  induction t with
  | nil => rfl
  | cons c t ih =>
      rw [plains, List.map_cons, render_cons]
      exact congrArg (List.cons c) ih

theorem allValid_plains {t : List Char} (h : '<' ∉ t) : AllValid (plains t) := by
  intro s hs
  rcases List.mem_map.mp hs with ⟨c, hc, rfl⟩
  rintro rfl
  exact h hc

/-! ### Cutting between segments -/

/-- A recogniser that finds nothing but whole literals, with what it finds in each
    segment. -/
structure Respects {α : Type} (recognise : List Char → Option (Find α))
    (found : Segment → Option α) : Prop where
  inside : ∀ t, strip? ['<', '#'] t = none → recognise t = none
  plain : ∀ c, found (.plain c) = none
  hit : ∀ kind literal path a, (Segment.marker kind literal path).Valid →
    found (.marker kind literal path) = some a →
      ∀ rest, recognise (literal ++ rest) = some ⟨a, literal.length - 1⟩
  miss : ∀ kind literal path, (Segment.marker kind literal path).Valid →
    found (.marker kind literal path) = none → ∀ rest, recognise (literal ++ rest) = none

/-- The pieces of a segment. -/
def Segment.pieces {α : Type} (found : Segment → Option α) (s : Segment) : List (Piece α) :=
  match found s with
  | some a => [.find s.text a]
  | none => s.text.map .plain

theorem cut_cons_of_none {α : Type} {recognise : List Char → Option (Find α)} {c : Char}
    {t : List Char} (h : recognise (c :: t) = none) :
    cut recognise 0 (c :: t) = .plain c :: cut recognise 0 t := by
  rw [cut, h]

/-- A stretch in which nothing is found is passed over. -/
theorem cut_append_of_none {α : Type} {recognise : List Char → Option (Find α)}
    {t rest : List Char}
    (h : ∀ a b, t = a ++ b → b ≠ [] → recognise (b ++ rest) = none) :
    cut recognise 0 (t ++ rest) = t.map .plain ++ cut recognise 0 rest := by
  induction t with
  | nil => rfl
  | cons c t ih =>
      have hnone := h [] (c :: t) rfl (List.cons_ne_nil c t)
      rw [List.cons_append] at hnone ⊢
      have hrest := ih fun a b hab hb => h (c :: a) b (by rw [hab, List.cons_append]) hb
      rw [cut_cons_of_none hnone, hrest, List.map_cons, List.cons_append]

/-- A find is one piece. -/
theorem cut_append_of_some {α : Type} {recognise : List Char → Option (Find α)}
    {t rest : List Char} {a : α} (ht : t ≠ [])
    (h : recognise (t ++ rest) = some ⟨a, t.length - 1⟩) :
    cut recognise 0 (t ++ rest) = .find t a :: cut recognise 0 rest := by
  cases t with
  | nil => exact absurd rfl ht
  | cons c t =>
      simp only [List.length_cons, Nat.add_sub_cancel] at h
      rw [List.cons_append] at h ⊢
      rw [cut, h]
      simp only [List.take_succ_cons, List.take_left]
      rw [Text.cut_eq_cut_drop, List.drop_left]

theorem Segment.Valid.ne_nil {kind : Marker.Kind} {literal path : List Char}
    (h : (Segment.marker kind literal path).Valid) : literal ≠ [] := h.1.ne_nil

/-- Cutting a row of segments cuts between them. -/
theorem pieces_render {α : Type} {recognise : List Char → Option (Find α)}
    {found : Segment → Option α} (hr : Respects recognise found) {l : List Segment}
    (h : AllValid l) : pieces recognise (render l) = l.flatMap (Segment.pieces found) := by
  induction l with
  | nil => rfl
  | cons s l ih =>
      have hs := h s List.mem_cons_self
      have hl : cut recognise 0 (render l) = l.flatMap (Segment.pieces found) := ih h.of_cons
      rw [render_cons, List.flatMap_cons, pieces, ← hl]
      cases s with
      | plain c =>
          have hc : strip? ['<', '#'] (c :: render l) = none := by
            rw [strip?, if_neg (Ne.symm hs)]
          rw [Segment.pieces, hr.plain]
          exact cut_cons_of_none (hr.inside _ hc)
      | marker kind literal path =>
          rw [Segment.pieces]
          cases hfound : found (.marker kind literal path) with
          | some a =>
              exact cut_append_of_some hs.ne_nil (hr.hit kind literal path a hs hfound _)
          | none =>
              -- The recogniser passes over the literal itself, and then over the rest of it,
              -- in which no marker begins.
              refine cut_append_of_none fun a b hab hb => ?_
              cases a with
              | nil =>
                  rw [List.nil_append] at hab
                  rw [← hab]
                  exact hr.miss kind literal path hs hfound _
              | cons x a =>
                  exact hr.inside _ (hs.1.strip?_suffix_eq_none hs.2 hab
                    (List.cons_ne_nil x a) hb _)

/-! ### Scanning -/

namespace Segment

/-- The path of a marker of a kind. -/
def path? (kind : Marker.Kind) : Segment → Option (List Char)
  | .plain _ => none
  | .marker kind' _ path => if kind' = kind then some path else none

/-- The literal and the path of a marker of a kind, as a scan gives them. -/
def asked? (kind : Marker.Kind) (s : Segment) : Option (String × String) :=
  (s.path? kind).map fun path => (String.ofList s.text, String.ofList path)

end Segment

-- Markers of the other kind are valid segments too, and are missed.
theorem respects_recognise (kind : Marker.Kind) :
    Respects (Marker.recognise kind) (Segment.path? kind) := by
  refine ⟨fun t => Marker.recognise_eq_none, fun _ => rfl, ?_, ?_⟩
  · intro kind' literal path a h hfound rest
    simp only [Segment.path?, Option.ite_none_right_eq_some, Option.some.injEq] at hfound
    rcases hfound with ⟨rfl, rfl⟩
    exact Marker.recognise_append h.1 rest
  · intro kind' literal path h hfound rest
    refine Marker.recognise_eq_none_of_isLiteral h.1 (fun hkind => ?_) rest
    simp only [Segment.path?, hkind, if_true, reduceCtorEq] at hfound

theorem ofPieces_plains (kind : Marker.Kind) (offset : Nat) (t : List Char)
    (l : List (Piece (List Char))) : Marker.ofPieces kind offset (t.map .plain ++ l) =
      Marker.ofPieces kind (offset + byteLength t) l := by
  induction t generalizing offset with
  | nil => rfl
  | cons c t ih =>
      rw [List.map_cons, List.cons_append, Marker.ofPieces, ih, byteLength, Nat.add_assoc]

/-- A scan finds the markers among the segments. -/
theorem scan_render {text : String} {l : List Segment} (h : AllValid l)
    (htext : text.toList = render l) (kind : Marker.Kind) :
    (scan kind text).map (fun m => (m.literal, m.path)) = l.filterMap (Segment.asked? kind) := by
  rw [scan, htext, pieces_render (respects_recognise kind) h]
  -- Where markers stand plays no part, so the induction is for all offsets at once.
  suffices hl : ∀ offset, (Marker.ofPieces kind offset
      (l.flatMap (Segment.pieces (Segment.path? kind)))).map (fun m => (m.literal, m.path)) =
        l.filterMap (Segment.asked? kind) from hl 0
  clear h htext
  induction l with
  | nil => exact fun _ => rfl
  | cons s l ih =>
      intro offset
      rw [List.flatMap_cons, Segment.pieces, List.filterMap_cons, Segment.asked?]
      cases s.path? kind with
      | none =>
          simp only [Option.map_none, ofPieces_plains]
          exact ih _
      | some path =>
          simp only [Option.map_some, List.cons_append, List.nil_append, Marker.ofPieces,
            List.map_cons, ih]

/-! ### Replacing -/

/-- What a recogniser of one literal finds in a segment. -/
def Segment.is? (literal : List Char) : Segment → Option Unit
  | .plain _ => none
  | .marker _ literal' _ => if literal' = literal then some () else none

theorem respects_literal {kind : Marker.Kind} {literal path : List Char}
    (h : Marker.IsLiteral kind literal path) :
    Respects (Text.literal? literal) (Segment.is? literal) := by
  have hnone : ∀ t, strip? literal t = none → Text.literal? literal t = none := by
    intro t ht
    rw [Text.literal?.eq_def, ht]
    cases literal <;> rfl
  refine ⟨fun t ht => hnone t (h.strip?_eq_none ht), fun _ => rfl, ?_, ?_⟩
  · intro kind' literal' path' a _ hfound rest
    simp only [Segment.is?, Option.ite_none_right_eq_some] at hfound
    rcases hfound with ⟨rfl, _⟩
    rcases h.exists_cons with ⟨behind, rfl⟩
    rw [Text.literal?.eq_def, strip?_eq_some_iff.mpr rfl]
    rfl
  · intro kind' literal' path' hvalid hfound rest
    refine hnone _ ?_
    cases hstrip : strip? literal (literal' ++ rest) with
    | none => rfl
    | some r =>
        rw [h.eq_of_strip? hvalid.1 hstrip] at hfound
        simp only [Segment.is?, if_true, reduceCtorEq] at hfound

/-- A segment with a value put in for one literal. -/
def Segment.put (literal value : List Char) : Segment → List Segment
  | .plain c => [.plain c]
  | .marker kind literal' path =>
      if literal' = literal then plains value else [.marker kind literal' path]

/-- Segments with a value put in for one literal. -/
def putAll (literal value : List Char) (l : List Segment) : List Segment :=
  l.flatMap (Segment.put literal value)

theorem allValid_putAll {literal value : List Char} (hvalue : '<' ∉ value) {l : List Segment}
    (h : AllValid l) : AllValid (putAll literal value l) := by
  intro s hs
  rcases List.mem_flatMap.mp hs with ⟨x, hx, hs⟩
  cases x with
  | plain c => exact List.mem_singleton.mp hs ▸ h _ hx
  | marker kind literal' path =>
      rw [Segment.put] at hs
      split at hs
      · exact allValid_plains hvalue s hs
      · exact List.mem_singleton.mp hs ▸ h _ hx

/-- Replacing a literal puts a value in for it in each segment. -/
theorem replaceAll_render {kind : Marker.Kind} {literal path : List Char}
    (hliteral : Marker.IsLiteral kind literal path) {text : String} {l : List Segment}
    (h : AllValid l) (htext : text.toList = render l) (value : String) :
    (Text.replaceAll (String.ofList literal) value text).toList =
      render (putAll literal value.toList l) := by
  rw [Text.replaceAll, String.toList_ofList, String.toList_ofList, Text.replaceFinds, htext,
    pieces_render (respects_literal hliteral) h, putAll, render]
  clear h htext
  induction l with
  | nil => rfl
  | cons s l ih =>
      rw [List.flatMap_cons, List.flatMap_append, List.flatMap_cons, List.flatMap_append, ih]
      congr 1
      cases s with
      | plain c => rfl
      | marker kind' literal' path' =>
          rw [Segment.pieces, Segment.is?, Segment.put]
          -- A marker is replaced as a whole or comes back character by character.
          by_cases hsame : literal' = literal
          · rw [if_pos hsame, if_pos hsame]
            exact (List.append_nil _).trans (render_plains value.toList).symm
          · rw [if_neg hsame, if_neg hsame]
            simp only [List.flatMap_map, List.flatMap_singleton', List.flatMap_cons,
              List.flatMap_nil, List.append_nil]

/-! ### Cutting at a literal -/

/-- The segments before the first one with a text and those behind it. -/
def splitSegments? (literal : List Char) : List Segment → Option (List Segment × List Segment)
  | [] => none
  | s :: rest =>
      if s.text = literal then some ([], rest)
      else (splitSegments? literal rest).map fun (before, behind) => (s :: before, behind)

-- As with `cut_append_of_none`, a stretch without the literal is passed over.
theorem splitAtFirst?_append_of_none {literal t rest : List Char}
    (h : ∀ a b, t = a ++ b → b ≠ [] → strip? literal (b ++ rest) = none) :
    Text.splitAtFirst? literal (t ++ rest) =
      (Text.splitAtFirst? literal rest).map fun (before, behind) => (t ++ before, behind) := by
  induction t with
  | nil =>
      rw [List.nil_append]
      cases Text.splitAtFirst? literal rest <;> rfl
  | cons c t ih =>
      have hnone := h [] (c :: t) rfl (List.cons_ne_nil c t)
      rw [List.cons_append] at hnone ⊢
      rw [Text.splitAtFirst?, hnone]
      have hrest := ih fun a b hab hb => h (c :: a) b (by rw [hab, List.cons_append]) hb
      rw [hrest, Option.map_map]
      rfl

theorem splitAtFirst?_append_self (literal rest : List Char) :
    Text.splitAtFirst? literal (literal ++ rest) = some ([], rest) := by
  have hstrip : strip? literal (literal ++ rest) = some rest := strip?_eq_some_iff.mpr rfl
  cases hl : literal ++ rest with
  | nil =>
      rcases List.append_eq_nil_iff.mp hl with ⟨rfl, rfl⟩
      rfl
  | cons c t =>
      rw [hl] at hstrip
      rw [Text.splitAtFirst?, hstrip]

/-- Nothing before a segment with another text is a literal. -/
theorem strip?_suffix_segment {kind : Marker.Kind} {literal path : List Char}
    (h : Marker.IsLiteral kind literal path) {s : Segment} (hs : s.Valid) (hne : s.text ≠ literal)
    {a b rest : List Char} (hab : s.text = a ++ b) (hb : b ≠ []) :
    strip? literal (b ++ rest) = none := by
  cases s with
  | plain c =>
      refine h.strip?_eq_none ?_
      rcases List.singleton_eq_append_iff.mp hab with ⟨_, rfl⟩ | ⟨_, hnil⟩
      · rw [List.singleton_append, strip?, if_neg (Ne.symm hs)]
      · exact absurd hnil hb
  | marker kind' literal' path' =>
      cases a with
      | nil =>
          rw [List.nil_append] at hab
          rw [← hab, Segment.text]
          cases hstrip : strip? literal (literal' ++ rest) with
          | none => rfl
          | some r => exact absurd (h.eq_of_strip? hs.1 hstrip).symm hne
      | cons x a =>
          exact h.strip?_eq_none (hs.1.strip?_suffix_eq_none hs.2 hab (List.cons_ne_nil x a) hb _)

/-- The first occurrence of a literal is the first segment with that text. -/
theorem splitAtFirst?_render {kind : Marker.Kind} {literal path : List Char}
    (hliteral : Marker.IsLiteral kind literal path) {l : List Segment} (h : AllValid l) :
    Text.splitAtFirst? literal (render l) =
      (splitSegments? literal l).map fun (before, behind) => (render before, render behind) := by
  have hne : literal ≠ [] := hliteral.ne_nil
  induction l with
  | nil =>
      rw [render, List.flatMap_nil, Text.splitAtFirst?, if_neg hne]
      rfl
  | cons s l ih =>
      rw [render_cons, splitSegments?]
      by_cases hs : s.text = literal
      · rw [if_pos hs, hs, splitAtFirst?_append_self]
        rfl
      · rw [if_neg hs, splitAtFirst?_append_of_none fun a b hab hb =>
          strip?_suffix_segment hliteral (h s List.mem_cons_self) hs hab hb, ih h.of_cons,
          Option.map_map, Option.map_map]
        congr 1

/-! ### Covered texts -/

/-- Whether each `<` of a text lies in a marker that a scan finds. -/
def Covered (text : String) : Prop :=
  ∀ before behind, text.toList = before ++ '<' :: behind →
    ∃ m ∈ scan .content text ++ scan .table text,
      m.start ≤ byteLength before ∧ byteLength before < m.stop

/-- Whether a text uses `<` for markers only, and no marker has one in its path. -/
def IsTidy (text : String) : Prop :=
  Covered text ∧ ∀ m ∈ scan .content text ++ scan .table text, '<' ∉ m.path.toList

-- Whether a text is covered can be found out by looking at each of its characters.
theorem covered_iff {text : String} : Covered text ↔
    ∀ i < text.toList.length, text.toList[i]? = some '<' →
      ∃ m ∈ scan .content text ++ scan .table text,
        m.start ≤ byteLength (text.toList.take i) ∧
          byteLength (text.toList.take i) < m.stop := by
  constructor
  · intro h i hi hget
    refine h (text.toList.take i) (text.toList.drop (i + 1)) ?_
    rw [List.getElem?_eq_getElem hi, Option.some.injEq] at hget
    rw [← hget, List.getElem_cons_drop, List.take_append_drop]
  · intro h before behind heq
    have hlen : before.length < text.toList.length := by
      rw [heq, List.length_append, List.length_cons]
      omega
    have hget : text.toList[before.length]? = some '<' := by
      rw [heq, List.getElem?_append_right (Nat.le_refl _), Nat.sub_self]
      rfl
    have hmarker := h before.length hlen hget
    have htake : text.toList.take before.length = before := by
      rw [heq, List.take_left]
    rwa [htake] at hmarker

instance (text : String) : Decidable (Covered text) := decidable_of_iff' _ covered_iff

instance (text : String) : Decidable (IsTidy text) := inferInstanceAs (Decidable (_ ∧ _))

/-- Markers are found at or behind the place where the scan begins. -/
theorem le_start_of_mem_ofPieces {kind : Marker.Kind} {offset : Nat}
    {l : List (Piece (List Char))} {m : Marker} (h : m ∈ Marker.ofPieces kind offset l) :
    offset ≤ m.start := by
  induction l generalizing offset with
  | nil => exact absurd h List.not_mem_nil
  | cons p l ih =>
      cases p with
      | plain c => exact (Nat.le_add_right offset c.utf8Size).trans (ih h)
      | find text path =>
          rcases List.mem_cons.mp h with rfl | h
          · exact Nat.le_refl offset
          · exact (Nat.le_add_right offset (byteLength text)).trans (ih h)

/-- A marker is found where its literal stands. -/
theorem exists_append_of_mem_ofPieces {kind : Marker.Kind} {t before : List Char}
    {l : List (Piece (List Char))} {m : Marker} (h : t = before ++ l.flatMap Piece.text)
    (hm : m ∈ Marker.ofPieces kind (byteLength before) l) :
    ∃ front behind, t = front ++ m.literal.toList ++ behind ∧ m.start = byteLength front ∧
      m.stop = byteLength (front ++ m.literal.toList) := by
  induction l generalizing before with
  | nil => exact absurd hm List.not_mem_nil
  | cons piece l ih =>
      rw [List.flatMap_cons, ← List.append_assoc] at h
      have hrest := ih h
      rw [byteLength_append] at hrest
      cases piece with
      | plain c => exact hrest hm
      | find text path =>
          rcases List.mem_cons.mp hm with rfl | hm
          · refine ⟨before, l.flatMap Piece.text, ?_, rfl, ?_⟩
            · rw [String.toList_ofList]
              exact h
            · rw [String.toList_ofList, byteLength_append]
          · exact hrest hm

/-- The bytes of a marker in a text are those where its literal stands. -/
theorem toList_eq_append_of_mem_scan {kind : Marker.Kind} {text : String} {m : Marker}
    (h : m ∈ scan kind text) :
    ∃ front behind, text.toList = front ++ m.literal.toList ++ behind ∧
      m.start = byteLength front ∧ m.stop = byteLength (front ++ m.literal.toList) := by
  have hpieces : text.toList =
      [] ++ (pieces (Marker.recognise kind) text.toList).flatMap Piece.text :=
    (Text.flatMap_text_pieces _ _).symm
  exact exists_append_of_mem_ofPieces hpieces h

/-- The markers of a kind in a text that begins at some offset. -/
def markersFrom (kind : Marker.Kind) (offset : Nat) (t : List Char) : List Marker :=
  Marker.ofPieces kind offset (pieces (Marker.recognise kind) t)

theorem markersFrom_plain {kind : Marker.Kind} {c : Char} {t : List Char}
    (h : Marker.recognise kind (c :: t) = none) (offset : Nat) :
    markersFrom kind offset (c :: t) = markersFrom kind (offset + c.utf8Size) t := by
  rw [markersFrom, pieces, cut_cons_of_none h, Marker.ofPieces]
  rfl

/-- A scan finds a literal of its kind and goes on behind it. -/
theorem markersFrom_literal {kind : Marker.Kind} {literal path : List Char}
    (h : Marker.IsLiteral kind literal path) (offset : Nat) (rest : List Char) :
    markersFrom kind offset (literal ++ rest) =
      ⟨kind, String.ofList literal, String.ofList path, offset, offset + byteLength literal⟩ ::
        markersFrom kind (offset + byteLength literal) rest := by
  rw [markersFrom, pieces, cut_append_of_some h.ne_nil (Marker.recognise_append h rest),
    Marker.ofPieces]
  rfl

/-- A scan of the other kind passes over a literal. -/
theorem markersFrom_literal_of_ne {kind kind' : Marker.Kind} {literal path : List Char}
    (h : (Segment.marker kind literal path).Valid) (hkind : kind ≠ kind') (offset : Nat)
    (rest : List Char) :
    markersFrom kind' offset (literal ++ rest) =
      markersFrom kind' (offset + byteLength literal) rest := by
  have hcut : Text.cut (Marker.recognise kind') 0 (literal ++ rest) =
      literal.map .plain ++ Text.cut (Marker.recognise kind') 0 rest :=
    cut_append_of_none fun a b hab hb => by
      cases a with
      | nil =>
          rw [List.nil_append] at hab
          rw [← hab]
          exact Marker.recognise_eq_none_of_isLiteral h.1 hkind rest
      | cons x a =>
          exact Marker.recognise_eq_none (h.1.strip?_suffix_eq_none h.2 hab
            (List.cons_ne_nil x a) hb rest)
  rw [markersFrom, pieces, hcut, ofPieces_plains]
  rfl

/-- What a scan of either kind finds in front of a place behind a literal, it finds behind
    the literal. -/
theorem mem_markersFrom_of_literal {kind kind' : Marker.Kind} {literal path : List Char}
    (h : (Segment.marker kind literal path).Valid) {offset : Nat} {rest : List Char}
    {m : Marker} (hm : m ∈ markersFrom kind' offset (literal ++ rest))
    (hstop : offset + byteLength literal < m.stop) :
    m ∈ markersFrom kind' (offset + byteLength literal) rest := by
  by_cases hkind : kind = kind'
  · subst hkind
    rw [markersFrom_literal h.1] at hm
    rcases List.mem_cons.mp hm with rfl | hm
    · exact absurd hstop (Nat.lt_irrefl _)
    · exact hm
  · rwa [markersFrom_literal_of_ne h hkind] at hm

theorem markersFrom_subset {kind kind' : Marker.Kind} {literal path : List Char}
    (h : (Segment.marker kind literal path).Valid) {offset : Nat} {rest : List Char}
    {m : Marker} (hm : m ∈ markersFrom kind' (offset + byteLength literal) rest) :
    m ∈ markersFrom kind' offset (literal ++ rest) := by
  by_cases hkind : kind = kind'
  · subst hkind
    rw [markersFrom_literal h.1]
    exact List.mem_cons_of_mem _ hm
  · rwa [markersFrom_literal_of_ne h hkind]

/-- Whether a text that begins at some offset is tidy. -/
structure TidyFrom (offset : Nat) (t : List Char) : Prop where
  covered : ∀ before behind, t = before ++ '<' :: behind → ∃ kind,
    ∃ m ∈ markersFrom kind offset t,
      m.start ≤ offset + byteLength before ∧ offset + byteLength before < m.stop
  path : ∀ kind, ∀ m ∈ markersFrom kind offset t, '<' ∉ m.path.toList

theorem TidyFrom.of_plain {offset : Nat} {c : Char} {t : List Char}
    (h : TidyFrom offset (c :: t)) (hc : c ≠ '<') : TidyFrom (offset + c.utf8Size) t := by
  have hnone : ∀ kind, Marker.recognise kind (c :: t) = none := fun kind =>
    Marker.recognise_eq_none (by rw [strip?, if_neg (Ne.symm hc)])
  refine ⟨fun before behind hbefore => ?_, fun kind m hm => ?_⟩
  · rcases h.covered (c :: before) behind (by rw [hbefore, List.cons_append]) with
      ⟨kind, m, hm, hstart, hstop⟩
    rw [byteLength, ← Nat.add_assoc] at hstart hstop
    rw [markersFrom_plain (hnone kind)] at hm
    exact ⟨kind, m, hm, hstart, hstop⟩
  · exact h.path kind m (by rw [markersFrom_plain (hnone kind)]; exact hm)

-- A later `<` lies behind the literal, so it is covered by a marker behind it.
theorem TidyFrom.of_marker {kind : Marker.Kind} {literal path : List Char} {offset : Nat}
    {rest : List Char} (h : TidyFrom offset (literal ++ rest))
    (hvalid : (Segment.marker kind literal path).Valid) :
    TidyFrom (offset + byteLength literal) rest := by
  refine ⟨fun before behind hbefore => ?_, fun kind' m hm => ?_⟩
  · rcases h.covered (literal ++ before) behind (by rw [hbefore, List.append_assoc]) with
      ⟨kind', m, hm, hstart, hstop⟩
    rw [byteLength_append, ← Nat.add_assoc] at hstart hstop
    have hbehind : offset + byteLength literal < m.stop :=
      Nat.lt_of_le_of_lt (Nat.le_add_right _ _) hstop
    exact ⟨kind', m, mem_markersFrom_of_literal hvalid hm hbehind, hstart, hstop⟩
  · exact h.path kind' m (markersFrom_subset hvalid hm)

/-- A tidy text that begins with `<` begins with a marker. -/
theorem TidyFrom.exists_marker {offset : Nat} {t : List Char} (h : TidyFrom offset ('<' :: t)) :
    ∃ kind literal path rest, (Segment.marker kind literal path).Valid ∧
      '<' :: t = literal ++ rest := by
  rcases h.covered [] t rfl with ⟨kind, m, hm, hstart, _⟩
  cases hfind : Marker.recognise kind ('<' :: t) with
  | none =>
      -- All markers are then further on, but the one that covers the character is not.
      rw [markersFrom_plain hfind] at hm
      have hle : offset + Char.utf8Size '<' ≤ m.start := le_start_of_mem_ofPieces hm
      have hpos := Char.utf8Size_pos '<'
      rw [byteLength, Nat.add_zero] at hstart
      omega
  | some f =>
      rcases Marker.exists_isLiteral hfind with ⟨literal, rest, hliteral, heq⟩
      have hfirst := h.path kind ⟨kind, String.ofList literal, String.ofList f.value, offset,
        offset + byteLength literal⟩ (by
          rw [heq, markersFrom_literal hliteral]
          exact List.mem_cons_self)
      rw [String.toList_ofList] at hfirst
      exact ⟨kind, literal, f.value, rest, ⟨hliteral, hfirst⟩, heq⟩

-- A segment may be of any length, so the induction is on a bound for that of the text.
theorem TidyFrom.exists_segments_of_length_le {n : Nat} {offset : Nat} {t : List Char}
    (h : TidyFrom offset t) (hn : t.length ≤ n) : ∃ l, AllValid l ∧ t = render l := by
  induction n generalizing offset t with
  | zero =>
      rw [List.length_eq_zero_iff.mp (Nat.le_zero.mp hn)]
      exact ⟨[], fun _ h => absurd h List.not_mem_nil, rfl⟩
  | succ n ih =>
      cases t with
      | nil => exact ⟨[], fun _ h => absurd h List.not_mem_nil, rfl⟩
      | cons c t =>
          by_cases hc : c = '<'
          · subst hc
            rcases h.exists_marker with ⟨kind, literal, path, rest, hvalid, heq⟩
            have hlen : rest.length ≤ n := by
              have hpos := List.length_pos_of_ne_nil hvalid.ne_nil
              have hsum := congrArg List.length heq
              rw [List.length_append] at hsum
              omega
            rw [heq] at h
            rcases ih (h.of_marker hvalid) hlen with ⟨l, hl, hrest⟩
            refine ⟨.marker kind literal path :: l, hl.cons hvalid, ?_⟩
            rw [render_cons, ← hrest, heq, Segment.text]
          · have hlen : t.length ≤ n := by
              rw [List.length_cons] at hn
              omega
            rcases ih (h.of_plain hc) hlen with ⟨l, hl, hrest⟩
            refine ⟨.plain c :: l, hl.cons hc, ?_⟩
            rw [render_cons, ← hrest, Segment.text, List.singleton_append]

/-- A tidy text is a row of segments. -/
theorem IsTidy.exists_segments {text : String} (h : IsTidy text) :
    ∃ l, AllValid l ∧ text.toList = render l := by
  have htidy : TidyFrom 0 text.toList := by
    refine ⟨fun before behind hbefore => ?_, fun kind m hm => ?_⟩
    · rcases h.1 before behind hbefore with ⟨m, hm, hstart, hstop⟩
      rw [Nat.zero_add]
      rcases List.mem_append.mp hm with hm | hm
      · exact ⟨.content, m, hm, hstart, hstop⟩
      · exact ⟨.table, m, hm, hstart, hstop⟩
    · cases kind with
      | content => exact h.2 m (List.mem_append_left _ hm)
      | table => exact h.2 m (List.mem_append_right _ hm)
  exact htidy.exists_segments_of_length_le (Nat.le_refl _)

end MailMerge
