import MailMerge.Proofs.Grammar

/-!
# Literals Delimit Themselves

Literals are looked up as mere text, both where content is put in and where a text is cut at its
tables. A lookup knows nothing of what stands around a literal, so it is good to know that the
literal itself says where the marker ends.

Where a marker ends depends on nothing behind it. The path ends at the first quote behind which
the marker can be finished, and everything up to the finish is in the literal. So in front of
any text whatever, a literal is scanned as the marker that it was, and the text behind it as if
it stood alone. A literal that began with another one would be scanned as the shorter one, so
there is none.

The first marker of a text is found by its literal. Wherever the literal stands, a marker can
begin, so a marker that the scan found takes this place, and no marker begins before the first. For
later markers this fails, as a path may hold a whole marker.

## Main definitions

* `Marker.moved`: A marker in a text that was moved.

## Theorems

* `scan_append`: A scan behind a literal is a scan of what is behind it.
* `literal_eq_of_prefix`: No literal begins with another one.
* `start_le_of_scan_eq_cons`: The literal of the first marker stands nowhere before it.
* `splitAtFirst?_of_first`: A lookup finds the first place of a literal.
* `scan_selfDelimiting`: All of this for the markers of a text.
-/

namespace MailMerge

open Text (Piece strip? strip?_eq_some_iff splitAtFirst? byteLength byteLength_append
  byteLength_pos)

/-! ### Scans behind a literal -/

namespace Marker

/-- A marker in a text that was moved by some bytes. -/
def moved (bytes : Nat) (m : Marker) : Marker :=
  { m with start := bytes + m.start, stop := bytes + m.stop }

theorem ofPieces_add (kind : Kind) (bytes offset : Nat) (l : List (Piece (List Char))) :
    ofPieces kind (bytes + offset) l = (ofPieces kind offset l).map (moved bytes) := by
  induction l generalizing offset with
  | nil => rfl
  | cons piece l ih =>
      cases piece with
      | plain c => rw [ofPieces, ofPieces, Nat.add_assoc, ih]
      | find text path =>
          rw [ofPieces, ofPieces, List.map_cons, Nat.add_assoc, ih]
          rfl

end Marker

section

variable {kind kind' : Marker.Kind} {t t' : String} {m m' : Marker}

/-- Behind a literal that was found, anything is scanned as if it stood alone. -/
theorem scan_append (h : m ∈ scan kind t) (s : String) :
    scan kind (m.literal ++ s) =
      ⟨kind, m.literal, m.path, 0, m.literal.utf8ByteSize⟩ ::
        (scan kind s).map (Marker.moved m.literal.utf8ByteSize) := by
  have hliteral := Marker.isLiteral_of_mem_scan h
  have hscan : scan kind (m.literal ++ s) =
      markersFrom kind 0 (m.literal.toList ++ s.toList) := by
    rw [scan, String.toList_append]
    rfl
  have hrest : markersFrom kind (m.literal.utf8ByteSize + 0) s.toList =
      (scan kind s).map (Marker.moved m.literal.utf8ByteSize) :=
    Marker.ofPieces_add kind m.literal.utf8ByteSize 0 _
  rw [hscan, markersFrom_literal hliteral, String.ofList_toList, String.ofList_toList,
    ← utf8ByteSize_eq, Nat.zero_add, ← hrest, Nat.add_zero]

/-- No literal begins with another one, not even one of the other kind. -/
theorem literal_eq_of_prefix (h : m ∈ scan kind t) (h' : m' ∈ scan kind' t')
    (hbegins : m.literal.toList <+: m'.literal.toList) : m.literal = m'.literal := by
  rcases hbegins with ⟨rest, hrest⟩
  have hstrip : strip? m.literal.toList (m'.literal.toList ++ []) = some rest := by
    rw [List.append_nil]
    exact strip?_eq_some_iff.mpr hrest.symm
  exact String.toList_inj.mp
    ((Marker.isLiteral_of_mem_scan h).eq_of_strip? (Marker.isLiteral_of_mem_scan h') hstrip)

/-! ### The first marker -/

/-- The literal of the first marker stands nowhere before it. -/
theorem start_le_of_scan_eq_cons {rest : List Marker} (h : scan kind t = m :: rest)
    {before behind : String} (ht : t = before ++ m.literal ++ behind) :
    m.start ≤ before.utf8ByteSize := by
  have hliteral := Marker.isLiteral_of_mem_scan (h ▸ List.mem_cons_self)
  have hbegins : m.literal.toList <+: (m.literal ++ behind).toList := by
    rw [String.toList_append]
    exact List.prefix_append _ _
  -- A marker takes the place where the literal stands, and the first one begins before it.
  rcases hliteral.isMarkerText.exists_mem_scan before hbegins with ⟨m', hm', hstart, _⟩
  rw [← String.append_assoc, ← ht, h] at hm'
  rcases List.mem_cons.mp hm' with rfl | hrest
  · exact hstart
  · have hbehind : (m :: rest).Pairwise fun m later => m.stop ≤ later.start :=
      h ▸ Marker.pairwise_ofPieces kind 0 _
    have hle := List.rel_of_pairwise_cons hbehind hrest
    rcases exists_append_of_mem_scan (h ▸ List.mem_cons_self) with ⟨front, _, _, hfront, hstop⟩
    rw [String.utf8ByteSize_append] at hstop
    omega

end

/-- A lookup finds the place of a literal if the literal stands nowhere before it. -/
theorem splitAtFirst?_of_first {literal before behind : List Char}
    (first : ∀ a b, before ++ (literal ++ behind) = a ++ (literal ++ b) →
      byteLength before ≤ byteLength a) :
    splitAtFirst? literal (before ++ (literal ++ behind)) = some (before, behind) := by
  have hnone : ∀ a b, before = a ++ b → b ≠ [] →
      strip? literal (b ++ (literal ++ behind)) = none := by
    intro a b hab hb
    cases hstrip : strip? literal (b ++ (literal ++ behind)) with
    | none => rfl
    | some r =>
        have hle := first a r (by rw [hab, List.append_assoc, strip?_eq_some_iff.mp hstrip])
        have hpos := byteLength_pos hb
        rw [hab, byteLength_append] at hle
        omega
  rw [splitAtFirst?_append_of_none hnone, splitAtFirst?_append_self]
  simp only [Option.map_some, List.append_nil]

/-- What the literals of a text say by themselves.

    In front of any text a literal is scanned as the marker that it was, from byte 0 on, and what
    is behind it is scanned as if it stood alone. No literal begins with another one. The first
    marker stands at the first place where its literal stands, so a lookup cuts the text right
    there. -/
theorem scan_selfDelimiting (kind : Marker.Kind) (t : String) :
    (∀ m ∈ scan kind t, ∀ s, scan kind (m.literal ++ s) =
        ⟨kind, m.literal, m.path, 0, m.literal.utf8ByteSize⟩ ::
          (scan kind s).map (Marker.moved m.literal.utf8ByteSize)) ∧
      (∀ m ∈ scan kind t, ∀ kind' t', ∀ m' ∈ scan kind' t',
        m.literal.toList <+: m'.literal.toList → m.literal = m'.literal) ∧
      ∀ m rest, scan kind t = m :: rest → ∃ before behind : String,
        t = before ++ m.literal ++ behind ∧ m.start = before.utf8ByteSize ∧
          m.stop = (before ++ m.literal).utf8ByteSize ∧
          splitAtFirst? m.literal.toList t.toList = some (before.toList, behind.toList) ∧
          ∀ before' behind' : String, t = before' ++ m.literal ++ behind' →
            m.start ≤ before'.utf8ByteSize := by
  refine ⟨fun m hm s => scan_append hm s, fun m hm kind' t' m' hm' => literal_eq_of_prefix hm hm',
    fun m rest h => ?_⟩
  rcases exists_append_of_mem_scan (h ▸ List.mem_cons_self) with
    ⟨before, behind, ht, hstart, hstop⟩
  refine ⟨before, behind, ht, hstart, hstop, ?_, fun before' behind' =>
    start_le_of_scan_eq_cons h⟩
  have hchars : t.toList = before.toList ++ (m.literal.toList ++ behind.toList) := by
    rw [ht, String.toList_append, String.toList_append, List.append_assoc]
  rw [hchars]
  refine splitAtFirst?_of_first fun a b hab => ?_
  have hfirst := @start_le_of_scan_eq_cons _ _ _ _ h (String.ofList a) (String.ofList b) (by
    rw [← String.toList_inj, hchars, hab]
    simp only [String.toList_append, String.toList_ofList, List.append_assoc])
  rwa [hstart, utf8ByteSize_eq, utf8ByteSize_ofList] at hfirst

-- A path that holds a marker: of the two literals, a lookup finds the later one too early.
example :
    let inner := "<#<Content Select='b'/>#>"
    let outer := "<#<Content Select=\"a<#<Content Select='b'/>#>"
    scan .content (outer ++ inner) = [⟨.content, outer, "a<#<Content Select='b", 0, 45⟩,
        ⟨.content, inner, "b", 45, 70⟩] ∧
      splitAtFirst? inner.toList (outer ++ inner).toList =
        some ("<#<Content Select=\"a".toList, inner.toList) := by
  decide +kernel

end MailMerge
