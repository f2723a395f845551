import Mathlib.Data.List.Nodup
import MailMerge.Proofs.Remains

/-!
# Document Order

A body is listed with an address for each block, and blocks are looked up by address. The
list is made by recursion over tables, rows and cells, and the look-up goes down one step of
the address at a time. This is about how the two fit: an address is listed where the look-up
finds something and nowhere else, and it is listed once.

The list is in document order, in which a table comes before all that is inside of it. So
nothing that comes after a paragraph has the paragraph inside of it. This is why the table pass
can ask for the first table that comes after a marker, without a look at how deep the two are:
it is never a table around the marker.

## Main definitions

* `Address.Inside`: To lie inside of a table.

## Theorems

* `mem_places_iff`: A place is listed if there is a block of its kind at its address.
* `Address.before_asymm`: Of two addresses one comes first at most.
* `nodup_addresses`: No address is listed twice.
* `not_inside_of_mem_earlier`, `not_inside_of_mem_later`: A table comes before what is inside.
* `places_enumerates`: All of this, and that the table pass relies on it.
-/

namespace MailMerge

/-! ### Addresses in order -/

instance : Std.Asymm Step.Before where
  asymm s t hst hts := by
    unfold Step.Before at hst hts
    omega

namespace Address

theorem before_asymm {a b : Address} (h : a.Before b) : ¬ b.Before a := by
  intro h'
  rcases h with h | ⟨_, h⟩
  · rcases h' with h' | ⟨h', _⟩ <;> omega
  · rcases h' with h' | ⟨_, h'⟩
    · omega
    · exact Std.Asymm.asymm _ _ h h'

/-- To lie inside of the table at an address, however deep, is to go on from there. -/
def Inside (a t : Address) : Prop := ∃ s inner, a = ⟨t.root, t.steps ++ s :: inner⟩

/-- A table comes before all that is inside of it. -/
theorem Inside.before {a t : Address} (h : a.Inside t) : t.Before a := by
  rcases h with ⟨s, inner, rfl⟩
  have hlex : List.Lex Step.Before [] (s :: inner) := List.Lex.nil
  refine Or.inr ⟨rfl, ?_⟩
  simpa only [List.append_nil] using List.Lex.append_left Step.Before hlex t.steps

end Address

/-! ### The list of places -/

section

variable {blocks : List Block} {earlier later : List Place} {place : Place}

theorem mem_places_iff :
    place ∈ places blocks ↔ (blockAt? blocks place.address).map Block.kind = some place.kind := by
  constructor
  · exact kind_of_mem_places
  · intro h
    rcases Option.map_eq_some_iff.mp h with ⟨b, hb, _⟩
    rcases exists_mem_places hb with ⟨⟨address, kind⟩, hmem, haddress⟩
    have hkind := kind_of_mem_places hmem
    rcases place with ⟨a, k⟩
    simp only at haddress hkind h
    subst haddress
    rw [h, Option.some.injEq] at hkind
    rw [hkind]
    exact hmem

-- What comes before something else is not the same.
theorem nodup_addresses (blocks : List Block) : ((places blocks).map Place.address).Nodup :=
  List.pairwise_map.mpr ((pairwise_places blocks).imp Address.Before.ne)

theorem count_address {a : Address} {b : Block} (h : blockAt? blocks a = some b) :
    ((places blocks).map Place.address).count a = 1 := by
  rcases exists_mem_places h with ⟨x, hx, rfl⟩
  exact List.count_eq_one_of_mem (nodup_addresses blocks) (List.mem_map_of_mem hx)

theorem not_inside_of_mem_earlier (h : places blocks = earlier ++ place :: later) :
    ∀ x ∈ earlier, ¬ x.address.Inside place.address := by
  intro x hx hinside
  have hbefore := h ▸ pairwise_places blocks
  have hxplace := (List.pairwise_append.mp hbefore).2.2 x hx place List.mem_cons_self
  exact Address.before_asymm hinside.before hxplace

theorem not_inside_of_mem_later (h : places blocks = earlier ++ place :: later) :
    ∀ x ∈ later, ¬ place.address.Inside x.address := by
  intro x hx hinside
  have hbefore := h ▸ pairwise_places blocks
  have hplacex := List.rel_of_pairwise_cons (List.pairwise_append.mp hbefore).2.1 hx
  exact Address.before_asymm hinside.before hplacex

theorem not_inside_of_firstTable? {t : Address} (h : places blocks = earlier ++ place :: later)
    (ht : firstTable? later = some t) : ¬ place.address.Inside t := by
  rcases mem_of_firstTable?_eq_some ht with ⟨x, hx, rfl, _⟩
  exact not_inside_of_mem_later h x hx

/-- A request asks for the first table after its paragraph. -/
theorem exists_of_mem_tableRequests {r : TableRequest} (h : r ∈ tableRequests blocks) :
    ∃ earlier later, places blocks = earlier ++ ⟨r.paragraph, .paragraph⟩ :: later ∧
      r.target = firstTable? later := by
  rcases exists_of_mem_requestsAmong h with
    ⟨earlier, place, later, p, hsplit, hplace, hp, _, htarget⟩
  have hmem : place ∈ places blocks := by
    rw [hsplit]
    exact List.mem_append_right earlier List.mem_cons_self
  have hkind : place.kind = .paragraph := by
    have h := mem_places_iff.mp hmem
    rw [hplace, paragraphAt?_eq_some_iff.mp hp, Option.map_some, Option.some.injEq] at h
    exact h.symm
  rw [← hplace, ← hkind]
  exact ⟨earlier, later, hsplit, htarget⟩

end

/-- The list of places is a list of the blocks that can be looked up.

    What is listed is found, and of the kind that is listed. What is found is listed once. The
    list is in document order: by the index in the body and then by the steps. A table comes
    before all that is inside of it, so the first table after a place never has that place
    inside of it. The table pass asks for that table, so no marker is inside of the table that
    it asks for. -/
theorem places_enumerates (blocks : List Block) :
    (∀ place ∈ places blocks, ∃ b, blockAt? blocks place.address = some b ∧
        b.kind = place.kind) ∧
      (∀ a b, blockAt? blocks a = some b → ((places blocks).map Place.address).count a = 1) ∧
      ((places blocks).Pairwise fun x y => x.address.Before y.address) ∧
      (∀ earlier place later, places blocks = earlier ++ place :: later →
        (∀ x ∈ earlier, ¬ x.address.Inside place.address) ∧
          ∀ t, firstTable? later = some t → ¬ place.address.Inside t) ∧
      ∀ r ∈ tableRequests blocks,
        (∃ earlier later, places blocks = earlier ++ ⟨r.paragraph, .paragraph⟩ :: later ∧
          r.target = firstTable? later) ∧
          ∀ t, r.target = some t → ¬ r.paragraph.Inside t := by
  refine ⟨fun place h => Option.map_eq_some_iff.mp (mem_places_iff.mp h),
    fun a b => count_address, pairwise_places blocks, fun earlier place later h =>
      ⟨not_inside_of_mem_earlier h, fun t => not_inside_of_firstTable? h⟩, fun r hr => ?_⟩
  rcases exists_of_mem_tableRequests hr with ⟨earlier, later, hsplit, htarget⟩
  refine ⟨⟨earlier, later, hsplit, htarget⟩, fun t ht => ?_⟩
  exact not_inside_of_firstTable? hsplit (htarget ▸ ht)

-- A table in a cell comes after what is above it there, and before what is in it.
example :
    let deep : Block := .table ⟨∅, [.ofTexts ["deep"]]⟩
    let cell : Cell := ⟨∅, [.paragraph (.ofText "above"), deep, .paragraph (.ofText "below")]⟩
    let body : List Block := [.table ⟨∅, [⟨∅, [cell]⟩]⟩, .paragraph (.ofText "outro")]
    (places body).map (fun place => (place.kind, place.address.steps.length)) =
      [(.table, 0), (.paragraph, 1), (.table, 1), (.paragraph, 2), (.paragraph, 1),
        (.paragraph, 0)] := rfl

end MailMerge
