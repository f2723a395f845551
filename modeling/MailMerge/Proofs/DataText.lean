import MailMerge.Data.Path
import MailMerge.Merge.Rows
import MailMerge.Table.Synthesis

/-!
# Characters of Data

Where the characters come from that a merge puts into a document. The text of an element
is made of stretches of text in it and below it, what a path leads to is in the tree, and
a column is called what some element is called. So a character that is in no name and in
no stretch of text of a data tree is put nowhere.

## Main definitions

* `Element.IsIn`: Whether an element is in a tree.
* `Element.Avoids`: A tree without a character in its names and texts.

## Theorems

* `avoids_mk_iff`: Whether a tree avoids a character, by its parts.
* `notMem_text_of_avoids`: What is avoided is not in the text.
* `notMem_textUnder`: The text of a column is text of the element.
* `notMem_text_of_mem_listAt`: The rows at a path have the text at the path.
-/

namespace MailMerge

namespace Element

/-- Whether an element is in a tree, at any depth. -/
inductive IsIn : Element → Element → Prop
  | self (e : Element) : IsIn e e
  | child {e c d : Element} (mem : c ∈ d.children) (below : IsIn e c) : IsIn e d

theorem IsIn.trans {a b c : Element} (hab : a.IsIn b) (hbc : b.IsIn c) : a.IsIn c := by
  induction hbc with
  | self => exact hab
  | child mem _ ih => exact IsIn.child mem ih

theorem isIn_of_child? {e c : Element} {name : String} (h : e.child? name = some c) : c.IsIn e :=
  IsIn.child (List.mem_of_find?_eq_some h) (IsIn.self c)

/-- Whether no name and no stretch of text in a tree has a character. -/
def Avoids (x : Char) (data : Element) : Prop :=
  ∀ e : Element, e.IsIn data → x ∉ e.name.toList ∧ ∀ s, .text s ∈ e.content → x ∉ s.toList

theorem Avoids.of_isIn {x : Char} {data e : Element} (h : data.Avoids x) (he : e.IsIn data) :
    e.Avoids x :=
  fun d hd => h d (hd.trans he)

theorem mem_children_iff {e c : Element} : c ∈ e.children ↔ .element c ∈ e.content := by
  rw [children, List.mem_filterMap]
  constructor
  · intro h'
    rcases h' with ⟨item, hitem, hc⟩
    cases item with
    | text s => exact absurd hc (by simp only [Content.element?, reduceCtorEq, not_false_eq_true])
    | element d =>
        rw [Content.element?, Option.some.injEq] at hc
        exact hc ▸ hitem
  · intro h
    exact ⟨_, h, rfl⟩

/-- A tree avoids a character if its root does and the trees below do. -/
theorem avoids_mk_iff {x : Char} {name : String} {content : List Content} :
    (⟨name, content⟩ : Element).Avoids x ↔ x ∉ name.toList ∧
      (∀ s, .text s ∈ content → x ∉ s.toList) ∧ ∀ e, .element e ∈ content → e.Avoids x := by
  constructor
  · intro h
    have hroot := h _ (IsIn.self _)
    refine ⟨hroot.1, hroot.2, fun e he => ?_⟩
    have hchild : e ∈ (⟨name, content⟩ : Element).children := mem_children_iff.mpr he
    exact h.of_isIn (IsIn.child hchild (IsIn.self e))
  · intro h e he
    cases he with
    | self => exact ⟨h.1, h.2.1⟩
    | child mem below => exact h.2.2 _ (mem_children_iff.mp mem) e below

/-- What is in the text of some content is in the text of an item. -/
theorem exists_of_mem_textOf {x : Char} {content : List Content}
    (h : x ∈ (textOf content).toList) : (∃ s, .text s ∈ content ∧ x ∈ s.toList) ∨
      ∃ e, .element e ∈ content ∧ x ∈ e.text.toList := by
  induction content with
  | nil => exact absurd h (by simp only [textOf, String.toList_empty, List.not_mem_nil,
      not_false_eq_true])
  | cons item rest ih =>
      have hrest : x ∈ (textOf rest).toList → (∃ s, .text s ∈ item :: rest ∧ x ∈ s.toList) ∨
          ∃ e, .element e ∈ item :: rest ∧ x ∈ e.text.toList := by
        intro h
        rcases ih h with ⟨s, hs, hx⟩ | ⟨e, he, hx⟩
        · exact Or.inl ⟨s, List.mem_cons_of_mem item hs, hx⟩
        · exact Or.inr ⟨e, List.mem_cons_of_mem item he, hx⟩
      cases item with
      | text s =>
          rw [textOf, String.toList_append, List.mem_append] at h
          exact h.elim (fun hx => Or.inl ⟨s, List.mem_cons_self, hx⟩) hrest
      | element e =>
          rw [textOf, String.toList_append, List.mem_append] at h
          exact h.elim (fun hx => Or.inr ⟨e, List.mem_cons_self, hx⟩) hrest

/-- The text of an item is in the text of the content. -/
theorem mem_textOf_of_element {x : Char} {content : List Content} {e : Element}
    (he : .element e ∈ content) (hx : x ∈ e.text.toList) : x ∈ (textOf content).toList := by
  induction content with
  | nil => exact absurd he List.not_mem_nil
  | cons item rest ih =>
      rcases List.mem_cons.mp he with rfl | hrest
      · rw [textOf, String.toList_append]
        exact List.mem_append_left _ hx
      · cases item <;> rw [textOf, String.toList_append] <;>
          exact List.mem_append_right _ (ih hrest)

theorem text_eq_textOf (e : Element) : e.text = textOf e.content := by
  cases e
  rw [text]

-- A child is inside a list of content, so induction over elements goes by size.
theorem sizeOf_lt_of_mem_children {e c : Element} (h : c ∈ e.children) : sizeOf c < sizeOf e := by
  have hitem := List.sizeOf_lt_of_mem (mem_children_iff.mp h)
  cases e
  simp only [Content.element.sizeOf_spec, mk.sizeOf_spec] at hitem ⊢
  omega

/-- What is avoided is not in the text. -/
theorem notMem_text_of_avoids {x : Char} {data : Element} (h : data.Avoids x) :
    x ∉ data.text.toList := by
  suffices hn : ∀ (n : Nat) (e : Element), sizeOf e ≤ n → e.Avoids x → x ∉ e.text.toList from
    hn (sizeOf data) data (Nat.le_refl _) h
  intro n
  induction n with
  | zero =>
      intro e he
      have hpos : 0 < sizeOf e := by
        cases e
        simp only [mk.sizeOf_spec]
        omega
      omega
  | succ n ih =>
      intro e he havoids hx
      rw [text_eq_textOf] at hx
      rcases exists_of_mem_textOf hx with ⟨s, hs, hxs⟩ | ⟨c, hc, hxc⟩
      · exact (havoids e (IsIn.self e)).2 s hs hxs
      · have hchild := mem_children_iff.mpr hc
        have hlt := sizeOf_lt_of_mem_children hchild
        exact ih c (by omega) (havoids.of_isIn (IsIn.child hchild (IsIn.self c))) hxc

/-- The text of a child is text of the element. -/
theorem notMem_text_of_mem_children {x : Char} {e c : Element} (hc : c ∈ e.children)
    (h : x ∉ e.text.toList) : x ∉ c.text.toList := by
  intro hx
  rw [text_eq_textOf] at h
  exact h (mem_textOf_of_element (mem_children_iff.mp hc) hx)

/-- The text of a column is text of the element. -/
theorem notMem_textUnder {x : Char} {e : Element} (h : x ∉ e.text.toList) (name : String) :
    x ∉ (e.textUnder name).toList := by
  rw [textUnder]
  split
  · next c hc => exact notMem_text_of_mem_children (List.mem_of_find?_eq_some hc) h
  · exact List.not_mem_nil

/-- The rows at a path have the text at the path. -/
theorem notMem_text_of_mem_listAt {x : Char} {data e : Element} {path : String}
    (h : x ∉ (data.textAt path).toList) (he : e ∈ data.listAt path) : x ∉ e.text.toList := by
  rw [listAt] at he
  rw [textAt] at h
  cases hresolve : data.resolve? path with
  | none =>
      rw [hresolve] at he
      exact absurd he List.not_mem_nil
  | some d =>
      rw [hresolve] at he h
      exact notMem_text_of_mem_children he h

theorem isIn_of_descend? {e d : Element} {path : List String} (h : e.descend? path = some d) :
    d.IsIn e := by
  induction path generalizing e with
  | nil =>
      rw [descend?, Option.some.injEq] at h
      exact h ▸ IsIn.self e
  | cons name path ih =>
      rcases Option.bind_eq_some_iff.mp h with ⟨c, hc, hd⟩
      exact (ih hd).trans (isIn_of_child? hc)

/-- What a path leads to avoids what the tree avoids. -/
theorem Avoids.textAt {x : Char} {data : Element} (h : data.Avoids x) (path : String) :
    x ∉ (data.textAt path).toList := by
  rw [Element.textAt]
  cases hresolve : data.resolve? path with
  | none => exact List.not_mem_nil
  | some d =>
      rw [Option.map_some, Option.getD_some]
      exact notMem_text_of_avoids (h.of_isIn (isIn_of_descend? hresolve))

/-- The rows at a path are in the tree. -/
theorem isIn_of_mem_listAt {data e : Element} {path : String} (he : e ∈ data.listAt path) :
    e.IsIn data := by
  rw [listAt] at he
  cases hresolve : data.resolve? path with
  | none =>
      rw [hresolve] at he
      exact absurd he List.not_mem_nil
  | some d =>
      rw [hresolve] at he
      exact (IsIn.child he (IsIn.self e)).trans (isIn_of_descend? hresolve)

theorem Avoids.of_mem_listAt {x : Char} {data e : Element} (h : data.Avoids x) {path : String}
    (he : e ∈ data.listAt path) : e.Avoids x :=
  h.of_isIn (isIn_of_mem_listAt he)

/-- A column is called what some element is called. -/
theorem Avoids.of_mem_columns {x : Char} {e : Element} (h : e.Avoids x) {name : String}
    (hname : name ∈ e.columns) : x ∉ name.toList := by
  rcases List.mem_map.mp hname with ⟨c, hc, rfl⟩
  have hnot := (h c (IsIn.child hc (IsIn.self c))).1
  rw [localName, String.toList_ofList, List.mem_reverse]
  intro hx
  exact hnot (List.mem_reverse.mp ((List.takeWhile_sublist _).subset hx))

end Element

end MailMerge
