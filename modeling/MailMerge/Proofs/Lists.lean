import Mathlib.Algebra.GroupWithZero.Nat
import Mathlib.Data.List.Forall2

/-!
# Lists

What is used here and there about lists, and says nothing of documents.

A body is changed at one place at a time, which on a list is `modify`, and is looked at as a
whole, which is `map`. So most of it is about how the two go together. The rest is about
counting by keys, and about what stays in order.

## Theorems

* `map_modify`, `map_modify_of_eq`, `map_modify_congr`: Looking at a changed list.
* `modify_congr`, `modify_append_add`, `exists_of_mem_modify`: A change at an index.
* `map_eq_self`, `map_eq_modify`: Changing everywhere what is to be changed at one place.
* `countP_or`, `sum_map_countP`, `sum_map_filterMap`: Counting in parts.
* `sublist_flatten`: What stays among lists that are put together.
-/

namespace MailMerge

variable {α β : Type}

/-! ### Changes at an index -/

theorem map_modify {f : α → α} {g : β → β} {h : α → β}
    (comm : ∀ a, h (f a) = g (h a)) (l : List α) (k : Nat) :
    (l.modify k f).map h = (l.map h).modify k g := by
  induction l generalizing k with
  | nil => simp only [List.modify_nil, List.map_nil]
  | cons a l ih =>
      cases k with
      | zero => simp only [List.modify_zero_cons, List.map_cons, comm]
      | succ k => simp only [List.modify_succ_cons, List.map_cons, ih]

-- What is read off each entry of a list stays if the change of one entry does not show.
theorem map_modify_of_eq {f : α → α} {h : α → β} (eq : ∀ a, h (f a) = h a)
    (l : List α) (k : Nat) : (l.modify k f).map h = l.map h := by
  rw [map_modify (g := id) eq, List.modify_id]

/-- Lists look the same when their elements do, one by one. -/
theorem map_eq_iff_forall₂ {look : α → β} {l l' : List α} :
    l.map look = l'.map look ↔ List.Forall₂ (fun a a' => look a = look a') l l' := by
  rw [← List.forall₂_eq_eq_eq, List.forall₂_map_left_iff, List.forall₂_map_right_iff]

theorem map_modify_congr {look : α → β} {f f' : α → α} {l l' : List α}
    (h : l.map look = l'.map look) (hf : ∀ a a', look a = look a' → look (f a) = look (f' a'))
    (k : Nat) : (l.modify k f).map look = (l'.modify k f').map look := by
  replace h := map_eq_iff_forall₂.mp h
  induction h generalizing k with
  | nil => rw [List.modify_nil, List.modify_nil]
  | @cons a a' l l' ha hl ih =>
      cases k with
      | zero =>
          rw [List.modify_zero_cons, List.modify_zero_cons, List.map_cons, List.map_cons,
            hf a a' ha, map_eq_iff_forall₂.mpr hl]
      | succ k =>
          rw [List.modify_succ_cons, List.modify_succ_cons, List.map_cons, List.map_cons, ha, ih k]

-- A change of a list at an index depends on what is there.
theorem modify_congr {f g : α → α} {l : List α} {k : Nat}
    (h : ∀ a, l[k]? = some a → f a = g a) : l.modify k f = l.modify k g := by
  apply List.ext_getElem?
  intro j
  rw [List.getElem?_modify, List.getElem?_modify]
  cases hj : l[j]? with
  | none => rfl
  | some a =>
      rw [Option.map_eq_map, Option.map_eq_map, Option.map_some, Option.map_some]
      by_cases hkj : k = j
      · rw [if_pos hkj, if_pos hkj, h a (hkj ▸ hj)]
      · rw [if_neg hkj, if_neg hkj]

-- Past the entries of one list it is the other list that is changed.
theorem modify_append_add (f : α → α) (l m : List α) (k : Nat) :
    (l ++ m).modify (l.length + k) f = l ++ m.modify k f := by
  rw [List.modify, List.modify, List.modifyTailIdx_add]

theorem exists_of_mem_modify {f : α → α} {l : List α} {i : Nat} {y : α}
    (h : y ∈ l.modify i f) : y ∈ l ∨ ∃ x, l[i]? = some x ∧ x ∈ l ∧ y = f x := by
  rcases List.mem_iff_getElem?.mp h with ⟨k, hk⟩
  rw [List.getElem?_modify] at hk
  rcases Option.map_eq_some_iff.mp hk with ⟨x, hx, rfl⟩
  by_cases hik : i = k
  · rw [if_pos hik]
    subst hik
    exact Or.inr ⟨x, hx, List.mem_of_getElem? hx, rfl⟩
  · rw [if_neg hik]
    exact Or.inl (List.mem_of_getElem? hx)

theorem map_eq_self {f : α → α} {l : List α} (h : ∀ a ∈ l, f a = a) : l.map f = l := by
  conv_rhs => rw [← List.map_id l]
  exact List.map_congr_left h

-- The function may depend on the place only in so far as it does nothing elsewhere.
theorem map_eq_modify {f g : α → α} {l : List α} {k : Nat}
    (h : ∀ j a, l[j]? = some a → f a = if j = k then g a else a) : l.map f = l.modify k g := by
  apply List.ext_getElem?
  intro j
  rw [List.getElem?_map, List.getElem?_modify, Option.map_eq_map]
  cases hj : l[j]? with
  | none => rfl
  | some a =>
      simp only [Option.map_some, h j a hj]
      by_cases hjk : j = k
      · simp only [hjk, if_true]
      · simp only [hjk, Ne.symm hjk, if_false]

/-! ### Counting -/

theorem countP_or {p q : α → Bool} (disjoint : ∀ a, p a = true → q a = false)
    (l : List α) : l.countP (fun a => p a || q a) = l.countP p + l.countP q := by
  induction l with
  | nil => rfl
  | cons a l ih =>
      rw [List.countP_cons, List.countP_cons, List.countP_cons, ih]
      by_cases hp : p a = true
      · rw [hp, disjoint a hp, Bool.true_or, if_pos rfl, if_neg Bool.false_ne_true]
        omega
      · rw [Bool.eq_false_iff.mpr hp, Bool.false_or, if_neg Bool.false_ne_true]
        omega

-- Whatever has a key among some keys has one of them, and is counted there only.
theorem sum_map_countP {κ : Type} [DecidableEq κ] (key : α → Option κ) (l : List α)
    {keys : List κ} (nodup : keys.Nodup) :
    (keys.map fun k => l.countP fun a => key a = some k).sum =
      l.countP fun a => (key a).any fun k => k ∈ keys := by
  induction keys with
  | nil =>
      refine (List.countP_eq_zero.mpr fun a _ => ?_).symm
      cases key a <;> exact Bool.false_ne_true
  | cons k keys ih =>
      rw [List.nodup_cons] at nodup
      have hsplit : (fun a => (key a).any fun x => x ∈ k :: keys) =
          fun a => decide (key a = some k) || (key a).any fun x => x ∈ keys := by
        funext a
        cases key a with
        | none => rfl
        | some x => simp only [Option.any_some, List.mem_cons, Bool.decide_or, Option.some.injEq]
      have hdisjoint : ∀ a, decide (key a = some k) = true →
          ((key a).any fun x => x ∈ keys) = false := by
        intro a ha
        rw [of_decide_eq_true ha, Option.any_some]
        exact decide_eq_false nodup.1
      rw [List.map_cons, List.sum_cons, ih nodup.2, hsplit, countP_or hdisjoint]

theorem sum_map_filterMap (g : α → Option β) (f : β → Nat) (l : List α) :
    ((l.filterMap g).map f).sum = (l.map fun a => ((g a).map f).getD 0).sum := by
  induction l with
  | nil => rfl
  | cons a l ih =>
      rw [List.map_cons, List.sum_cons, ← ih]
      cases hg : g a with
      | none => rw [List.filterMap_cons_none hg, Option.map_none, Option.getD_none, Nat.zero_add]
      | some b => rw [List.filterMap_cons_some hg, List.map_cons, List.sum_cons, Option.map_some,
          Option.getD_some]

/-! ### Order -/

-- Lists are read from some member on, and this takes one more.
theorem getElem?_of_drop_eq_cons {l rest : List α} {k : Nat} {a : α}
    (h : l.drop k = a :: rest) : l[k]? = some a ∧ l.drop (k + 1) = rest := by
  constructor
  · rw [← List.head?_drop, h, List.head?_cons]
  · rw [← List.tail_drop, h, List.tail_cons]

-- Elements that stay among lists that are put together stay in order.
theorem sublist_flatten {keep : α × Nat → Bool} {l : List α} {parts : List (List α)}
    {n : Nat} (hlen : parts.length = l.length)
    (h : ∀ k a, l[k]? = some a → keep (a, n + k) = true → parts[k]? = some [a]) :
    (((l.zipIdx n).filter keep).map Prod.fst).Sublist parts.flatten := by
  induction l generalizing parts n with
  | nil => exact List.nil_sublist _
  | cons a l ih =>
      cases parts with
      | nil => exact absurd hlen (by simp only [List.length_nil, List.length_cons, reduceCtorEq,
          not_false_eq_true])
      | cons part parts =>
          rw [List.length_cons, List.length_cons, Nat.add_right_cancel_iff] at hlen
          have hrest : (((l.zipIdx (n + 1)).filter keep).map Prod.fst).Sublist parts.flatten := by
            refine ih hlen fun k b hb hkeep => ?_
            rw [Nat.add_assoc, Nat.add_comm 1 k] at hkeep
            exact h (k + 1) b hb hkeep
          rw [List.zipIdx_cons, List.flatten_cons]
          cases hkeep : keep (a, n) with
          | false =>
              rw [List.filter_cons_of_neg (Bool.not_eq_true _ ▸ hkeep)]
              exact hrest.trans (List.sublist_append_right part parts.flatten)
          | true =>
              have hpart : part = [a] := by
                have h₀ := h 0 a rfl hkeep
                rwa [List.getElem?_cons_zero, Option.some.injEq] at h₀
              rw [List.filter_cons_of_pos hkeep, List.map_cons, hpart, List.singleton_append]
              exact hrest.cons_cons a

end MailMerge
