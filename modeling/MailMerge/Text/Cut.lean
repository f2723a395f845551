/-!
# Cutting a Text into Finds

A recogniser says whether something begins where a text begins. Cutting a
text with it walks from left to right: where the recogniser finds something,
the whole find becomes one piece and the walk goes on behind it; elsewhere a
single character is passed over. The finds are therefore the leftmost ones,
and no two of them overlap.

Everything that searches here is one such cut. Markers are the finds of the
marker recogniser, replacing a literal replaces the finds of that literal, and
the lexemes of a data format are the finds of its lexeme recogniser.

A find tells how many characters it takes beyond the first. It can never be
empty, so the walk always moves on, and the walk is structural: `cut` counts
down the characters it still has to skip.

## Main definitions

* `Find`: What a recogniser found, and how far it reaches.
* `Piece`, `pieces`: A text cut into passed characters and finds.
* `strip?`: The rest of a text behind a literal it begins with.
* `replaceFinds`: A text with each find replaced.
* `replaceAll`: A string with each occurrence of a literal replaced.
* `splitAtFirst?`: A text cut at the first occurrence of a literal.
* `byteLength`: The length of a text in UTF-8 bytes.

## Theorems

* `cut_eq_cut_drop`: Skipping is the same as starting further on.
* `flatMap_text_pieces`: Cutting loses nothing.
* `strip?_eq_some_iff`: Stripping inverts putting the literal in front.
* `eq_of_splitAtFirst?`: The two sides and the literal make up the text.
* `byteLength_append`, `byteLength_pos`: Parts of a text have their bytes one behind the other,
  and a part that is not empty has some.
-/

namespace MailMerge

namespace Text

/-- What a recogniser found at the beginning of a text: a value, and the
    number of characters the find takes beyond the first one. -/
structure Find (α : Type) where
  value : α
  beyond : Nat

/-- One piece of a text that was cut: a character that was passed over, or a
    find with the text it covers. -/
inductive Piece (α : Type) where
  | plain (c : Char)
  | find (text : List Char) (value : α)

/-- The text that a piece covers. -/
def Piece.text {α : Type} : Piece α → List Char
  | .plain c => [c]
  | .find t _ => t

/-- Cuts what is left of a text after `skip` further characters, which belong
    to a find that was already made. -/
def cut {α : Type} (recognise : List Char → Option (Find α)) :
    (skip : Nat) → List Char → List (Piece α)
  | _, [] => []
  | skip + 1, _ :: t => cut recognise skip t
  | 0, c :: t => match recognise (c :: t) with
    | none => .plain c :: cut recognise 0 t
    | some f => .find ((c :: t).take (f.beyond + 1)) f.value :: cut recognise f.beyond t

/-- A text cut into the leftmost finds of a recogniser and the characters
    between them. -/
def pieces {α : Type} (recognise : List Char → Option (Find α)) (t : List Char) :
    List (Piece α) :=
  cut recognise 0 t

theorem cut_eq_cut_drop {α : Type} (recognise : List Char → Option (Find α)) (skip : Nat)
    (t : List Char) : cut recognise skip t = cut recognise 0 (t.drop skip) := by
  induction t generalizing skip with
  | nil => cases skip <;> rfl
  | cons c t ih =>
      cases skip with
      | zero => rfl
      | succ n => exact ih n

/-- Cutting loses nothing: the pieces in order make up the text. -/
theorem flatMap_text_pieces {α : Type} (recognise : List Char → Option (Find α))
    (t : List Char) : (pieces recognise t).flatMap Piece.text = t := by
  suffices h : ∀ (n : Nat) (t : List Char), t.length ≤ n →
      (cut recognise 0 t).flatMap Piece.text = t from h t.length t (Nat.le_refl _)
  intro n
  induction n with
  | zero =>
      intro t ht
      rw [List.length_eq_zero_iff.mp (Nat.le_zero.mp ht)]
      rfl
  | succ n ih =>
      intro t ht
      cases t with
      | nil => rfl
      | cons c t =>
          simp only [List.length_cons] at ht
          simp only [cut]
          cases recognise (c :: t) with
          | none =>
              simp only [List.flatMap_cons, Piece.text, ih t (by omega), List.singleton_append]
          | some f =>
              simp only [List.flatMap_cons, Piece.text, List.take_succ_cons, List.cons_append]
              rw [cut_eq_cut_drop, ih (t.drop f.beyond) (by rw [List.length_drop]; omega),
                List.take_append_drop]

/-- A text in which each find is replaced by what `f` makes of its value. -/
def replaceFinds {α : Type} (recognise : List Char → Option (Find α)) (f : α → List Char)
    (t : List Char) : List Char :=
  (pieces recognise t).flatMap fun
    | .plain c => [c]
    | .find _ a => f a

/-- What is left of a text behind the literal it begins with, if it does. -/
def strip? : (literal : List Char) → List Char → Option (List Char)
  | [], t => some t
  | _ :: _, [] => none
  | l :: literal, c :: t => if l = c then strip? literal t else none

theorem strip?_eq_some_iff {literal t rest : List Char} :
    strip? literal t = some rest ↔ t = literal ++ rest := by
  induction literal generalizing t with
  | nil => simp only [strip?, Option.some.injEq, List.nil_append]
  | cons l literal ih =>
      cases t with
      | nil => simp only [strip?, reduceCtorEq, List.cons_append]
      | cons c t =>
          by_cases h : l = c
          · simp only [strip?, h, if_true, ih, List.cons_append, List.cons.injEq, true_and]
          · simp only [strip?, h, if_false, reduceCtorEq, List.cons_append, List.cons.injEq,
              false_iff, not_and]
            intro h'
            exact absurd h'.symm h

/-- Finds one literal. An empty literal is found nowhere. -/
def literal? (literal t : List Char) : Option (Find Unit) :=
  match literal, strip? literal t with
  | _ :: beyond, some _ => some ⟨(), beyond.length⟩
  | _, _ => none

/-- A string with every occurrence of a literal, from left to right and
    without overlaps, replaced by a value. -/
def replaceAll (literal value s : String) : String :=
  String.ofList (replaceFinds (literal? literal.toList) (fun _ => value.toList) s.toList)

/-- The text before the first occurrence of a literal and the text behind
    it, if the literal occurs. -/
def splitAtFirst? (literal : List Char) : List Char → Option (List Char × List Char)
  | [] => if literal = [] then some ([], []) else none
  | c :: t => match strip? literal (c :: t) with
    | some rest => some ([], rest)
    | none => (splitAtFirst? literal t).map fun (before, rest) => (c :: before, rest)

/-- Cutting at a literal loses nothing but the literal. -/
theorem eq_of_splitAtFirst? {literal t before rest : List Char}
    (h : splitAtFirst? literal t = some (before, rest)) : t = before ++ literal ++ rest := by
  induction t generalizing before with
  | nil =>
      simp only [splitAtFirst?] at h
      split at h
      · next hl =>
          simp only [Option.some.injEq, Prod.mk.injEq] at h
          rw [hl, ← h.1, ← h.2]
          rfl
      · exact absurd h (by simp only [reduceCtorEq, not_false_eq_true])
  | cons c t ih =>
      simp only [splitAtFirst?] at h
      split at h
      · next hs =>
          simp only [Option.some.injEq, Prod.mk.injEq] at h
          rw [strip?_eq_some_iff.mp hs, ← h.1, ← h.2, List.nil_append]
      · obtain ⟨⟨b, r⟩, hb, hr⟩ := Option.map_eq_some_iff.mp h
        simp only [Prod.mk.injEq] at hr
        rw [ih (hr.2 ▸ hb), ← hr.1]
        rfl

/-- The length of a text in UTF-8 bytes. -/
def byteLength : List Char → Nat
  | [] => 0
  | c :: t => c.utf8Size + byteLength t

theorem byteLength_append (t u : List Char) :
    byteLength (t ++ u) = byteLength t + byteLength u := by
  induction t with
  | nil => rw [List.nil_append, byteLength, Nat.zero_add]
  | cons c t ih => rw [List.cons_append, byteLength, byteLength, ih, Nat.add_assoc]

theorem byteLength_pos {t : List Char} (h : t ≠ []) : 0 < byteLength t := by
  cases t with
  | nil => exact absurd rfl h
  | cons c t => exact Nat.add_pos_left c.utf8Size_pos (byteLength t)

end Text

end MailMerge
