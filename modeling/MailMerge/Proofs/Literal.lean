import Mathlib.Data.List.Basic
import Mathlib.Data.List.TakeWhile
import MailMerge.Marker

/-!
# Literals of Markers

The text that a marker covers, its literal, can be told from its characters alone. It
is an opening, the path and a closing, and the recogniser looks no further than that:
what comes behind the literal plays no part. The one place where this takes an argument
is the path, which ends at the first closing. More text behind the literal could make a
closing out of characters of the path only if one of them was the quote of that closing,
and then all of it would have to lie before the quote that really closes the marker.

A literal whose path has no `<` has that character in two places, at its beginning and
before its word. Only the first is followed by `#`. So no marker begins inside of such
a literal, and no other literal does, and of two literals neither begins with the other
unless they are the same.

## Main definitions

* `IsOpening`, `IsClosing`: The two ends of a marker.
* `IsLiteral`: The literals of a kind, with their paths.

## Theorems

* `opening?_eq_some_iff`, `closing?_eq_some_iff`: What the two ends are.
* `recognise_append`, `exists_isLiteral`: What a recogniser finds is a literal, whatever
  comes behind it.
* `recognise_eq_none_of_isLiteral`: A literal of one kind is none of the other.
* `IsLiteral.strip?_suffix_eq_none`: No marker begins inside of a literal.
* `IsLiteral.eq_of_strip?`: No literal begins with another one.
* `isLiteral_of_mem_pieces`, `isLiteral_of_mem_scan`: What is found in a text is a literal.
-/

namespace MailMerge

open Text (isBlank dropBlank strip? strip?_eq_some_iff)

/-- Whether a text has nothing but blanks in it. -/
def AllBlank (t : List Char) : Prop := ∀ c ∈ t, isBlank c = true

instance (t : List Char) : Decidable (AllBlank t) :=
  List.decidableBAll (fun c => isBlank c = true) t

/-- Dropping blanks is finding out where they end. -/
theorem dropBlank_eq_cons_iff {c : Char} {t rest : List Char} (hc : isBlank c = false) :
    dropBlank t = c :: rest ↔ ∃ blanks, AllBlank blanks ∧ t = blanks ++ c :: rest := by
  constructor
  · intro h
    refine ⟨t.takeWhile isBlank, fun b hb => List.mem_takeWhile_imp hb, ?_⟩
    rw [← h, dropBlank, List.takeWhile_append_dropWhile]
  · intro h'
    rcases h' with ⟨blanks, hblanks, rfl⟩
    rw [dropBlank, List.dropWhile_append_of_pos hblanks, List.dropWhile_cons, hc]
    rfl

/-- A word behind blanks. -/
theorem strip?_dropBlank_eq_some_iff {c : Char} {word t rest : List Char}
    (hc : isBlank c = false) : strip? (c :: word) (dropBlank t) = some rest ↔
      ∃ blanks, AllBlank blanks ∧ t = blanks ++ (c :: word) ++ rest := by
  rw [strip?_eq_some_iff, List.cons_append, dropBlank_eq_cons_iff hc]
  simp only [List.append_assoc, List.cons_append]

namespace Marker

/-- A quote of either sort. -/
def IsQuote (c : Char) : Prop := c = '"' ∨ c = '\''

instance : DecidablePred IsQuote := fun _ => inferInstanceAs (Decidable (_ ∨ _))

theorem IsQuote.isBlank_eq_false {c : Char} (h : IsQuote c) : isBlank c = false := by
  rcases h with rfl | rfl <;> decide

-- No quote is a blank, so the first character that is none has to be the quote.
theorem quote?_dropBlank_eq_some_iff {t rest : List Char} :
    quote? (dropBlank t) = some rest ↔
      ∃ blanks c, AllBlank blanks ∧ IsQuote c ∧ t = blanks ++ c :: rest := by
  rw [quote?_eq_some_iff]
  constructor
  · intro h'
    rcases h' with h | h
    · rcases (dropBlank_eq_cons_iff (by decide)).mp h with ⟨blanks, hblanks, ht⟩
      exact ⟨blanks, '"', hblanks, Or.inl rfl, ht⟩
    · rcases (dropBlank_eq_cons_iff (by decide)).mp h with ⟨blanks, hblanks, ht⟩
      exact ⟨blanks, '\'', hblanks, Or.inr rfl, ht⟩
  · intro h'
    rcases h' with ⟨blanks, c, hblanks, rfl | rfl, ht⟩
    · exact Or.inl ((dropBlank_eq_cons_iff (by decide)).mpr ⟨blanks, hblanks, ht⟩)
    · exact Or.inr ((dropBlank_eq_cons_iff (by decide)).mpr ⟨blanks, hblanks, ht⟩)

/-- A word behind one blank or more. -/
theorem blanks?_bind_strip?_eq_some_iff {c : Char} {word t rest : List Char}
    (hc : isBlank c = false) : ((blanks? t).bind (strip? (c :: word))) = some rest ↔
      ∃ blanks, blanks ≠ [] ∧ AllBlank blanks ∧ t = blanks ++ (c :: word) ++ rest := by
  constructor
  · intro h
    rcases Option.bind_eq_some_iff.mp h with ⟨u, hu, hword⟩
    cases t with
    | nil => exact absurd hu (by simp only [blanks?, reduceCtorEq, not_false_eq_true])
    | cons b t =>
        simp only [blanks?, Option.ite_none_right_eq_some, Option.some.injEq] at hu
        rcases hu with ⟨hb, rfl⟩
        rcases (strip?_dropBlank_eq_some_iff hc).mp hword with ⟨blanks, hblanks, rfl⟩
        refine ⟨b :: blanks, List.cons_ne_nil b blanks, fun x hx => ?_, rfl⟩
        rcases List.mem_cons.mp hx with rfl | hx
        · exact hb
        · exact hblanks x hx
  · intro h'
    rcases h' with ⟨blanks, hne, hblanks, rfl⟩
    cases blanks with
    | nil => exact absurd rfl hne
    | cons b blanks =>
        have hb := hblanks b List.mem_cons_self
        have hword := (strip?_dropBlank_eq_some_iff (t := blanks ++ (c :: word) ++ rest) hc).mpr
          ⟨blanks, fun x hx => hblanks x (List.mem_cons_of_mem b hx), rfl⟩
        simp only [List.cons_append, blanks?, hb, if_true, Option.bind_some]
        exact hword

/-- The beginning of a marker, the first quote included. -/
def IsOpening (kind : Kind) (t : List Char) : Prop :=
  ∃ front behind around inner quote, AllBlank front ∧ behind ≠ [] ∧ AllBlank behind ∧
    AllBlank around ∧ AllBlank inner ∧ IsQuote quote ∧
    t = ['<', '#'] ++ (front ++ ('<' :: kind.word.toList) ++ (behind ++ "Select".toList ++
      (around ++ ['='] ++ (inner ++ [quote]))))

/-- The end of a marker, from the last quote on. -/
def IsClosing (t : List Char) : Prop :=
  ∃ quote inner around, IsQuote quote ∧ AllBlank inner ∧ AllBlank around ∧
    t = quote :: (inner ++ ['/', '>'] ++ (around ++ ['#', '>']))

/-- What a marker begins with. -/
theorem opening?_eq_some_iff {kind : Kind} {t rest : List Char} :
    opening? kind t = some rest ↔ ∃ o, IsOpening kind o ∧ t = o ++ rest := by
  have hselect : "Select".toList = 'S' :: "elect".toList := rfl
  simp only [opening?, Option.bind_eq_bind, Option.bind_eq_some_iff]
  constructor
  · -- Each part is taken off the front of what the one before has left.
    intro h
    rcases h with ⟨t₁, h₁, t₂, h₂, t₃, h₃, t₄, h₄, t₅, h₅, h₆⟩
    rcases (strip?_dropBlank_eq_some_iff (by decide)).mp h₂ with ⟨front, hfront, rfl⟩
    have hword : ((blanks? t₂).bind (strip? "Select".toList)) = some t₄ := by
      rw [h₃, Option.bind_some, h₄]
    rw [hselect] at hword
    rcases (blanks?_bind_strip?_eq_some_iff (by decide)).mp hword with ⟨behind, hne, hbehind, rfl⟩
    rcases (strip?_dropBlank_eq_some_iff (by decide)).mp h₅ with ⟨around, haround, rfl⟩
    rcases quote?_dropBlank_eq_some_iff.mp h₆ with ⟨inner, quote, hinner, hquote, rfl⟩
    refine ⟨_, ⟨front, behind, around, inner, quote, hfront, hne, hbehind, haround, hinner, hquote,
      rfl⟩, ?_⟩
    rw [strip?_eq_some_iff.mp h₁, hselect]
    simp only [List.append_assoc, List.cons_append, List.nil_append]
  · intro h
    rcases h with ⟨o, ⟨front, behind, around, inner, quote, hfront, hne, hbehind, haround, hinner,
      hquote, rfl⟩, rfl⟩
    -- From the back, as each part is found whatever is left behind it.
    have h₅ : strip? ['='] (dropBlank (around ++ ['='] ++ (inner ++ quote :: rest))) =
        some (inner ++ quote :: rest) :=
      (strip?_dropBlank_eq_some_iff (by decide)).mpr ⟨around, haround, rfl⟩
    have h₆ : quote? (dropBlank (inner ++ quote :: rest)) = some rest :=
      quote?_dropBlank_eq_some_iff.mpr ⟨inner, quote, hinner, hquote, rfl⟩
    have h₃ : ((blanks? (behind ++ "Select".toList ++ (around ++ ['='] ++
        (inner ++ quote :: rest)))).bind (strip? "Select".toList)) =
        some (around ++ ['='] ++ (inner ++ quote :: rest)) := by
      rw [hselect]
      exact (blanks?_bind_strip?_eq_some_iff (by decide)).mpr ⟨behind, hne, hbehind, rfl⟩
    rcases Option.bind_eq_some_iff.mp h₃ with ⟨t₃, hblanks, hword⟩
    refine ⟨_, ?_, _, (strip?_dropBlank_eq_some_iff (by decide)).mpr ⟨front, hfront, rfl⟩,
      t₃, hblanks, _, hword, _, h₅, h₆⟩
    refine strip?_eq_some_iff.mpr ?_
    simp only [List.append_assoc, List.cons_append, List.nil_append]

/-- What a marker ends with. -/
theorem closing?_eq_some_iff {t rest : List Char} :
    closing? t = some rest ↔ ∃ c, IsClosing c ∧ t = c ++ rest := by
  simp only [closing?, Option.bind_eq_bind, Option.bind_eq_some_iff]
  constructor
  · intro h
    rcases h with ⟨t₁, h₁, t₂, h₂, h₃⟩
    rcases (strip?_dropBlank_eq_some_iff (by decide)).mp h₂ with ⟨inner, hinner, rfl⟩
    rcases (strip?_dropBlank_eq_some_iff (by decide)).mp h₃ with ⟨around, haround, rfl⟩
    rcases quote?_eq_some_iff.mp h₁ with rfl | rfl
    · refine ⟨_, ⟨'"', inner, around, Or.inl rfl, hinner, haround, rfl⟩, ?_⟩
      simp only [List.append_assoc, List.cons_append]
    · refine ⟨_, ⟨'\'', inner, around, Or.inr rfl, hinner, haround, rfl⟩, ?_⟩
      simp only [List.append_assoc, List.cons_append]
  · intro h
    rcases h with ⟨c, ⟨quote, inner, around, hquote, hinner, haround, rfl⟩, rfl⟩
    refine ⟨inner ++ ['/', '>'] ++ (around ++ ['#', '>'] ++ rest), ?_,
      around ++ ['#', '>'] ++ rest, ?_, ?_⟩
    · rw [List.cons_append, List.append_assoc]
      rcases hquote with rfl | rfl
      · exact quote?_eq_some_iff.mpr (Or.inl rfl)
      · exact quote?_eq_some_iff.mpr (Or.inr rfl)
    · exact (strip?_dropBlank_eq_some_iff (by decide)).mpr ⟨inner, hinner, rfl⟩
    · exact (strip?_dropBlank_eq_some_iff (by decide)).mpr ⟨around, haround, rfl⟩

/-- There is one quote in a closing, and it comes first. -/
theorem IsClosing.exists_cons {t : List Char} (h : IsClosing t) :
    ∃ quote behind, IsQuote quote ∧ t = quote :: behind ∧ ∀ c ∈ behind, ¬ IsQuote c := by
  rcases h with ⟨quote, inner, around, hquote, hinner, haround, rfl⟩
  have hblank : ∀ blanks, AllBlank blanks → ∀ c ∈ blanks, ¬ IsQuote c := by
    intro blanks hblanks c hc hq
    have hfalse := hq.isBlank_eq_false
    rw [hblanks c hc] at hfalse
    exact Bool.false_ne_true hfalse.symm
  refine ⟨quote, _, hquote, rfl, fun c hc => ?_⟩
  simp only [List.mem_append, List.mem_cons, List.not_mem_nil, or_false] at hc
  rcases hc with (hc | rfl | rfl) | hc | rfl | rfl
  · exact hblank inner hinner c hc
  · decide
  · decide
  · exact hblank around haround c hc
  · decide
  · decide

/-- A closing that begins before another one ends before it, as the other begins with a quote. -/
theorem IsClosing.exists_append_eq {before c c' rest rest' : List Char} (hbefore : before ≠ [])
    (hc : IsClosing c) (hc' : IsClosing c') (heq : before ++ (c ++ rest) = c' ++ rest') :
    ∃ between, before = c' ++ between := by
  rcases List.append_eq_append_iff.mp heq with ⟨as, has, hrest⟩ | ⟨between, hbetween, _⟩
  · rcases hc'.exists_cons with ⟨quote', behind', _, hcons', hnone⟩
    rcases hc.exists_cons with ⟨quote, behind, hquote, hcons, _⟩
    cases as with
    | nil => exact ⟨[], by rw [has, List.append_nil, List.append_nil]⟩
    | cons a as =>
        cases before with
        | nil => exact absurd rfl hbefore
        | cons y before =>
            rw [hcons', List.cons_append, List.cons.injEq] at has
            rw [hcons, List.cons_append, List.cons_append, List.cons.injEq] at hrest
            refine absurd (hrest.1 ▸ hquote) (hnone a ?_)
            rw [has.2]
            exact List.mem_append_right before List.mem_cons_self
  · exact ⟨between, hbetween⟩

/-- Text behind a closing makes no closing before it. -/
theorem closing?_append_eq_none {before c rest : List Char} (hbefore : before ≠ [])
    (hc : IsClosing c) (h : closing? (before ++ (c ++ rest)) = none) (rest' : List Char) :
    closing? (before ++ (c ++ rest')) = none := by
  by_contra hsome
  rcases Option.ne_none_iff_exists'.mp hsome with ⟨r, hr⟩
  rcases closing?_eq_some_iff.mp hr with ⟨c', hc', heq⟩
  -- It would lie before the old one, and would have been found there already.
  rcases hc.exists_append_eq hbefore hc' heq with ⟨between, rfl⟩
  rw [closing?_eq_some_iff.mpr ⟨c', hc', List.append_assoc _ _ _⟩] at h
  exact absurd h (by simp only [reduceCtorEq, not_false_eq_true])

theorem path?_of_closing?_eq_some {t rest : List Char} (h : closing? t = some rest) :
    path? t = some ([], rest) := by
  cases t with
  | nil => exact absurd (h.symm.trans (rfl : closing? [] = none)) (Option.some_ne_none rest)
  | cons c t => rw [path?, h]

/-- A path goes up to the first closing, whatever comes behind that. -/
theorem path?_eq_some {t p rest : List Char} (h : path? t = some (p, rest)) :
    ∃ c, IsClosing c ∧ t = p ++ (c ++ rest) ∧
      ∀ rest', path? (p ++ (c ++ rest')) = some (p, rest') := by
  induction t generalizing p with
  | nil => exact absurd h (by simp only [path?, reduceCtorEq, not_false_eq_true])
  | cons x t ih =>
      rw [path?] at h
      split at h
      · -- The closing is here, so the path ends.
        next r hr =>
          simp only [Option.some.injEq, Prod.mk.injEq] at h
          rcases h with ⟨rfl, rfl⟩
          rcases closing?_eq_some_iff.mp hr with ⟨c, hc, hx⟩
          refine ⟨c, hc, hx, fun rest' => ?_⟩
          exact path?_of_closing?_eq_some (closing?_eq_some_iff.mpr ⟨c, hc, rfl⟩)
      · -- The path goes on by a character, and no later text makes a closing here.
        next hnone =>
          split at h
          · exact absurd h (by simp only [reduceCtorEq, not_false_eq_true])
          · next hline =>
              rcases Option.map_eq_some_iff.mp h with ⟨⟨p', r⟩, hp', hpair⟩
              simp only [Prod.mk.injEq] at hpair
              rcases hpair with ⟨rfl, rfl⟩
              rcases ih hp' with ⟨c, hc, rfl, hstable⟩
              refine ⟨c, hc, rfl, fun rest' => ?_⟩
              have hnone' := closing?_append_eq_none (List.cons_ne_nil x p') hc hnone rest'
              rw [List.cons_append] at hnone' ⊢
              rw [path?, hnone', if_neg hline, hstable]
              rfl

/-- No path holds a line break. -/
theorem newline_notMem_path {t p rest : List Char} (h : path? t = some (p, rest)) :
    '\n' ∉ p := by
  induction t generalizing p rest with
  | nil => exact absurd h (by simp only [path?, reduceCtorEq, not_false_eq_true])
  | cons c t ih =>
      rw [path?] at h
      split at h
      · simp only [Option.some.injEq, Prod.mk.injEq] at h
        rw [← h.1]
        exact List.not_mem_nil
      · split at h
        · exact absurd h (by simp only [reduceCtorEq, not_false_eq_true])
        · next hc =>
            rcases Option.map_eq_some_iff.mp h with ⟨⟨p', r⟩, hp', hpair⟩
            simp only [Prod.mk.injEq] at hpair
            rw [← hpair.1, List.mem_cons, not_or]
            exact ⟨Ne.symm hc, ih hp'⟩

/-! ### Literals -/

/-- The literals of a kind, each with the path in it. -/
def IsLiteral (kind : Kind) (literal path : List Char) : Prop :=
  ∃ o c, IsOpening kind o ∧ IsClosing c ∧ literal = o ++ (path ++ c) ∧
    ∀ rest, path? (path ++ (c ++ rest)) = some (path, rest)

theorem IsLiteral.newline_notMem_path {kind : Kind} {literal path : List Char}
    (h : IsLiteral kind literal path) : '\n' ∉ path := by
  rcases h with ⟨_, _, _, _, _, hstable⟩
  exact Marker.newline_notMem_path (hstable [])

/-- A literal is recognised, whatever comes behind it. -/
theorem recognise_append {kind : Kind} {literal path : List Char}
    (h : IsLiteral kind literal path) (rest : List Char) :
    recognise kind (literal ++ rest) = some ⟨path, literal.length - 1⟩ := by
  rcases h with ⟨o, c, ho, hc, rfl, hstable⟩
  have hopening : opening? kind (o ++ (path ++ c) ++ rest) = some (path ++ (c ++ rest)) := by
    refine opening?_eq_some_iff.mpr ⟨o, ho, ?_⟩
    simp only [List.append_assoc]
  simp only [recognise, hopening, Option.bind_eq_bind, Option.bind_some, hstable, Option.pure_def,
    Option.some.injEq, Text.Find.mk.injEq, true_and]
  rw [List.length_append, Nat.add_sub_cancel]

/-- What is recognised is a literal. -/
theorem exists_isLiteral {kind : Kind} {t : List Char} {f : Text.Find (List Char)}
    (h : recognise kind t = some f) :
    ∃ literal rest, IsLiteral kind literal f.value ∧ t = literal ++ rest := by
  simp only [recognise, Option.bind_eq_bind, Option.bind_eq_some_iff, Option.pure_def,
    Option.some.injEq] at h
  rcases h with ⟨t₁, hopening, ⟨path, rest⟩, hpath, rfl⟩
  rcases opening?_eq_some_iff.mp hopening with ⟨o, ho, rfl⟩
  rcases path?_eq_some hpath with ⟨c, hc, rfl, hstable⟩
  refine ⟨o ++ (path ++ c), rest, ⟨o, c, ho, hc, rfl, hstable⟩, ?_⟩
  simp only [List.append_assoc]

/-- A text is of one kind only. -/
theorem kind_eq_of_opening? {kind kind' : Kind} {t r r' : List Char}
    (h : opening? kind t = some r) (h' : opening? kind' t = some r') : kind = kind' := by
  simp only [opening?, Option.bind_eq_bind, Option.bind_eq_some_iff] at h h'
  rcases h with ⟨t₁, h₁, t₂, h₂, _⟩
  rcases h' with ⟨t₁', h₁', t₂', h₂', _⟩
  rw [h₁, Option.some.injEq] at h₁'
  subst h₁'
  -- The words of the two kinds begin differently.
  rw [strip?_eq_some_iff] at h₂ h₂'
  rw [h₂] at h₂'
  cases kind <;> cases kind'
  · rfl
  · exact absurd h₂' (by simp [Kind.word])
  · exact absurd h₂' (by simp [Kind.word])
  · rfl

/-- A literal of one kind is none of the other. -/
theorem recognise_eq_none_of_isLiteral {kind kind' : Kind} {literal path : List Char}
    (h : IsLiteral kind literal path) (hkind : kind ≠ kind') (rest : List Char) :
    recognise kind' (literal ++ rest) = none := by
  rcases h with ⟨o, c, ho, hc, rfl, hstable⟩
  have hopening : opening? kind (o ++ (path ++ c) ++ rest) = some (path ++ c ++ rest) :=
    opening?_eq_some_iff.mpr ⟨o, ho, List.append_assoc _ _ _⟩
  have hnone : opening? kind' (o ++ (path ++ c) ++ rest) = none := by
    cases h' : opening? kind' (o ++ (path ++ c) ++ rest) with
    | none => rfl
    | some r => exact absurd (kind_eq_of_opening? hopening h') hkind
  simp only [recognise, hnone, Option.bind_eq_bind, Option.bind_none]

/-! ### Inside of a literal -/

theorem lt_notMem_of_allBlank {t : List Char} (h : AllBlank t) : '<' ∉ t := by
  intro hmem
  exact absurd (h '<' hmem) (by decide)

/-- Where the two `<` of a literal are. -/
theorem IsLiteral.shape {kind : Kind} {literal path : List Char}
    (h : IsLiteral kind literal path) (hpath : '<' ∉ path) :
    ∃ front w back, literal = '<' :: '#' :: (front ++ '<' :: w :: back) ∧ '<' ∉ front ∧
      '<' ∉ w :: back ∧ w ≠ '#' := by
  rcases h with ⟨o, c, ⟨front, behind, around, inner, quote, hfront, _, hbehind, haround, hinner,
    hquote, rfl⟩, ⟨quote', inner', around', hquote', hinner', haround', rfl⟩, rfl, _⟩
  have hq : ∀ q, IsQuote q → '<' ≠ q := by
    rintro q (rfl | rfl) <;> decide
  have hword : ∃ w word, kind.word.toList = w :: word ∧ '<' ∉ w :: word ∧ w ≠ '#' := by
    cases kind
    · exact ⟨'C', "ontent".toList, rfl, by decide, by decide⟩
    · exact ⟨'T', "able".toList, rfl, by decide, by decide⟩
  rcases hword with ⟨w, word, hword, hlt, hne⟩
  refine ⟨front, w,
    word ++ (behind ++ "Select".toList ++ (around ++ ['='] ++ (inner ++ [quote]))) ++
    (path ++ quote' :: (inner' ++ ['/', '>'] ++ (around' ++ ['#', '>']))), ?_,
    lt_notMem_of_allBlank hfront, ?_, hne⟩
  · rw [hword]
    simp only [List.append_assoc, List.cons_append, List.nil_append]
  · have hselect : '<' ∉ "Select".toList := by decide
    simp only [List.mem_cons, not_or] at hlt
    simp only [List.mem_cons, List.mem_append, hlt, hselect, hpath, lt_notMem_of_allBlank hbehind,
      lt_notMem_of_allBlank haround, lt_notMem_of_allBlank hinner,
      lt_notMem_of_allBlank hinner', lt_notMem_of_allBlank haround', hq quote hquote,
      hq quote' hquote', List.not_mem_nil, Char.reduceEq, or_self, not_false_eq_true]

/-- No marker begins further in. -/
theorem IsLiteral.strip?_suffix_eq_none {kind : Kind} {literal path : List Char}
    (h : IsLiteral kind literal path) (hpath : '<' ∉ path) {a b : List Char}
    (hab : literal = a ++ b) (ha : a ≠ []) (hb : b ≠ []) (rest : List Char) :
    strip? ['<', '#'] (b ++ rest) = none := by
  rcases h.shape hpath with ⟨front, w, back, rfl, hfront, hback, hw⟩
  cases a with
  | nil => exact absurd rfl ha
  | cons x a =>
      cases b with
      | nil => exact absurd rfl hb
      | cons y b =>
          rw [List.cons_append, List.cons.injEq] at hab
          by_cases hy : '<' = y
          · -- Then it is the other one of the two, and the word comes next.
            subst hy
            have heq : ('#' :: front) ++ '<' :: w :: back = a ++ '<' :: b := hab.2
            have hfront' : '<' ∉ '#' :: front := by
              simp only [List.mem_cons, Char.reduceEq, hfront, or_self, not_false_eq_true]
            rcases (List.append_cons_inj_of_notMem hfront' hback).mp heq with ⟨_, _, rfl⟩
            rw [List.cons_append, List.cons_append, strip?, if_pos rfl, strip?, if_neg hw.symm]
          · rw [List.cons_append, strip?, if_neg hy]

/-- A marker begins with `<#`. -/
theorem recognise_eq_none {kind : Kind} {t : List Char} (h : strip? ['<', '#'] t = none) :
    recognise kind t = none := by
  simp only [recognise, opening?, h, Option.bind_eq_bind, Option.bind_none]

theorem IsLiteral.exists_cons {kind : Kind} {literal path : List Char}
    (h : IsLiteral kind literal path) : ∃ behind, literal = '<' :: '#' :: behind := by
  rcases h with ⟨_, c, ⟨front, behind, around, inner, quote, _, _, _, _, _, _, rfl⟩, _, rfl, _⟩
  exact ⟨_, rfl⟩

theorem IsLiteral.ne_nil {kind : Kind} {literal path : List Char}
    (h : IsLiteral kind literal path) : literal ≠ [] := by
  rcases h.exists_cons with ⟨behind, rfl⟩
  exact List.cons_ne_nil _ _

theorem IsLiteral.strip?_eq_none {kind : Kind} {literal path t : List Char}
    (h : IsLiteral kind literal path) (ht : strip? ['<', '#'] t = none) :
    strip? literal t = none := by
  rcases h.exists_cons with ⟨behind, rfl⟩
  cases hstrip : strip? ('<' :: '#' :: behind) t with
  | none => rfl
  | some rest =>
      rw [strip?_eq_some_iff] at hstrip
      rw [hstrip] at ht
      exact absurd ht (by simp only [List.cons_append, strip?, if_true, reduceCtorEq,
        not_false_eq_true])

/-- No literal begins with another one. -/
theorem IsLiteral.eq_of_strip? {kind kind' : Kind} {literal literal' path path' : List Char}
    (h : IsLiteral kind literal path) (h' : IsLiteral kind' literal' path') {rest r : List Char}
    (hstrip : strip? literal (literal' ++ rest) = some r) : literal = literal' := by
  have heq : literal' ++ rest = literal ++ r := strip?_eq_some_iff.mp hstrip
  have hfind := recognise_append h r
  rw [← heq] at hfind
  by_cases hkind : kind' = kind
  · subst hkind
    rw [recognise_append h' rest, Option.some.injEq, Text.Find.mk.injEq] at hfind
    -- Both are recognised in one text, so they are of one length.
    rcases h.exists_cons with ⟨b, rfl⟩
    rcases h'.exists_cons with ⟨b', rfl⟩
    simp only [List.length_cons] at hfind
    exact (List.append_inj heq (by simp only [List.length_cons]; omega)).1.symm
  · rw [recognise_eq_none_of_isLiteral h' hkind rest] at hfind
    exact absurd hfind (by simp only [reduceCtorEq, not_false_eq_true])

/-- A literal has one path. -/
theorem IsLiteral.path_eq {kind : Kind} {literal path path' : List Char}
    (h : IsLiteral kind literal path) (h' : IsLiteral kind literal path') : path = path' := by
  have hfind := recognise_append h []
  rw [recognise_append h' [], Option.some.injEq, Text.Find.mk.injEq] at hfind
  exact hfind.1.symm

end Marker

/-! ### Cutting at literals -/

/-- What a cut finds, the recogniser has found. -/
theorem Text.exists_of_find_mem_cut {α : Type} {recognise : List Char → Option (Find α)}
    {skip : Nat} {t text : List Char} {a : α} (h : .find text a ∈ cut recognise skip t) :
    ∃ u f, recognise u = some f ∧ f.value = a ∧ u.take (f.beyond + 1) = text := by
  induction t generalizing skip with
  | nil => cases skip <;> exact absurd h List.not_mem_nil
  | cons c t ih =>
      cases skip with
      | succ skip => exact ih h
      | zero =>
          rw [cut] at h
          cases hfind : recognise (c :: t) with
          | none =>
              rw [hfind] at h
              rcases List.mem_cons.mp h with heq | h
              · exact absurd heq (by simp only [reduceCtorEq, not_false_eq_true])
              · exact ih h
          | some f =>
              rw [hfind] at h
              rcases List.mem_cons.mp h with heq | h
              · rw [Piece.find.injEq] at heq
                exact ⟨c :: t, f, hfind, heq.2.symm, heq.1.symm⟩
              · exact ih h

/-- What is found in a text is a literal. -/
theorem Marker.isLiteral_of_mem_pieces {kind : Kind} {t text path : List Char}
    (h : .find text path ∈ Text.pieces (recognise kind) t) : IsLiteral kind text path := by
  rcases Text.exists_of_find_mem_cut h with ⟨u, f, hf, rfl, rfl⟩
  rcases exists_isLiteral hf with ⟨literal, rest, hliteral, rfl⟩
  have hpos := List.length_pos_of_ne_nil hliteral.ne_nil
  have hfind := recognise_append hliteral rest
  rw [hf, Option.some.injEq] at hfind
  rw [hfind, Nat.sub_add_cancel hpos, List.take_left]
  exact hliteral

/-- A marker comes from the find of its literal. -/
theorem Marker.find_mem_of_mem_ofPieces {kind : Kind} {offset : Nat}
    {l : List (Text.Piece (List Char))} {m : Marker} (h : m ∈ ofPieces kind offset l) :
    .find m.literal.toList m.path.toList ∈ l := by
  induction l generalizing offset with
  | nil => exact absurd h List.not_mem_nil
  | cons piece l ih =>
      cases piece with
      | plain c => exact List.mem_cons_of_mem _ (ih h)
      | find text path =>
          rcases List.mem_cons.mp h with rfl | h
          · rw [String.toList_ofList, String.toList_ofList]
            exact List.mem_cons_self
          · exact List.mem_cons_of_mem _ (ih h)

/-- The literal and the path of a marker in a text. -/
theorem Marker.isLiteral_of_mem_scan {kind : Kind} {text : String} {m : Marker}
    (h : m ∈ scan kind text) : IsLiteral kind m.literal.toList m.path.toList :=
  isLiteral_of_mem_pieces (find_mem_of_mem_ofPieces h)

end MailMerge
