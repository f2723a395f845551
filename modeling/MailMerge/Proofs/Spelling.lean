import Mathlib.Data.List.DropRight
import Mathlib.Logic.Relation
import MailMerge.Data.Path
import MailMerge.Proofs.Literal

/-!
# Spellings of a Path

A path is brought into normal form in four steps, the last two of which both remove blanks:
those around slashes first, and then all that are left. The first of the two makes no
difference. What it removes the second would remove as well, and it never touches anything
else. So a normal form is the text between its outer blanks, without one leading `./`, with the
blanks taken out. What can go wrong when this is done twice is the `./` only, as a second one
may come up: it may have been there, or it may be made by taking out blanks.

The names that a path descends through are told by where its first slash is. What is before that
gives some names or none, depending on whether it is the dot of a leading `./`. What is behind
it gives the names between further slashes, and there a `./` means nothing. So two paths joined
by a slash descend one after the other, unless the first is the dot of a `./` that is made by
the joint, or the second begins with a `./` that would have been left out if it stood alone.

By the same token a blank or a further slash changes no name, wherever it is typed. The one
place where it may is between the dot and the slash of a leading `./`.

## Main definitions

* `Path.Retyped`: Typing one more blank or slash where it makes no difference.

## Theorems

* `deleteBlank_tighten`: Removing the blanks around slashes first makes no difference.
* `toList_normalize`: The normal form as blanks taken out.
* `normalize_eq_filter`: What a normal form is, and when a second one is the same.
* `segments_normalize_slash`: The names before and behind a slash.
* `Retyped.segments_eq`: Typing more changes no name.
* `resolve?_join`: Two paths joined descend one after the other, however they are typed.
-/

namespace MailMerge

open Text (isBlank dropBlank trim deleteBlank)

/-! ### Blanks taken out -/

namespace Text

theorem deleteBlank_append (t u : List Char) :
    deleteBlank (t ++ u) = deleteBlank t ++ deleteBlank u :=
  List.filter_append t u

theorem deleteBlank_of_allBlank {t : List Char} (h : AllBlank t) : deleteBlank t = [] := by
  rw [deleteBlank, List.filter_eq_nil_iff]
  intro c hc
  rw [h c hc, Bool.not_true]
  exact Bool.false_ne_true

theorem isBlank_of_mem_deleteBlank {c : Char} {t : List Char} (h : c ∈ deleteBlank t) :
    isBlank c = false := by
  rw [deleteBlank, List.mem_filter, Bool.not_eq_true'] at h
  exact h.2

/-- What is in front of a text that blanks were dropped from. -/
theorem exists_dropBlank (t : List Char) :
    ∃ blanks, AllBlank blanks ∧ t = blanks ++ dropBlank t :=
  ⟨t.takeWhile isBlank, fun _ h => List.mem_takeWhile_imp h,
    List.takeWhile_append_dropWhile.symm⟩

/-- What is behind a text that was trimmed. -/
theorem exists_trim (t : List Char) :
    ∃ blanks, AllBlank blanks ∧ dropBlank t = trim t ++ blanks :=
  ⟨(dropBlank t).rtakeWhile isBlank, fun _ h => List.mem_rtakeWhile_imp h,
    List.rdropWhile_append_rtakeWhile.symm⟩

/-- Trimming removes blanks only. -/
theorem deleteBlank_trim (t : List Char) : deleteBlank (trim t) = deleteBlank t := by
  rcases exists_dropBlank t with ⟨front, hfront, ht⟩
  rcases exists_trim t with ⟨back, hback, htrim⟩
  conv_rhs => rw [ht, htrim, deleteBlank_append, deleteBlank_append,
    deleteBlank_of_allBlank hfront, deleteBlank_of_allBlank hback, List.nil_append,
    List.append_nil]

/-- Blanks are dropped up to the first character that is none. -/
theorem dropBlank_append_cons (t u : List Char) {c : Char} (hc : isBlank c = false) :
    dropBlank (t ++ c :: u) = dropBlank t ++ c :: u := by
  rw [dropBlank, List.dropWhile_append, List.dropWhile_cons, hc, if_neg Bool.false_ne_true]
  split
  · next h => rw [dropBlank, List.isEmpty_iff.mp h, List.nil_append]
  · rfl

end Text

namespace Path

/-- What a slash with blanks around it is. -/
theorem exists_of_slash? {t : List Char} {f : Text.Find Unit} (h : slash? t = some f) :
    ∃ before behind rest, AllBlank before ∧ AllBlank behind ∧
      t = (before ++ '/' :: behind) ++ rest ∧ f.beyond + 1 = (before ++ '/' :: behind).length := by
  rcases Text.exists_dropBlank t with ⟨before, hbefore, ht⟩
  rw [slash?] at h
  split at h
  · next rest hrest =>
      rcases Text.exists_dropBlank rest with ⟨behind, hbehind, hsplit⟩
      refine ⟨before, behind, dropBlank rest, hbefore, hbehind, ?_, ?_⟩
      · rw [List.append_assoc, List.cons_append, ← hsplit, ← hrest, ← ht]
      · rw [← Option.some.inj h, ht, hrest]
        have hlen := congrArg List.length hsplit
        simp only [List.length_append, List.length_cons] at hlen ⊢
        omega
  · exact absurd h (by simp only [reduceCtorEq, not_false_eq_true])

/-- A piece that holds a slash holds nothing but blanks otherwise. -/
theorem deleteBlank_of_find_mem {t text : List Char}
    (h : .find text () ∈ Text.pieces slash? t) : deleteBlank text = ['/'] := by
  rcases Text.exists_of_find_mem_cut h with ⟨u, f, hf, _, rfl⟩
  rcases exists_of_slash? hf with ⟨before, behind, rest, hbefore, hbehind, rfl, hlen⟩
  rw [hlen, List.take_left, Text.deleteBlank_append, Text.deleteBlank_of_allBlank hbefore,
    List.nil_append]
  calc deleteBlank ('/' :: behind) = '/' :: deleteBlank behind := rfl
    _ = ['/'] := by rw [Text.deleteBlank_of_allBlank hbehind]

/-- Removing the blanks around slashes first makes no difference to removing all of them. -/
theorem deleteBlank_tighten (t : List Char) : deleteBlank (tighten t) = deleteBlank t := by
  conv_rhs => rw [← Text.flatMap_text_pieces slash? t]
  rw [tighten, Text.replaceFinds, deleteBlank, deleteBlank, List.filter_flatMap,
    List.filter_flatMap]
  refine List.flatMap_congr fun piece hpiece => ?_
  cases piece with
  | plain c => rfl
  | find text _ => exact (deleteBlank_of_find_mem hpiece).symm

/-- Removing the blanks around slashes leaves a text without blanks as it is. -/
theorem tighten_deleteBlank (t : List Char) : tighten (deleteBlank t) = deleteBlank t := by
  have hnone : ∀ c ∈ tighten (deleteBlank t), isBlank c = false := by
    intro c hc
    rcases List.mem_flatMap.mp hc with ⟨piece, hpiece, hmem⟩
    cases piece with
    | plain d =>
        rw [List.mem_singleton.mp hmem]
        refine Text.isBlank_of_mem_deleteBlank (t := t) ?_
        rw [← Text.flatMap_text_pieces slash? (deleteBlank t)]
        exact List.mem_flatMap.mpr ⟨_, hpiece, List.mem_singleton_self d⟩
    | find text _ =>
        rw [List.mem_singleton.mp hmem]
        rfl
  rw [← Text.deleteBlank_eq_self hnone, deleteBlank_tighten,
    Text.deleteBlank_eq_self fun c => Text.isBlank_of_mem_deleteBlank]

/-! ### The leading dot and slash -/

theorem dropHere_eq_self {t : List Char} (h : ¬ ['.', '/'] <+: t) : dropHere t = t := by
  unfold dropHere
  split
  · next u => exact absurd (List.prefix_append ['.', '/'] u) h
  · rfl

theorem dropHere_subset (t : List Char) : dropHere t ⊆ t := by
  unfold dropHere
  split
  · exact fun c hc => List.mem_cons_of_mem _ (List.mem_cons_of_mem _ hc)
  · exact fun c hc => hc

/-- What a leading `./` is followed by is left as it is. -/
theorem dropHere_append {t u : List Char} (hnil : t = [] → ¬ ['.', '/'] <+: u)
    (hdot : t = ['.'] → ¬ ['/'] <+: u) : dropHere (t ++ u) = dropHere t ++ u := by
  match t with
  | [] => exact dropHere_eq_self (hnil rfl)
  | [c] =>
      have hshort : ¬ ['.', '/'] <+: [c] := fun h => Nat.not_succ_le_self 1 h.length_le
      have hsame : ¬ ['.', '/'] <+: [c] ++ u := by
        intro h
        rw [List.singleton_append, List.cons_prefix_cons] at h
        exact hdot (by rw [← h.1]) h.2
      rw [dropHere_eq_self hshort, dropHere_eq_self hsame]
  | c :: d :: t =>
      by_cases h : ['.', '/'] <+: c :: d :: t
      · rcases h with ⟨rest, hrest⟩
        rw [← hrest]
        rfl
      · have happend : ¬ ['.', '/'] <+: c :: d :: t ++ u := by
          simpa only [List.cons_append, List.cons_prefix_cons, List.nil_prefix, and_true] using h
        rw [dropHere_eq_self h, dropHere_eq_self happend]

/-- The normal form as blanks taken out. The blanks at the end go with the others, so only those
    in front of a leading `./` matter. -/
theorem toList_normalize (path : String) :
    (normalize path).toList = deleteBlank (dropHere (dropBlank path.toList)) := by
  rw [normalize, String.toList_ofList, deleteBlank_tighten]
  rcases Text.exists_trim path.toList with ⟨blanks, hblanks, htrim⟩
  have hnone : ∀ c, isBlank c = false → ∀ l, ¬ c :: l <+: blanks := by
    intro c hc l hl
    rw [hblanks c (hl.subset List.mem_cons_self)] at hc
    exact Bool.false_ne_true hc.symm
  rw [htrim, dropHere_append (fun _ => hnone '.' rfl _) (fun _ => hnone '/' rfl _),
    Text.deleteBlank_append, Text.deleteBlank_of_allBlank hblanks, List.append_nil]

theorem dropHere_eq_getD (t : List Char) :
    dropHere t = (t.dropPrefix? ['.', '/']).getD t := by
  cases hdrop : t.dropPrefix? ['.', '/'] with
  | some rest =>
      rcases List.dropPrefix?_eq_some_iff.mp hdrop with ⟨here, rfl, hhere⟩
      rw [beq_iff_eq.mp hhere]
      rfl
  | none =>
      refine dropHere_eq_self fun h => ?_
      rcases h with ⟨rest, rfl⟩
      rw [List.dropPrefix?_append_of_beq rest (beq_self_eq_true _)] at hdrop
      exact absurd hdrop (by simp only [reduceCtorEq, not_false_eq_true])

/-- The normal form of a text without blanks. -/
theorem normalize_of_no_blank {path : String} (h : ∀ c ∈ path.toList, isBlank c = false) :
    normalize path = path ↔ ¬ ['.', '/'] <+: path.toList := by
  have hdrop : dropBlank path.toList = path.toList := by
    rw [dropBlank, List.dropWhile_eq_self_iff]
    intro hpos
    rw [h _ (List.getElem_mem hpos)]
    exact Bool.false_ne_true
  rw [← String.toList_inj, toList_normalize, hdrop,
    Text.deleteBlank_eq_self fun c hc => h c (dropHere_subset _ hc)]
  constructor
  · intro heq hpre
    rcases hpre with ⟨rest, hrest⟩
    have hlen := congrArg List.length heq
    rw [← hrest] at hlen
    change rest.length = rest.length + 2 at hlen
    omega
  · exact dropHere_eq_self

/-- What the normal form of a path is: what was typed, without the blanks around it, then without
    one leading `./`, and then without any blank. The two passes that remove blanks come to the
    same in both orders. The normal form holds no blank, and it is its own normal form exactly
    if it does not begin with `./`. -/
theorem normalize_eq_filter (path : String) :
    let trimmed := (path.toList.dropWhile isBlank).rdropWhile isBlank
    let inner := (trimmed.dropPrefix? ['.', '/']).getD trimmed
    let normal := (normalize path).toList
    normal = inner.filter (fun c => !isBlank c) ∧
      deleteBlank (tighten inner) = tighten (deleteBlank inner) ∧
      (∀ c ∈ normal, isBlank c = false) ∧
      (normalize (normalize path) = normalize path ↔ ¬ ['.', '/'] <+: normal) := by
  intro trimmed inner normal
  have hnormal : normal = deleteBlank inner := by
    rw [show normal = deleteBlank (tighten (dropHere trimmed)) from String.toList_ofList,
      deleteBlank_tighten, dropHere_eq_getD]
  have hnone : ∀ c ∈ normal, isBlank c = false := by
    rw [hnormal]
    exact fun c => Text.isBlank_of_mem_deleteBlank
  exact ⟨hnormal, (deleteBlank_tighten inner).trans (tighten_deleteBlank inner).symm, hnone,
    normalize_of_no_blank hnone⟩

/-- A path with blanks around it, and with more of them around its slash and inside of names. -/
def spacedPath : String := "\u00a0 ./Appli cant /\tFirst\nName "

/-- The blanks and the leading `./` go, and the rest stays when this is done again. -/
theorem normalize_spacedPath :
    (normalize spacedPath).toList = "Applicant/FirstName".toList ∧
      't' ∈ (normalize spacedPath).toList ∧ isBlank 't' = false ∧
      normalize (normalize spacedPath) = normalize spacedPath := by
  have heffect := normalize_eq_filter spacedPath
  dsimp only at heffect
  rcases heffect with ⟨hfilter, _, hnone, hagain⟩
  have hnormal : (normalize spacedPath).toList = "Applicant/FirstName".toList :=
    hfilter.trans (by decide +kernel)
  rw [hnormal] at hnone hagain ⊢
  have hmem : 't' ∈ "Applicant/FirstName".toList := by decide +kernel
  exact ⟨rfl, hmem, hnone 't' hmem, hagain.mpr (by decide +kernel)⟩

/-! ### Names before and behind a slash -/

theorem normalize_ofList (t : List Char) :
    normalize (String.ofList t) = String.ofList (deleteBlank (dropHere (dropBlank t))) := by
  rw [← String.toList_inj, toList_normalize, String.toList_ofList, String.toList_ofList]

/-- A slash ends one name and begins another. -/
theorem segments_slash (t u : List Char) : segments (String.ofList (t ++ '/' :: u)) =
    segments (String.ofList t) ++ segments (String.ofList u) := by
  simp only [segments, String.toList_ofList, List.splitOn_append_cons_self, List.filter_append,
    List.map_append]

/-- The names of a path before one of its slashes. A dot gives none, as it makes a leading `./`
    with the slash. -/
def namesBefore (t : List Char) : List String :=
  if dropBlank t = ['.'] then [] else segments (normalize (String.ofList t))

/-- The names of a path are those before a slash and those behind it, where blanks are all that
    is left out. -/
theorem segments_normalize_slash (before behind : List Char) :
    segments (normalize (String.ofList (before ++ '/' :: behind))) =
      namesBefore before ++ segments (String.ofList (deleteBlank behind)) := by
  have hslash : deleteBlank ('/' :: behind) = '/' :: deleteBlank behind := rfl
  rw [normalize_ofList, namesBefore, Text.dropBlank_append_cons before behind (c := '/') rfl]
  by_cases hdot : dropBlank before = ['.']
  · rw [if_pos hdot, hdot, List.nil_append]
    rfl
  · have hother : ¬ ['.', '/'] <+: '/' :: behind := by
      intro h
      rw [List.cons_prefix_cons] at h
      exact absurd h.1 (by decide)
    rw [if_neg hdot, dropHere_append (fun _ => hother) (fun h => absurd h hdot),
      Text.deleteBlank_append, hslash, segments_slash, normalize_ofList]

/-! ### Typing more -/

/-- One more blank or slash in a path, where it makes no difference: a blank anywhere but between
    the dot and the slash that the text begins with behind its first blanks, a slash next to
    another one, or a slash at the end. -/
inductive Retyped : List Char → List Char → Prop where
  | blank (before behind : List Char) (b : Char) (isBlank : isBlank b = true)
      (apart : ¬ (dropBlank before = ['.'] ∧ ['/'] <+: behind)) :
      Retyped (before ++ behind) (before ++ b :: behind)
  | slash (before behind : List Char) :
      Retyped (before ++ '/' :: behind) (before ++ '/' :: '/' :: behind)
  | slashAtEnd (t : List Char) : Retyped t (t ++ ['/'])

theorem Retyped.subset {t u : List Char} (h : Retyped t u) : t ⊆ u := by
  cases h with
  | blank before behind b _ _ => exact ((List.sublist_cons_self b behind).append_left before).subset
  | slash before behind => exact ((List.sublist_cons_self '/' _).append_left before).subset
  | slashAtEnd t => exact List.subset_append_left t ['/']

/-- A further blank is left out of the normal form. -/
theorem normalize_blank (before behind : List Char) {b : Char} (hb : isBlank b = true)
    (hapart : ¬ (dropBlank before = ['.'] ∧ ['/'] <+: behind)) :
    normalize (String.ofList (before ++ b :: behind)) =
      normalize (String.ofList (before ++ behind)) := by
  rw [normalize_ofList, normalize_ofList, dropBlank, dropBlank, List.dropWhile_append,
    List.dropWhile_append, List.dropWhile_cons, if_pos hb]
  change ¬ (before.dropWhile isBlank = ['.'] ∧ _) at hapart
  split
  · rfl
  · -- Neither with nor without it do the dot and the slash come from the two sides of it.
    next hne =>
      rw [List.isEmpty_iff] at hne
      have hother : before.dropWhile isBlank = ['.'] → ¬ ['/'] <+: b :: behind := by
        intro _ h
        rw [List.cons_prefix_cons] at h
        rw [← h.1] at hb
        exact absurd hb (by decide)
      have hdelete : deleteBlank (b :: behind) = deleteBlank behind := by
        rw [deleteBlank, List.filter_cons, hb]
        rfl
      rw [dropHere_append (fun h => absurd h hne) hother,
        dropHere_append (fun h => absurd h hne) fun h h' => hapart ⟨h, h'⟩,
        Text.deleteBlank_append, Text.deleteBlank_append, hdelete]

/-- Typing one more blank or slash changes no name, if the path has a slash. -/
theorem Retyped.segments_eq {t u : List Char} (h : Retyped t u) (hslash : '/' ∈ t) :
    segments (normalize (String.ofList u)) = segments (normalize (String.ofList t)) := by
  have hcons : ∀ l, deleteBlank ('/' :: l) = [] ++ '/' :: deleteBlank l := fun _ => rfl
  have hnil : segments (String.ofList []) = [] := by decide
  cases h with
  | blank before behind b hb hapart => rw [normalize_blank before behind hb hapart]
  | slash before behind =>
      rw [segments_normalize_slash, segments_normalize_slash, hcons, segments_slash, hnil,
        List.nil_append]
  | slashAtEnd t =>
      rcases List.append_of_mem hslash with ⟨before, behind, rfl⟩
      have hend : deleteBlank (behind ++ ['/']) = deleteBlank behind ++ '/' :: [] :=
        Text.deleteBlank_append behind ['/']
      rw [List.append_assoc, List.cons_append, segments_normalize_slash,
        segments_normalize_slash, hend, segments_slash, hnil, List.append_nil]

/-- Typing more blanks and slashes changes no name. -/
theorem segments_eq_of_retyped {t u : List Char} (h : Relation.ReflTransGen Retyped t u)
    (hslash : '/' ∈ t) :
    segments (normalize (String.ofList u)) = segments (normalize (String.ofList t)) := by
  suffices hall : segments (normalize (String.ofList u)) = segments (normalize (String.ofList t)) ∧
      '/' ∈ u from hall.1
  induction h with
  | refl => exact ⟨rfl, hslash⟩
  | tail _ hlast ih => exact ⟨(hlast.segments_eq ih.2).trans ih.1, hlast.subset ih.2⟩

end Path

/-- Two paths joined by a slash descend one after the other: they lead nowhere if the first does,
    and otherwise to where the second leads from there. It takes two conditions: the first is not
    spelled as a dot, and the second does not begin with `./`. Whatever the two are, more blanks
    and slashes in the joined path do not change where it leads. -/
theorem Element.resolve?_join (data : Element) (p q : String) :
    (Path.normalize p ≠ "." → ¬ ['.', '/'] <+: (Text.trimmed q).toList →
      data.resolve? (p ++ "/" ++ q) = (data.resolve? p).bind fun e => e.resolve? q) ∧
    ∀ t, Relation.ReflTransGen Path.Retyped (p ++ "/" ++ q).toList t →
      data.resolve? (String.ofList t) = data.resolve? (p ++ "/" ++ q) := by
  have hjoin : (p ++ "/" ++ q).toList = p.toList ++ '/' :: q.toList := by
    rw [String.toList_append, String.toList_append, List.append_assoc]
    rfl
  constructor
  · intro hp hq
    have hdot : dropBlank p.toList ≠ ['.'] := by
      intro hdot
      refine hp ?_
      rw [← String.toList_inj, Path.toList_normalize, hdot]
      rfl
    have hsecond : Path.normalize q = String.ofList (deleteBlank q.toList) := by
      rw [Text.trimmed, String.toList_ofList] at hq
      rw [Path.normalize, Path.dropHere_eq_self hq, Path.deleteBlank_tighten,
        Text.deleteBlank_trim]
    have hsegments : Path.segments (Path.normalize (p ++ "/" ++ q)) =
        Path.segments (Path.normalize p) ++ Path.segments (Path.normalize q) := by
      rw [← String.ofList_toList (s := p ++ "/" ++ q), hjoin, Path.segments_normalize_slash,
        Path.namesBefore, if_neg hdot, String.ofList_toList, hsecond]
    rw [resolve?, hsegments, descend?_append]
    rfl
  · intro t ht
    have hslash : '/' ∈ (p ++ "/" ++ q).toList := by
      rw [hjoin]
      exact List.mem_append_right _ List.mem_cons_self
    rw [resolve?, resolve?, Path.segments_eq_of_retyped ht hslash, String.ofList_toList]

/-- Two applicants, the first of them with a name. -/
def twoApplicants : Element :=
  ⟨"Data", [.element ⟨"Applicant", [.element ⟨"FirstName", [.text "Jane"]⟩]⟩,
    .element ⟨"Applicant", []⟩]⟩

/-- The name of the first applicant is found by way of the applicant, also with a slash, a blank
    and a slash at the end typed into the path. -/
theorem resolve?_join_twoApplicants :
    Path.normalize "./Applicant" ≠ "." ∧
      ¬ ['.', '/'] <+: (Text.trimmed " First Name").toList ∧
      (twoApplicants.resolve? ("./Applicant" ++ "/" ++ " First Name")).map Element.text =
        some "Jane" ∧
      Relation.ReflTransGen Path.Retyped ("./Applicant" ++ "/" ++ " First Name").toList
        "./Applicant/ / First Name/".toList ∧
      (twoApplicants.resolve? (String.ofList "./Applicant/ / First Name/".toList)).map
        Element.text = some "Jane" := by
  have hp : Path.normalize "./Applicant" ≠ "." := by decide +kernel
  have hq : ¬ ['.', '/'] <+: (Text.trimmed " First Name").toList := by decide +kernel
  have htyped : Relation.ReflTransGen Path.Retyped
      ("./Applicant" ++ "/" ++ " First Name").toList "./Applicant/ / First Name/".toList := by
    have hslash := Path.Retyped.slash "./Applicant".toList " First Name".toList
    have hblank := Path.Retyped.blank "./Applicant/".toList "/ First Name".toList ' '
      (by decide) (by decide +kernel)
    exact ((Relation.ReflTransGen.single hslash).tail hblank).tail (Path.Retyped.slashAtEnd _)
  rcases Element.resolve?_join twoApplicants "./Applicant" " First Name" with ⟨hjoin, hretyped⟩
  have hname : (twoApplicants.resolve? ("./Applicant" ++ "/" ++ " First Name")).map
      Element.text = some "Jane" := by
    rw [hjoin hp hq]
    decide +kernel
  exact ⟨hp, hq, hname, htyped, by rw [hretyped _ htyped, hname]⟩

end MailMerge
