import Mathlib.Data.List.Basic
import Mathlib.Data.List.TakeWhile
import MailMerge.Files.Name

/-!
# Copies Have Names of Their Own

A merged copy is named after its template, and nobody looks whether another template would get
a copy of the same name. If names are texts, it never does. The mark goes in between stem and
extension, and both can be read off the copy's name again: the extension behind the last dot is
still the same, as the mark has no dot, and what is before the mark is the stem. This holds for
names with many dots or none, for hidden names, and for names that bear the mark already.

A name need not be a text. Then what is no text in its stem or its extension is replaced in the
copy's name, and what can be read off this are the texts that stem and extension were taken for.
So copies have the same name exactly if these texts are the same. A dot neither comes in nor is
lost, and a copy has an extension if its template has one.

A path is compared by the segments that mean something, which is how a system takes it. The
copy's path leads through the same directories, whatever bytes they are named by, and ends in
the new name.

## Main definitions

* `IsExtension`: The extension of a name, told by its last dot.
* `route`: What a path leads through.
* `fileName?`, `directory`: The last of it, and what is before.

## Theorems

* `exists_splitExtension`: The three kinds of names.
* `splitExtension_mergedName`: Stem and extension of a copy's name.
* `mergedName_eq_mergedName_iff`: Which names give the same name.
* `mergedName_injective`: Different names that are texts give different names.
* `route_below`: A name below a path is one segment more.
* `route_bytes`: A path put together leads through its segments.
* `route_mergedBytes`: What the path of a copy leads through.
* `bytes_mergedPath`: The copy of a file at a path that is a text has such a path too.
* `mergedBytes_effect`: A copy is in the same directory, with an extension as before and with a
  name of its own.
* `mergedBytes_brokenName`: Names that are no texts may give the same name.
-/

namespace MailMerge

namespace Files

/-! ### Extensions -/

theorem lastDot?_eq_none {b : List UInt8} (h : dot ∉ b) : lastDot? b = none := by
  induction b with
  | nil => rfl
  | cons x b ih =>
      rw [List.mem_cons, not_or] at h
      rw [lastDot?, ih h.2]
      exact if_neg (Ne.symm h.1)

theorem lastDot?_append (before : List UInt8) {behind : List UInt8} (h : dot ∉ behind) :
    lastDot? (before ++ dot :: behind) = some (before, behind) := by
  induction before with
  | nil =>
      rw [List.nil_append, lastDot?, lastDot?_eq_none h]
      rfl
  | cons x before ih => rw [List.cons_append, lastDot?, ih]

theorem notMem_of_lastDot?_eq_none {b : List UInt8} (h : lastDot? b = none) : dot ∉ b := by
  induction b with
  | nil => exact List.not_mem_nil
  | cons x b ih =>
      rw [lastDot?] at h
      split at h
      · exact absurd h (Option.some_ne_none _)
      · next hnone =>
          rw [ite_eq_right_iff] at h
          rw [List.mem_cons, not_or]
          exact ⟨fun hx => Option.some_ne_none _ (h hx.symm), ih hnone⟩

/-- There is no dot behind the last one. -/
theorem notMem_of_lastDot? {b before behind : List UInt8}
    (h : lastDot? b = some (before, behind)) : dot ∉ behind := by
  induction b generalizing before with
  | nil => exact absurd h (Option.some_ne_none _).symm
  | cons x b ih =>
      rw [lastDot?] at h
      split at h
      · next front e hbehind =>
          simp only [Option.some.injEq, Prod.mk.injEq] at h
          exact ih (h.2 ▸ hbehind)
      · next hnone =>
          rw [Option.ite_none_right_eq_some, Option.some.injEq, Prod.mk.injEq] at h
          exact h.2.2 ▸ notMem_of_lastDot?_eq_none hnone

theorem splitExtension_append {stem extension : List UInt8} (hne : stem ≠ [])
    (h : dot ∉ extension) :
    splitExtension (stem ++ dot :: extension) = (stem, some extension) := by
  rw [splitExtension, lastDot?_append stem h]
  cases stem with
  | nil => exact absurd rfl hne
  | cons x stem => rfl

theorem splitExtension_dot_cons {b : List UInt8} (h : dot ∉ b) :
    splitExtension (dot :: b) = (dot :: b, none) := by
  rw [splitExtension, show lastDot? (dot :: b) = some ([], b) from lastDot?_append [] h]

theorem splitExtension_of_notMem {name : List UInt8} (h : dot ∉ name) :
    splitExtension name = (name, none) := by
  rw [splitExtension, lastDot?_eq_none h]

/-- The three kinds of names: with an extension, with their only dot in front, and without a
    dot. -/
theorem exists_splitExtension (name : List UInt8) :
    (∃ stem extension, stem ≠ [] ∧ dot ∉ extension ∧ name = stem ++ dot :: extension) ∨
      (∃ b, dot ∉ b ∧ name = dot :: b) ∨ dot ∉ name := by
  cases hdot : lastDot? name with
  | none => exact .inr (.inr (notMem_of_lastDot?_eq_none hdot))
  | some parts =>
      rcases parts with ⟨before, behind⟩
      have hname := eq_of_lastDot? hdot
      have hbehind := notMem_of_lastDot? hdot
      cases before with
      | nil => exact .inr (.inl ⟨behind, hbehind, hname⟩)
      | cons x before => exact .inl ⟨x :: before, behind, List.cons_ne_nil _ _, hbehind, hname⟩

/-- Whether bytes are the extension of a name: what stands behind its last dot, unless this dot
    is in front of all else. -/
def IsExtension (name extension : List UInt8) : Prop :=
  ∃ stem, stem ≠ [] ∧ name = stem ++ dot :: extension ∧ dot ∉ extension

theorem isExtension_iff {name extension : List UInt8} :
    IsExtension name extension ↔ (splitExtension name).2 = some extension := by
  constructor
  · rintro ⟨stem, hne, rfl, hdot⟩
    rw [splitExtension_append hne hdot]
  · intro h
    rcases exists_splitExtension name with ⟨stem, other, hne, hdot, rfl⟩ | ⟨b, hdot, rfl⟩ | hdot
    · rw [splitExtension_append hne hdot, Option.some.injEq] at h
      exact ⟨stem, hne, h ▸ rfl, h ▸ hdot⟩
    · rw [splitExtension_dot_cons hdot] at h
      exact absurd h (Option.some_ne_none _).symm
    · rw [splitExtension_of_notMem hdot] at h
      exact absurd h (Option.some_ne_none _).symm

/-! ### Names of copies -/

theorem dot_lt : dot < 0x80 := by decide

theorem slash_lt : slash < 0x80 := by decide

theorem dot_notMem_mark : dot ∉ mark := by decide +kernel

/-- A dot in front stays in front. -/
theorem mended_dot_cons (b : List UInt8) : Text.mended (dot :: b) = dot :: Text.mended b := by
  have hdot : Text.lossy (dot :: b) = '.' :: Text.lossy b := Text.lossy_encode_append '.' b
  rw [Text.mended, hdot]
  rfl

/-- The mark goes to the end of the stem. Stem and extension are those of the name, taken for
    texts. -/
theorem splitExtension_mergedName (name : List UInt8) : splitExtension (mergedName name) =
    (Text.mended (splitExtension name).1 ++ mark,
      (splitExtension name).2.map Text.mended) := by
  have hmended : ∀ {b}, dot ∉ b → dot ∉ Text.mended b :=
    fun h hb => h (Text.mem_of_mem_mended dot_lt hb)
  have happend : ∀ {b}, dot ∉ b → dot ∉ Text.mended b ++ mark :=
    fun h hb => (List.mem_append.mp hb).elim (hmended h) dot_notMem_mark
  rw [mergedName]
  rcases exists_splitExtension name with ⟨stem, extension, hne, hdot, rfl⟩ | ⟨b, hdot, rfl⟩ | hdot
  · -- Neither the mark nor the extension brings in a dot, so the last one is still the last.
    rw [splitExtension_append hne hdot]
    exact splitExtension_append
      (List.append_ne_nil_of_right_ne_nil _ (by decide +kernel)) (hmended hdot)
  · -- The only dot is in front, and it stays there.
    rw [splitExtension_dot_cons hdot]
    dsimp only [Option.map_none, joinExtension]
    rw [mended_dot_cons, List.cons_append]
    exact splitExtension_dot_cons (happend hdot)
  · rw [splitExtension_of_notMem hdot]
    exact splitExtension_of_notMem (happend hdot)

/-- Names give the same name if their stems are taken for the same text, and their extensions
    are. -/
theorem mergedName_eq_mergedName_iff {name other : List UInt8} :
    mergedName name = mergedName other ↔
      Text.lossy (splitExtension name).1 = Text.lossy (splitExtension other).1 ∧
        (splitExtension name).2.map Text.lossy = (splitExtension other).2.map Text.lossy := by
  constructor
  · intro h
    have hsplit := congrArg splitExtension h
    rw [splitExtension_mergedName, splitExtension_mergedName, Prod.mk.injEq,
      List.append_cancel_right_eq, Text.mended_eq_mended_iff] at hsplit
    refine ⟨hsplit.1, ?_⟩
    have hlossy := congrArg (Option.map Text.lossy) hsplit.2
    simpa only [Option.map_map, Function.comp_def, Text.mended, Text.lossy_bytes] using hlossy
  · rintro ⟨hstem, hextension⟩
    have hmap := congrArg (Option.map Text.bytes) hextension
    rw [Option.map_map, Option.map_map] at hmap
    rw [mergedName, mergedName]
    dsimp only
    rw [Text.mended_eq_mended_iff.mpr hstem]
    exact congrArg _ hmap

theorem isUtf8_splitExtension {name : List UInt8} (h : Text.IsUtf8 name) :
    Text.IsUtf8 (splitExtension name).1 ∧ ∀ e ∈ (splitExtension name).2, Text.IsUtf8 e := by
  rcases exists_splitExtension name with ⟨stem, extension, hne, hdot, rfl⟩ | ⟨b, hdot, rfl⟩ | hdot
  · -- Only here is the name cut, and a dot does not cut a character in two.
    rcases Text.isUtf8_of_append_cons dot_lt h with ⟨hstem, hextension⟩
    rw [splitExtension_append hne hdot]
    exact ⟨hstem, fun e he => Option.some.inj he ▸ hextension⟩
  · rw [splitExtension_dot_cons hdot]
    exact ⟨h, fun _ he => absurd he (Option.some_ne_none _).symm⟩
  · rw [splitExtension_of_notMem hdot]
    exact ⟨h, fun _ he => absurd he (Option.some_ne_none _).symm⟩

/-- Stem and extension of a name that is a text are taken for what they are. -/
theorem mended_splitExtension {name : List UInt8} (h : Text.IsUtf8 name) :
    Text.mended (splitExtension name).1 = (splitExtension name).1 ∧
      (splitExtension name).2.map Text.mended = (splitExtension name).2 := by
  rcases isUtf8_splitExtension h with ⟨hstem, hextension⟩
  refine ⟨Text.mended_eq_self hstem, ?_⟩
  cases hsplit : (splitExtension name).2 with
  | none => rfl
  | some e => rw [Option.map_some, Text.mended_eq_self (hextension e hsplit)]

/-- Different names that are texts give different names. -/
theorem mergedName_injective {name other : List UInt8} (hname : Text.IsUtf8 name)
    (hother : Text.IsUtf8 other) (h : mergedName name = mergedName other) : name = other := by
  have hsplit := congrArg splitExtension h
  rcases mended_splitExtension hname with ⟨hstem, hextension⟩
  rcases mended_splitExtension hother with ⟨hstem', hextension'⟩
  rw [splitExtension_mergedName, splitExtension_mergedName, hstem, hextension, hstem', hextension',
    Prod.mk.injEq, List.append_cancel_right_eq] at hsplit
  rw [← join_splitExtension name, ← join_splitExtension other, hsplit.1, hsplit.2]

theorem isUtf8_joinExtension {stem : List UInt8} {extension : Option (List UInt8)}
    (hstem : Text.IsUtf8 stem) (hextension : ∀ e ∈ extension, Text.IsUtf8 e) :
    Text.IsUtf8 (joinExtension stem extension) := by
  cases extension with
  | none => exact hstem
  | some e =>
      exact Text.isUtf8_append hstem
        (Text.isUtf8_append (Text.isUtf8_bytes ['.']) (hextension e rfl))

/-- The name of a copy is a text, whatever the template's name is. -/
theorem isUtf8_mergedName (name : List UInt8) : Text.IsUtf8 (mergedName name) := by
  refine isUtf8_joinExtension
    (Text.isUtf8_append (Text.isUtf8_mended _) (Text.isUtf8_bytes _)) fun e he => ?_
  rcases Option.map_eq_some_iff.mp he with ⟨e', _, rfl⟩
  exact Text.isUtf8_mended e'

theorem mergedName_ne_self (name : List UInt8) : mergedName name ≠ name := by
  intro h
  -- Then the name is a text, and so its stem and the stem with the mark are the same.
  have hname : Text.IsUtf8 name := h ▸ isUtf8_mergedName name
  have hsplit : (splitExtension (mergedName name)).1.length = (splitExtension name).1.length := by
    rw [h]
  rw [splitExtension_mergedName, (mended_splitExtension hname).1, List.length_append] at hsplit
  have hmark : mark.length = 7 := by decide +kernel
  omega

theorem mem_joinExtension {x : UInt8} {stem : List UInt8} {extension : Option (List UInt8)} :
    x ∈ joinExtension stem extension ↔ x ∈ stem ∨ ∃ e ∈ extension, x = dot ∨ x ∈ e := by
  cases extension with
  | none => simp only [joinExtension, Option.not_mem_none, false_and, exists_false, or_false]
  | some e =>
      simp only [joinExtension, List.mem_append, List.mem_cons, Option.mem_some_iff,
        exists_eq_left']

/-- A marked name can stand as a segment of a path. -/
theorem mergedName_segment {name : List UInt8} (h : slash ∉ name) :
    slash ∉ mergedName name ∧ isIdle (mergedName name) = false ∧
      mergedName name ≠ [dot, dot] := by
  have hunderscore : 0x5F ∈ mergedName name :=
    mem_joinExtension.mpr (.inl (List.mem_append_right _ (by decide +kernel)))
  refine ⟨fun hslash => h ?_, ?_, ?_⟩
  · -- Neither the mark nor the dot is a slash, so the slash was in the name.
    rw [← join_splitExtension name, mem_joinExtension]
    rcases mem_joinExtension.mp hslash with hstem | ⟨e, he, hdot | hmem⟩
    · rcases List.mem_append.mp hstem with hstem | hmark
      · exact .inl (Text.mem_of_mem_mended slash_lt hstem)
      · exact absurd hmark (by decide +kernel)
    · exact absurd hdot (by decide)
    · rcases Option.map_eq_some_iff.mp he with ⟨e', he', rfl⟩
      exact .inr ⟨e', he', .inr (Text.mem_of_mem_mended slash_lt hmem)⟩
  · rw [isIdle, Bool.or_eq_false_iff, decide_eq_false_iff_not, decide_eq_false_iff_not]
    constructor
    · intro hnil
      rw [hnil] at hunderscore
      exact absurd hunderscore List.not_mem_nil
    · intro hdot
      rw [hdot] at hunderscore
      exact absurd hunderscore (by decide)
  · intro hdots
    rw [hdots] at hunderscore
    exact absurd hunderscore (by decide)

/-! ### Routes -/

/-- The segments that mean something. -/
def meaningful (segments : List (List UInt8)) : List (List UInt8) :=
  segments.filter fun segment => !isIdle segment

/-- What a path leads through: what it begins with, and the segments that mean something. -/
def route (path : List UInt8) : PathParts :=
  ⟨(PathParts.ofBytes path).front, meaningful (PathParts.ofBytes path).segments⟩

/-- The name of the file that a path leads to, if it leads to one. -/
def fileName? (path : List UInt8) : Option (List UInt8) :=
  (route path).segments.getLast?.filter fun name => name ≠ [dot, dot]

/-- What a path leads through before its last segment. -/
def directory (path : List UInt8) : PathParts :=
  ⟨(route path).front, (route path).segments.dropLast⟩

/-- A path that leads to a file leads to the name in its directory. -/
theorem route_of_fileName? {path name : List UInt8} (h : fileName? path = some name) :
    route path = ⟨(directory path).front, (directory path).segments ++ [name]⟩ := by
  rw [fileName?, Option.filter_eq_some_iff] at h
  rcases List.getLast?_eq_some_iff.mp h.1 with ⟨before, hsegments⟩
  rw [directory, hsegments, List.dropLast_concat, ← hsegments]

theorem fileName?_of_route {path name : List UInt8} {front : Front} {segments : List (List UInt8)}
    (h : route path = ⟨front, segments ++ [name]⟩) (hdots : name ≠ [dot, dot]) :
    fileName? path = some name ∧ directory path = ⟨front, segments⟩ := by
  rw [fileName?, directory, h]
  dsimp only
  rw [List.getLast?_concat, List.dropLast_concat, Option.filter_some, decide_eq_true hdots]
  exact ⟨rfl, rfl⟩

theorem slash_notMem_of_mem_splitOn {t segment : List UInt8} (h : segment ∈ t.splitOn slash) :
    slash ∉ segment := by
  induction t generalizing segment with
  | nil =>
      rw [List.splitOn_nil, List.mem_singleton] at h
      exact h ▸ List.not_mem_nil
  | cons c t ih =>
      rw [List.splitOn_cons_eq_if_modifyHead] at h
      split at h
      · rcases List.mem_cons.mp h with rfl | h
        · exact List.not_mem_nil
        · exact ih h
      · next hc =>
          rcases hsplit : t.splitOn slash with _ | ⟨first, others⟩
          · exact absurd hsplit (List.splitOn_ne_nil slash t)
          · rw [hsplit, List.modifyHead_cons] at h
            rw [beq_iff_eq] at hc
            rcases List.mem_cons.mp h with rfl | h
            · rw [List.mem_cons, not_or]
              exact ⟨Ne.symm hc, ih (hsplit ▸ List.mem_cons_self)⟩
            · exact ih (hsplit ▸ List.mem_cons_of_mem first h)

theorem route_segments (path : List UInt8) :
    (route path).segments = meaningful (path.splitOn slash) := by
  -- What is taken off at the front means nothing as a segment.
  rw [route, PathParts.ofBytes]
  split
  · next h => rw [h]; rfl
  · next h => rw [h]; rfl
  · next h => rw [h]; rfl
  · rfl

theorem route_front {path first : List UInt8} {rest : List (List UInt8)}
    (h : path.splitOn slash = first :: rest) (hne : first = [] → rest ≠ []) :
    (route path).front =
      if first = [] then .root else if first = [dot] then .here else .plain := by
  rw [route, PathParts.ofBytes, h]
  split
  · next heq =>
      rw [List.cons.injEq] at heq
      exact absurd heq.2 (hne heq.1)
  · next heq =>
      rw [List.cons.injEq] at heq
      rw [if_pos heq.1]
  · next heq =>
      rw [List.cons.injEq] at heq
      rw [heq.1, if_neg (List.cons_ne_nil _ _)]
      exact (if_pos rfl).symm
  · next hroot hhere =>
      rw [if_neg fun hfirst => hroot rest (by rw [hfirst]),
        if_neg fun hfirst => hhere rest (by rw [hfirst]; rfl)]

theorem meaningful_append (before behind : List (List UInt8)) :
    meaningful (before ++ behind) = meaningful before ++ meaningful behind :=
  List.filter_append before behind

theorem meaningful_singleton {segment : List UInt8} (h : isIdle segment = false) :
    meaningful [segment] = [segment] :=
  List.filter_eq_self.mpr fun other hother => by rw [List.mem_singleton.mp hother, h]; rfl

/-- Two paths that begin with the same segment, and with some more, have the same front. -/
theorem route_front_congr {path other first : List UInt8} {rest rest' : List (List UInt8)}
    (h : path.splitOn slash = first :: rest) (h' : other.splitOn slash = first :: rest')
    (hne : first = [] → rest ≠ []) (hne' : first = [] → rest' ≠ []) :
    (route path).front = (route other).front := by
  rw [route_front h hne, route_front h' hne']

theorem ne_of_isIdle_eq_false {segment : List UInt8} (h : isIdle segment = false) :
    segment ≠ [] ∧ segment ≠ [dot] := by
  rwa [isIdle, Bool.or_eq_false_iff, decide_eq_false_iff_not, decide_eq_false_iff_not] at h

/-- A path of one segment that means something. -/
theorem route_name {name : List UInt8} (hslash : slash ∉ name) (idle : isIdle name = false) :
    route name = ⟨.plain, [name]⟩ := by
  have hname : name.splitOn slash = [name] := List.splitOn_eq_singleton hslash
  rcases ne_of_isIdle_eq_false idle with ⟨hnil, hdot⟩
  have hfront := route_front hname fun h => absurd h hnil
  rw [if_neg hnil, if_neg hdot] at hfront
  have hsegments := route_segments name
  rw [hname, meaningful_singleton idle] at hsegments
  rw [← hfront, ← hsegments]

/-- A name below a path is one segment more. -/
theorem route_below (path : List UInt8) {name : List UInt8} (hslash : slash ∉ name)
    (idle : isIdle name = false) :
    route (below path name) = ⟨(route path).front, (route path).segments ++ [name]⟩ := by
  have hname : name.splitOn slash = [name] := List.splitOn_eq_singleton hslash
  rcases List.eq_nil_or_concat' path with rfl | ⟨before, c, rfl⟩
  · exact route_name hslash idle
  · suffices h : ∃ first rest rest', (before ++ [c]).splitOn slash = first :: rest ∧
        (below (before ++ [c]) name).splitOn slash = first :: rest' ∧
        (first = [] → rest ≠ [] ∧ rest' ≠ []) ∧
        meaningful (first :: rest') = meaningful (first :: rest) ++ [name] by
      rcases h with ⟨first, rest, rest', hpath, hbelow, hne, hsegments⟩
      rw [← hpath, ← hbelow, ← route_segments, ← route_segments] at hsegments
      rw [← hsegments, route_front_congr hpath hbelow (fun h => (hne h).1) fun h => (hne h).2]
    have hlast : (before ++ [c]).getLast? = some c := List.getLast?_concat
    by_cases hc : c = slash
    · -- A slash is there, and nothing stands behind it.
      subst hc
      have hbelow : below (before ++ [slash]) name = before ++ slash :: name := by
        rw [below, hlast]
        exact List.append_assoc _ _ _
      rcases hsplit : before.splitOn slash with _ | ⟨first, rest⟩
      · exact absurd hsplit (List.splitOn_ne_nil slash before)
      · refine ⟨first, rest ++ [[]], rest ++ [name], ?_, ?_, fun _ => ?_, ?_⟩
        · rw [List.splitOn_append_cons_self, hsplit, List.splitOn_nil, List.cons_append]
        · rw [hbelow, List.splitOn_append_cons_self, hsplit, hname, List.cons_append]
        · exact ⟨List.append_ne_nil_of_right_ne_nil _ (List.cons_ne_nil _ _),
            List.append_ne_nil_of_right_ne_nil _ (List.cons_ne_nil _ _)⟩
        · rw [← List.cons_append, ← List.cons_append, meaningful_append, meaningful_append,
            meaningful_singleton idle]
          exact congrArg (· ++ [name]) (List.append_nil _).symm
    · have hbelow : below (before ++ [c]) name = before ++ [c] ++ slash :: name := by
        rw [below, hlast]
        split
        · next h => exact absurd h (Option.some_ne_none c)
        · next h => exact absurd (Option.some.inj h) hc
        · rfl
      rcases hsplit : (before ++ [c]).splitOn slash with _ | ⟨first, rest⟩
      · exact absurd hsplit (List.splitOn_ne_nil slash _)
      · refine ⟨first, rest, rest ++ [name], rfl, ?_, fun hfirst => ⟨?_, ?_⟩, ?_⟩
        · rw [hbelow, List.splitOn_append_cons_self, hsplit, hname, List.cons_append]
        · -- One empty segment makes up an empty path, and this one has a character.
          rintro rfl
          have hpath : List.intercalate [slash] ((before ++ [c]).splitOn slash) = before ++ [c] :=
            List.intercalate_splitOn slash
          rw [hsplit, hfirst] at hpath
          exact List.append_ne_nil_of_right_ne_nil before (List.cons_ne_nil c []) hpath.symm
        · exact List.append_ne_nil_of_right_ne_nil _ (List.cons_ne_nil _ _)
        · rw [← List.cons_append, meaningful_append, meaningful_singleton idle]

/-- Leaving out what means nothing at the end of some segments leaves those that mean
    something. -/
theorem meaningful_dropWhile (segments : List (List UInt8)) :
    meaningful (segments.dropWhile isIdle).reverse = meaningful segments.reverse := by
  have hidle : meaningful (segments.takeWhile isIdle).reverse = [] := by
    refine List.filter_eq_nil_iff.mpr fun segment hsegment => ?_
    rw [List.mem_takeWhile_imp (List.mem_reverse.mp hsegment)]
    exact Bool.false_ne_true
  conv => rhs; rw [← List.takeWhile_append_dropWhile (p := isIdle) (l := segments)]
  rw [List.reverse_append, meaningful_append, hidle, List.append_nil]

/-- A path put together leads through its segments. -/
theorem route_bytes {p : PathParts} (hslash : ∀ segment ∈ p.segments, slash ∉ segment)
    (plain : p.front = .plain → ∀ segment ∈ p.segments.head?, isIdle segment = false) :
    route p.bytes = ⟨p.front, meaningful p.segments⟩ := by
  rcases p with ⟨front, _ | ⟨first, rest⟩⟩
  · cases front <;> rfl
  · have hsplit : (List.intercalate [slash] (first :: rest)).splitOn slash = first :: rest :=
      List.splitOn_intercalate slash hslash (List.cons_ne_nil first rest)
    have hparts : ∀ {path : List UInt8}, (route path).front = front →
        meaningful (path.splitOn slash) = meaningful (first :: rest) →
        route path = ⟨front, meaningful (first :: rest)⟩ := by
      intro path hfront hsegments
      rw [← hfront, ← hsegments, ← route_segments]
    -- Whatever the front, the path is cut into the segments again. What the front adds is
    -- one segment that means nothing, and by this it is told.
    cases front with
    | root =>
        have hroot : (PathParts.bytes ⟨.root, first :: rest⟩).splitOn slash =
            [] :: first :: rest := by
          have := List.splitOn_append_cons_self_of_not_mem (a := slash) List.not_mem_nil
            (List.intercalate [slash] (first :: rest))
          rw [hsplit] at this
          exact this
        refine hparts ?_ (by rw [hroot]; rfl)
        rw [route_front hroot fun _ => List.cons_ne_nil _ _, if_pos rfl]
    | here =>
        have hhere : (PathParts.bytes ⟨.here, first :: rest⟩).splitOn slash =
            [dot] :: first :: rest := by
          have hdot : slash ∉ [dot] := by decide
          have := List.splitOn_append_cons_self_of_not_mem hdot
            (List.intercalate [slash] (first :: rest))
          rw [hsplit] at this
          exact this
        refine hparts ?_ (by rw [hhere]; rfl)
        rw [route_front hhere fun _ => List.cons_ne_nil _ _, if_neg (by decide), if_pos rfl]
    | plain =>
        rcases ne_of_isIdle_eq_false (plain rfl first rfl) with ⟨hnil, hdot⟩
        have hplain : (PathParts.bytes ⟨.plain, first :: rest⟩).splitOn slash = first :: rest :=
          hsplit
        refine hparts ?_ (by rw [hplain])
        rw [route_front hplain fun h => absurd h hnil, if_neg hnil, if_neg hdot]

/-- What a path is taken apart into stands between its slashes. -/
theorem segments_ofBytes_subset (path : List UInt8) :
    (PathParts.ofBytes path).segments ⊆ path.splitOn slash := by
  rw [PathParts.ofBytes]
  split
  · exact List.nil_subset _
  · next heq => exact heq ▸ List.subset_cons_self [] _
  · next heq => exact heq ▸ List.subset_cons_self [dot] _
  · exact List.Subset.refl _

/-- A plain path begins with a segment that means something. -/
theorem isIdle_head_segments {path : List UInt8} (h : (PathParts.ofBytes path).front = .plain) :
    ∀ segment ∈ (PathParts.ofBytes path).segments.head?, isIdle segment = false := by
  rw [PathParts.ofBytes] at h ⊢
  split at h
  · exact fun _ h => absurd h (Option.some_ne_none _).symm
  · exact absurd h (by simp only [reduceCtorEq, not_false_eq_true])
  · exact absurd h (by simp only [reduceCtorEq, not_false_eq_true])
  · next hroot hhere =>
      intro segment hsegment
      rcases List.head?_eq_some_iff.mp hsegment with ⟨rest, hsplit⟩
      rw [isIdle, Bool.or_eq_false_iff, decide_eq_false_iff_not, decide_eq_false_iff_not]
      exact ⟨fun hnil => hroot rest (hnil ▸ hsplit), fun hdot => hhere rest (hdot ▸ hsplit)⟩

/-! ### Copies -/

theorem isIdle_of_significant {segments before : List (List UInt8)} {last : List UInt8}
    (h : significant segments = last :: before) : isIdle last = false := by
  have hhead := List.head?_dropWhile_not isIdle segments.reverse
  rw [show segments.reverse.dropWhile isIdle = last :: before from h] at hhead
  exact hhead

theorem reverse_significant_prefix (segments : List (List UInt8)) :
    (significant segments).reverse <+: segments :=
  ⟨(segments.reverse.takeWhile isIdle).reverse, by
    rw [significant, ← List.reverse_append, List.takeWhile_append_dropWhile,
      List.reverse_reverse]⟩

/-- The last segment of a path, and the path of a copy, when the path leads to a file. -/
theorem exists_significant {path name : List UInt8} (h : fileName? path = some name) :
    ∃ before, significant (PathParts.ofBytes path).segments = name :: before ∧
      (route path).segments = meaningful before.reverse ++ [name] ∧
      mergedBytes path = below
        (PathParts.bytes ⟨(PathParts.ofBytes path).front, (before.dropWhile isIdle).reverse⟩)
        (mergedName name) := by
  have hsegments : meaningful (significant (PathParts.ofBytes path).segments).reverse =
      (route path).segments := by
    rw [significant, meaningful_dropWhile, List.reverse_reverse]
    rfl
  rw [fileName?, ← hsegments, Option.filter_eq_some_iff, decide_eq_true_eq] at h
  rcases hsig : significant (PathParts.ofBytes path).segments with _ | ⟨last, before⟩
  · rw [hsig] at h
    exact absurd h.1 (Option.some_ne_none name).symm
  · have hlast : meaningful (last :: before).reverse = meaningful before.reverse ++ [last] := by
      rw [List.reverse_cons, meaningful_append, meaningful_singleton (isIdle_of_significant hsig)]
    rw [hsig, hlast, List.getLast?_concat, Option.some.injEq] at h
    rcases h with ⟨rfl, hdots⟩
    refine ⟨before, rfl, by rw [← hsegments, hsig, hlast], ?_⟩
    rw [mergedBytes, hsig]
    split
    · next heq => exact absurd heq (List.cons_ne_nil _ _)
    · next heq => exact absurd (List.cons.inj heq).1 hdots
    · next heq =>
        rcases List.cons.inj heq with ⟨rfl, rfl⟩
        rfl

/-- What the path of a copy leads through: the directories that the path of the template does,
    and the name of the copy. -/
theorem route_mergedBytes {path name : List UInt8} (h : fileName? path = some name) :
    slash ∉ name ∧ route (mergedBytes path) =
      ⟨(directory path).front, (directory path).segments ++ [mergedName name]⟩ := by
  rcases exists_significant h with ⟨before, hsig, hroute, hmerged⟩
  have hslash : ∀ segment ∈ (PathParts.ofBytes path).segments, slash ∉ segment :=
    fun _ hsegment => slash_notMem_of_mem_splitOn (segments_ofBytes_subset path hsegment)
  have hbegins : before.reverse ++ [name] <+: (PathParts.ofBytes path).segments := by
    have := reverse_significant_prefix (PathParts.ofBytes path).segments
    rwa [hsig, List.reverse_cons] at this
  have hname : slash ∉ name :=
    hslash name (hbegins.subset (List.mem_append_right _ List.mem_cons_self))
  refine ⟨hname, ?_⟩
  rcases mergedName_segment hname with ⟨hslash', hidle', _⟩
  -- The directories are a beginning of what the path was taken apart into.
  have hdirectories : (before.dropWhile isIdle).reverse <+: (PathParts.ofBytes path).segments := by
    refine List.IsPrefix.trans ?_ ((List.prefix_append before.reverse [name]).trans hbegins)
    exact List.reverse_prefix.mpr (List.dropWhile_suffix isIdle)
  have hhead : ∀ segment ∈ (before.dropWhile isIdle).reverse.head?,
      segment ∈ (PathParts.ofBytes path).segments.head? := by
    intro segment hsegment
    rcases hdirectories with ⟨behind, hbehind⟩
    rw [← hbehind, List.head?_append, hsegment]
    rfl
  have hbytes := @route_bytes
    ⟨(PathParts.ofBytes path).front, (before.dropWhile isIdle).reverse⟩
    (fun segment hsegment => hslash segment (hdirectories.subset hsegment))
    (fun hfront segment hsegment => isIdle_head_segments hfront segment (hhead segment hsegment))
  rw [meaningful_dropWhile] at hbytes
  rw [hmerged, route_below _ hslash' hidle', hbytes, directory, hroute, List.dropLast_concat]
  rfl

/-- The copy of a file is in the directory of the file, and has the file's name with a mark. -/
theorem fileName?_mergedBytes {path name : List UInt8} (h : fileName? path = some name) :
    fileName? (mergedBytes path) = some (mergedName name) ∧
      directory (mergedBytes path) = directory path := by
  rcases route_mergedBytes h with ⟨hslash, hroute⟩
  exact fileName?_of_route hroute (mergedName_segment hslash).2.2

/-! ### Paths that are texts -/

theorem isUtf8_intercalate_iff {l : List (List UInt8)} :
    Text.IsUtf8 (List.intercalate [slash] l) ↔ ∀ segment ∈ l, Text.IsUtf8 segment := by
  induction l with
  | nil => exact ⟨fun _ _ h => absurd h List.not_mem_nil, fun _ => Text.isUtf8_bytes []⟩
  | cons first rest ih =>
      by_cases hrest : rest = []
      · rw [hrest, List.intercalate_singleton, List.forall_mem_singleton]
      · rw [List.intercalate_cons_of_ne_nil hrest, List.append_assoc, List.singleton_append,
          List.forall_mem_cons, ← ih]
        constructor
        · exact Text.isUtf8_of_append_cons slash_lt
        · intro h
          exact Text.isUtf8_append h.1 (Text.isUtf8_append (Text.isUtf8_bytes ['/']) h.2)

theorem isUtf8_below {path name : List UInt8} (hpath : Text.IsUtf8 path)
    (hname : Text.IsUtf8 name) : Text.IsUtf8 (below path name) := by
  rw [below]
  split
  · exact Text.isUtf8_append hpath hname
  · exact Text.isUtf8_append hpath hname
  · exact Text.isUtf8_append hpath (Text.isUtf8_append (Text.isUtf8_bytes ['/']) hname)

theorem Front.isUtf8_bytes (front : Front) : Text.IsUtf8 front.bytes := by
  cases front with
  | root => exact Text.isUtf8_bytes ['/']
  | here => exact Text.isUtf8_bytes ['.']
  | plain => exact Text.isUtf8_bytes []

theorem PathParts.isUtf8_bytes {p : PathParts} (h : ∀ segment ∈ p.segments, Text.IsUtf8 segment) :
    Text.IsUtf8 p.bytes := by
  rw [PathParts.bytes]
  split
  · exact p.front.isUtf8_bytes
  · exact isUtf8_below p.front.isUtf8_bytes (isUtf8_intercalate_iff.mpr h)

/-- The path of a copy is a text if the template's path is. -/
theorem isUtf8_mergedBytes {path : List UInt8} (h : Text.IsUtf8 path) :
    Text.IsUtf8 (mergedBytes path) := by
  have hsplit : ∀ segment ∈ path.splitOn slash, Text.IsUtf8 segment := by
    rw [← isUtf8_intercalate_iff, List.intercalate_splitOn]
    exact h
  rw [mergedBytes]
  split
  · exact isUtf8_below h (isUtf8_mergedName _)
  · exact isUtf8_below h (isUtf8_mergedName _)
  · next name before _ hsig =>
      refine isUtf8_below (PathParts.isUtf8_bytes fun segment hsegment => hsplit segment ?_)
        (isUtf8_mergedName name)
      -- A directory of the copy is a segment of the path.
      have hbefore := (List.dropWhile_sublist isIdle).subset (List.mem_reverse.mp hsegment)
      have hmem : segment ∈ significant (PathParts.ofBytes path).segments :=
        hsig ▸ List.mem_cons_of_mem name hbefore
      exact segments_ofBytes_subset path
        (List.mem_reverse.mp ((List.dropWhile_sublist isIdle).subset hmem))

/-- The copy of a file at a path that is a text has such a path too. -/
theorem bytes_mergedPath (path : String) :
    Text.bytes (mergedPath path).toList = mergedBytes (Text.bytes path.toList) := by
  rw [mergedPath, String.toList_ofList]
  exact Text.mended_eq_self (isUtf8_mergedBytes (Text.isUtf8_bytes _))

/-! ### Copies of different files -/

/-- What the default name of a copy is like, for every path that leads to a file. The copy is in
    the directory of its template. Its name has an extension if the template's name has one, which
    is the same one if that is a text. It is not the path of the template, however that may be
    written. Of two different names that are texts the copies have different names, and two such
    paths whose copies are one lead to one file. Names that need not be texts give the same name
    exactly if their stems are taken for the same text, and their extensions are. -/
theorem mergedBytes_effect {path name : List UInt8} (h : fileName? path = some name) :
    directory (mergedBytes path) = directory path ∧
      fileName? (mergedBytes path) = some (mergedName name) ∧
      ((∃ extension, IsExtension (mergedName name) extension) ↔
        ∃ extension, IsExtension name extension) ∧
      ((∀ extension, IsExtension name extension → Text.IsUtf8 extension) →
        ∀ extension, IsExtension (mergedName name) extension ↔ IsExtension name extension) ∧
      mergedBytes path ≠ path ∧ route (mergedBytes path) ≠ route path ∧
      ∀ other otherName, fileName? other = some otherName →
        (Text.IsUtf8 name → Text.IsUtf8 otherName →
          (otherName ≠ name → fileName? (mergedBytes other) ≠ fileName? (mergedBytes path)) ∧
            (route (mergedBytes other) = route (mergedBytes path) →
              route other = route path)) ∧
        (fileName? (mergedBytes other) = fileName? (mergedBytes path) ↔
          Text.lossy (splitExtension otherName).1 = Text.lossy (splitExtension name).1 ∧
            (splitExtension otherName).2.map Text.lossy =
              (splitExtension name).2.map Text.lossy) := by
  rcases fileName?_mergedBytes h with ⟨hname, hdirectory⟩
  have hroute := (route_mergedBytes h).2
  have hne : route (mergedBytes path) ≠ route path := by
    intro heq
    rw [route_of_fileName? h, hroute, PathParts.mk.injEq, List.append_cancel_left_eq,
      List.cons.injEq] at heq
    exact mergedName_ne_self name heq.2.1
  refine ⟨hdirectory, hname, ?_, fun hextension extension => ?_,
    fun heq => hne (congrArg route heq), hne, fun other otherName hother =>
      ⟨fun hutf8 hutf8' => ⟨fun hnames heq => ?_, fun heq => ?_⟩, ?_⟩⟩
  · -- An extension may be replaced, but it does not come or go.
    simp only [isExtension_iff, splitExtension_mergedName, Option.map_eq_some_iff]
    constructor
    · rintro ⟨_, extension, hextension, _⟩
      exact ⟨extension, hextension⟩
    · rintro ⟨extension, hextension⟩
      exact ⟨_, extension, hextension, rfl⟩
  · rw [isExtension_iff, isExtension_iff, splitExtension_mergedName]
    dsimp only
    cases hsplit : (splitExtension name).2 with
    | none => rfl
    | some e =>
        rw [Option.map_some, Text.mended_eq_self (hextension e (isExtension_iff.mpr hsplit))]
  · rw [(fileName?_mergedBytes hother).1, hname, Option.some.injEq] at heq
    exact hnames (mergedName_injective hutf8' hutf8 heq)
  · -- The routes agree in their directories and in the names of the copies.
    rw [(route_mergedBytes hother).2, hroute, PathParts.mk.injEq,
      List.append_singleton_inj] at heq
    rw [route_of_fileName? hother, route_of_fileName? h, heq.1, heq.2.1,
      mergedName_injective hutf8' hutf8 heq.2.2]
  · rw [(fileName?_mergedBytes hother).1, hname, Option.some.injEq, mergedName_eq_mergedName_iff]

/-- Two templates side by side, of which one is named like a copy of the other. -/
theorem mergedBytes_lettersSideBySide :
    fileName? (Text.bytes "./in//.a.b.json/.".toList) = some (Text.bytes ".a.b.json".toList) ∧
      mergedBytes (Text.bytes "./in//.a.b.json/.".toList) =
        Text.bytes "./in/.a.b_merged.json".toList ∧
      directory (Text.bytes "./in/.a.b_merged.json".toList) =
        ⟨.here, [Text.bytes "in".toList]⟩ ∧
      IsExtension (Text.bytes ".a.b_merged.json".toList) (Text.bytes "json".toList) ∧
      fileName? (mergedBytes (Text.bytes "./in/.a.b_merged.json".toList)) ≠
        some (Text.bytes ".a.b_merged.json".toList) := by
  have hname : fileName? (Text.bytes "./in//.a.b.json/.".toList) =
      some (Text.bytes ".a.b.json".toList) := by decide +kernel
  have hpath : mergedBytes (Text.bytes "./in//.a.b.json/.".toList) =
      Text.bytes "./in/.a.b_merged.json".toList := by decide +kernel
  have hmerged : mergedName (Text.bytes ".a.b.json".toList) =
      Text.bytes ".a.b_merged.json".toList := by decide +kernel
  have hjson : IsExtension (Text.bytes ".a.b.json".toList) (Text.bytes "json".toList) :=
    ⟨Text.bytes ".a.b".toList, by decide +kernel, by decide +kernel, by decide +kernel⟩
  have heffect := mergedBytes_effect hname
  rw [hpath, hmerged] at heffect
  rcases heffect with ⟨hdirectory, hcopy, _, hextension, _, _, hothers⟩
  refine ⟨hname, hpath, ?_, (hextension (fun e he => ?_) _).mpr hjson, ?_⟩
  · rw [hdirectory]
    decide +kernel
  · rw [isExtension_iff] at he hjson
    rw [hjson, Option.some.injEq] at he
    exact he ▸ Text.isUtf8_bytes _
  · rw [← hcopy]
    exact ((hothers (Text.bytes "./in/.a.b_merged.json".toList) _ hcopy).1
      (Text.isUtf8_bytes _) (Text.isUtf8_bytes _)).1 (by decide +kernel)

/-- A name with a byte that is in no text. -/
def brokenName (x : UInt8) : List UInt8 :=
  Text.bytes "a".toList ++ x :: Text.bytes ".json".toList

/-- Two files side by side whose names are no texts, and whose copies have one name. An extension
    that is no text is not kept either. -/
theorem mergedBytes_brokenName :
    fileName? (brokenName 0xFF) = some (brokenName 0xFF) ∧
      fileName? (brokenName 0xFE) = some (brokenName 0xFE) ∧
      directory (brokenName 0xFF) = directory (brokenName 0xFE) ∧
      brokenName 0xFF ≠ brokenName 0xFE ∧
      mergedBytes (brokenName 0xFF) = mergedBytes (brokenName 0xFE) ∧
      fileName? [0x61, dot, 0xFF] = some [0x61, dot, 0xFF] ∧
      IsExtension [0x61, dot, 0xFF] [0xFF] ∧
      ¬ IsExtension (mergedBytes [0x61, dot, 0xFF]) [0xFF] := by
  refine ⟨by decide +kernel, by decide +kernel, by decide +kernel, by decide +kernel,
    by decide +kernel, by decide +kernel, ?_, ?_⟩
  · exact ⟨[0x61], by decide, rfl, by decide⟩
  · rw [isExtension_iff]
    decide +kernel

end Files

end MailMerge
