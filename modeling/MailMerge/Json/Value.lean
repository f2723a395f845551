/-!
# JSON Values

The values that a document tree and a report are written in.

An object keeps its members in the order in which they stand, a repeated name
included, because a document keeps the order of its formatting properties. A
number is kept as the digits it was written with. Nothing here calculates with
numbers, so their text is all there is to know.

JSON has texts that obey its grammar and denote nothing: a string with half of
a surrogate pair is no Unicode text, a number beyond the range of the floating
point format is no number, and an object with such a string for a name is no
object. They are kept as `unreadable`. A reader that wants the value refuses
it, and a reader that skips the value need not look.

A record is the reading of a value as a fixed list of fields. It may be given
as an object, by name, or as an array, by place.

## Main definitions

* `Json`: The values.
* `Json.depth`: How deep the arrays and objects of a value are nested.
* `Json.isReadable`: Whether everything inside a value denotes something.
* `Json.record?`: The fields of a record.

## Theorems

* `length_of_record?`: A record has a place for every field.
-/

namespace MailMerge

/-- A JSON value, or something of JSON's grammar that denotes no value. -/
inductive Json where
  | null
  | bool (b : Bool)
  | number (literal : String)
  | string (s : String)
  | array (items : List Json)
  | object (members : List (String × Json))
  | unreadable

namespace Json

mutual

/-- How deep the arrays and objects of a value are nested. -/
def depth : Json → Nat
  | .array items => depthOfItems items + 1
  | .object members => depthOfMembers members + 1
  | _ => 0

/-- The greatest depth among the items of an array. -/
def depthOfItems : List Json → Nat
  | [] => 0
  | v :: rest => max v.depth (depthOfItems rest)

/-- The greatest depth among the members of an object. -/
def depthOfMembers : List (String × Json) → Nat
  | [] => 0
  | (_, v) :: rest => max v.depth (depthOfMembers rest)

end

mutual

/-- Whether everything inside a value denotes something. -/
def isReadable : Json → Bool
  | .array items => allReadable items
  | .object members => allMembersReadable members
  | .unreadable => false
  | _ => true

/-- Whether all items of an array are readable. -/
def allReadable : List Json → Bool
  | [] => true
  | v :: rest => v.isReadable && allReadable rest

/-- Whether all members of an object are readable. -/
def allMembersReadable : List (String × Json) → Bool
  | [] => true
  | (_, v) :: rest => v.isReadable && allMembersReadable rest

end

/-- The string that a value is, if it is one. -/
def string? : Json → Option String
  | .string s => some s
  | _ => none

/-- The items of the array that a value is, if it is one. -/
def array? : Json → Option (List Json)
  | .array items => some items
  | _ => none

/-- The member of a name, if there is one. Two members of that name are a
    fault. -/
def member? (members : List (String × Json)) (name : String) : Option (Option Json) :=
  match members.filter fun m => m.1 == name with
  | [] => some none
  | [m] => some (some m.2)
  | _ => none

/-- The fields of a record, in the order of their names, each of them possibly
    left out. An object gives fields by name, and members of other names mean
    nothing. An array gives them by place; it may stop early, and may not go
    on. -/
def record? (names : List String) : Json → Option (List (Option Json))
  | .object members => names.mapM (member? members)
  | .array items =>
      if items.length ≤ names.length then some ((List.range names.length).map fun i => items[i]?)
      else none
  | _ => none

theorem length_of_mapM_member? {members : List (String × Json)} {names : List String}
    {fields : List (Option Json)} (h : names.mapM (member? members) = some fields) :
    fields.length = names.length := by
  induction names generalizing fields with
  | nil =>
      simp only [List.mapM_nil, Option.pure_def, Option.some.injEq] at h
      rw [← h, List.length_nil, List.length_nil]
  | cons name names ih =>
      simp only [List.mapM_cons, Option.pure_def, Option.bind_eq_bind, Option.bind_eq_some_iff,
        Option.some.injEq] at h
      obtain ⟨_, _, tail, ht, rfl⟩ := h
      rw [List.length_cons, List.length_cons, ih ht]

/-- A record has a place for every field. -/
theorem length_of_record? {names : List String} {v : Json} {fields : List (Option Json)}
    (h : v.record? names = some fields) : fields.length = names.length := by
  cases v with
  | object members => exact length_of_mapM_member? h
  | array items =>
      simp only [record?] at h
      split at h
      · simp only [Option.some.injEq] at h
        rw [← h, List.length_map, List.length_range]
      · exact absurd h (by simp only [reduceCtorEq, not_false_eq_true])
  | _ => simp only [record?, reduceCtorEq] at h

end Json

end MailMerge
