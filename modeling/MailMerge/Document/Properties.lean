/-!
# Formatting Properties

The formatting of a node is a list of keys with values that nothing here
interprets. It is carried along so that what was loaded can be written back.

The order of the keys is the order in which they were first set, and setting a
key again changes its value in place. No key stands twice, which is part of
the type.

## Main definitions

* `Properties`: Keys with values, in the order in which they were set.
* `Properties.set`, `Properties.get?`: Setting and looking up a key.
* `Properties.ofList`: Keys set one after the other.

## Theorems

* `get?_set`: A lookup finds what was set last.
* `keys_set`: Setting adds a key at the end unless it is there.
-/

namespace MailMerge

/-- Formatting keys with their values, in the order in which they were set. -/
structure Properties where
  entries : List (String × String)
  nodup_keys : (entries.map Prod.fst).Nodup
deriving DecidableEq

namespace Properties

/-- No formatting. -/
def empty : Properties := ⟨[], List.nodup_nil⟩

instance : Inhabited Properties := ⟨empty⟩

instance : EmptyCollection Properties := ⟨empty⟩

/-- The keys, in order. -/
def keys (p : Properties) : List String := p.entries.map Prod.fst

/-- Whether there is no formatting. -/
def isEmpty (p : Properties) : Bool := p.entries.isEmpty

/-- How many keys are set. -/
def size (p : Properties) : Nat := p.entries.length

/-- The value of a key. -/
def get? (p : Properties) (key : String) : Option String := p.entries.lookup key

/-- Entries with a key set: in place if it is there, at the end if not. -/
def setEntry (key value : String) : List (String × String) → List (String × String)
  | [] => [(key, value)]
  | (k, v) :: rest => if k = key then (k, value) :: rest else (k, v) :: setEntry key value rest

theorem map_fst_setEntry (key value : String) (l : List (String × String)) :
    (setEntry key value l).map Prod.fst =
      if key ∈ l.map Prod.fst then l.map Prod.fst else l.map Prod.fst ++ [key] := by
  induction l with
  | nil => rfl
  | cons e l ih =>
      obtain ⟨k, v⟩ := e
      by_cases h : k = key
      · simp only [setEntry, h, if_true, List.map_cons, List.mem_cons, true_or]
      · simp only [setEntry, h, if_false, List.map_cons, List.mem_cons, Ne.symm h, false_or, ih]
        split <;> rfl

theorem nodup_setEntry {key value : String} {l : List (String × String)}
    (h : (l.map Prod.fst).Nodup) : ((setEntry key value l).map Prod.fst).Nodup := by
  rw [map_fst_setEntry]
  split
  · exact h
  · next hk =>
      rw [List.nodup_append]
      refine ⟨h, List.nodup_cons.mpr ⟨List.not_mem_nil, List.nodup_nil⟩, ?_⟩
      intro a ha b hb
      rw [List.mem_singleton.mp hb]
      intro hab
      exact hk (hab ▸ ha)

/-- Sets the value of a key. -/
def set (p : Properties) (key value : String) : Properties :=
  ⟨setEntry key value p.entries, nodup_setEntry p.nodup_keys⟩

/-- Setting adds a key at the end unless it is there. -/
theorem keys_set (p : Properties) (key value : String) :
    (p.set key value).keys = if key ∈ p.keys then p.keys else p.keys ++ [key] :=
  map_fst_setEntry key value p.entries

theorem lookup_setEntry (key key' value : String) (l : List (String × String)) :
    (setEntry key value l).lookup key' = if key' = key then some value else l.lookup key' := by
  induction l with
  | nil =>
      by_cases h : key' = key
      · simp only [setEntry, h, List.lookup_cons, beq_self_eq_true, if_true]
      · simp only [setEntry, List.lookup_cons, List.lookup_nil, h, if_false,
          beq_eq_false_iff_ne.mpr h]
  | cons e l ih =>
      obtain ⟨k, v⟩ := e
      by_cases h : k = key <;> by_cases h' : key' = k
      · simp only [setEntry, h, h', if_true, List.lookup_cons, beq_self_eq_true]
      · have hk : ¬ key' = key := h ▸ h'
        simp only [setEntry, h, hk, if_true, if_false, List.lookup_cons,
          beq_eq_false_iff_ne.mpr hk]
      · simp only [setEntry, h, h', if_false, List.lookup_cons, beq_self_eq_true]
      · simp only [setEntry, h, if_false, List.lookup_cons, beq_eq_false_iff_ne.mpr h', ih]

/-- A lookup finds what was set last. -/
theorem get?_set (p : Properties) (key key' value : String) :
    (p.set key value).get? key' = if key' = key then some value else p.get? key' :=
  lookup_setEntry key key' value p.entries

/-- Sets keys one after the other. -/
def setAll (p : Properties) : List (String × String) → Properties
  | [] => p
  | (key, value) :: rest => (p.set key value).setAll rest

/-- The keys of a list set one after the other, a repeated one in its first
    place with its last value. -/
def ofList (l : List (String × String)) : Properties := empty.setAll l

end Properties

end MailMerge
