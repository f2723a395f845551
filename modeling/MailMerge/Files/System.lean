import MailMerge.Files.Access
import MailMerge.Text.Cut

/-!
# A File System as a Value

A file system is a list of places with what is there, and a place to start from,
the working directory. A place is the row of names that leads to it from the
root. A directory need not be listed when something below it is.

A path is walked name by name. Every place that the walk goes on from has to be
a directory, and so does the last one when the path ends in a slash. The name
`.` stays, and `..` goes up, which at the root is staying.

A file holds a text, or bytes that are no text. Those can be replaced and cannot
be read.

## Main definitions

* `Entry`: What is at a place.
* `FileSystem`: The places, and the working directory.
* `FileSystem.walk`, `FileSystem.filePlace`: The place that a path leads to, or
  names for writing.
* `FileSystem.read`, `FileSystem.write`: Reading and writing a text.

## Theorems

* `find?_put`: Putting an entry at a place makes it what is there.
* `lookup_put_of_ne`: What is listed at another place stays as it was.
-/

namespace MailMerge

namespace Files

/-- What is at a place: a directory, a file with a text, or a file whose bytes
    are no text. -/
inductive Entry where
  | directory
  | text (s : String)
  | binary
deriving DecidableEq, Repr

end Files

/-- Places with what is there, and the place of the working directory. -/
structure FileSystem where
  here : List String
  entries : List (List String × Files.Entry)
deriving DecidableEq, Repr

namespace FileSystem

open Files (Entry Fault)

/-- Whether something is listed below a place, or the working directory is. -/
def leadsOn (fs : FileSystem) (place : List String) : Bool :=
  place.isPrefixOf fs.here || fs.entries.any fun e => place.isPrefixOf e.1

/-- What is at a place. -/
def find? (fs : FileSystem) (place : List String) : Option Entry :=
  match fs.entries.lookup place with
  | some e => some e
  | none => if fs.leadsOn place then some .directory else none

/-- The longest that a name may be, in bytes. -/
def nameLimit : Nat := 255

/-- The longest that a path may be, in bytes. -/
def pathLimit : Nat := 4095

/-- One name further from a place. Only a directory leads on. -/
def enter (fs : FileSystem) (place : List String) (name : String) :
    Except Fault (List String) :=
  match fs.find? place with
  | none => .error .notFound
  | some (.text _) | some .binary => .error .notDirectory
  | some .directory =>
      if name = "" ∨ name = "." then .ok place
      else if name = ".." then .ok place.dropLast
      else if nameLimit < Text.byteLength name.toList then .error .nameTooLong
      else .ok (place ++ [name])

/-- The place that a row of names leads to. There need not be anything. -/
def walk (fs : FileSystem) : List String → List String → Except Fault (List String)
  | place, [] => .ok place
  | place, name :: rest => (fs.enter place name).bind fun next => fs.walk next rest

/-- Where a path starts, and the names between its slashes. No path is empty, and
    none holds the character that ends paths. -/
def start (fs : FileSystem) (path : String) : Except Fault (List String × List String) :=
  if path.toList.any fun c => c = '\x00' then .error .nulInName
  else if path = "" then .error .notFound
  else if pathLimit < Text.byteLength path.toList then .error .nameTooLong
  else
    let names := (path.toList.splitOn '/').map String.ofList
    .ok (if path.toList.head? = some '/' then [] else fs.here, names)

/-- What a path leads to. -/
def at? (fs : FileSystem) (path : String) : Except Fault Entry := do
  let (place, names) ← fs.start path
  match fs.find? (← fs.walk place names) with
  | some e => .ok e
  | none => .error .notFound

/-- The text of the file that a path leads to. -/
def read (fs : FileSystem) (path : String) : Except Fault String := do
  match ← fs.at? path with
  | .text s => .ok s
  | .binary => .error .notText
  | .directory => .error .isDirectory

/-- A list of places with an entry at one of them. -/
def putEntry (place : List String) (e : Entry) :
    List (List String × Entry) → List (List String × Entry)
  | [] => [(place, e)]
  | (p, old) :: rest => if p = place then (p, e) :: rest else (p, old) :: putEntry place e rest

/-- The file system with an entry at a place. -/
def put (fs : FileSystem) (place : List String) (e : Entry) : FileSystem :=
  { fs with entries := putEntry place e fs.entries }

/-- The place of the file that a path names for writing. A path that ends in a
    slash names no file. This is seen once its last name is reached, whatever
    that name is. -/
def filePlace (fs : FileSystem) (path : String) : Except Fault (List String) := do
  let (place, names) ← fs.start path
  match names.reverse.dropWhile (· = "") with
  | [] => .error .isDirectory
  | last :: before =>
      let parent ← fs.walk place before.reverse
      if names.getLast? = some "" then
        let _ ← fs.enter parent ""
        .error .isDirectory
      else fs.enter parent last

/-- The file system after a text was written to the file that a path names. -/
def write (fs : FileSystem) (path text : String) : Except Fault FileSystem := do
  let place ← fs.filePlace path
  if fs.find? place = some .directory then .error .isDirectory
  else .ok (fs.put place (.text text))

theorem lookup_putEntry (place other : List String) (e : Entry)
    (l : List (List String × Entry)) :
    (putEntry place e l).lookup other = if other = place then some e else l.lookup other := by
  induction l with
  | nil =>
      by_cases h : other = place
      · simp only [putEntry, h, List.lookup_cons, beq_self_eq_true, if_true]
      · simp only [putEntry, List.lookup_cons, List.lookup_nil, h, if_false,
          beq_eq_false_iff_ne.mpr h]
  | cons first l ih =>
      obtain ⟨p, old⟩ := first
      by_cases h : p = place <;> by_cases h' : other = p
      · simp only [putEntry, h, h', if_true, List.lookup_cons, beq_self_eq_true]
      · have hp : ¬ other = place := h ▸ h'
        simp only [putEntry, h, hp, if_true, if_false, List.lookup_cons,
          beq_eq_false_iff_ne.mpr hp]
      · simp only [putEntry, h, h', if_false, List.lookup_cons, beq_self_eq_true]
      · simp only [putEntry, h, if_false, List.lookup_cons, beq_eq_false_iff_ne.mpr h', ih]

/-- Putting an entry at a place makes it what is there. -/
theorem find?_put (fs : FileSystem) (place : List String) (e : Entry) :
    (fs.put place e).find? place = some e := by
  simp only [find?, put, lookup_putEntry, if_true]

/-- What is listed at another place stays as it was. -/
theorem lookup_put_of_ne (fs : FileSystem) {place other : List String} (e : Entry)
    (h : other ≠ place) : (fs.put place e).entries.lookup other = fs.entries.lookup other := by
  simp only [put, lookup_putEntry, h, if_false]

end FileSystem

/-- Computing with a file system is access to its files. -/
instance : MonadFiles (StateM FileSystem) where
  isThere path := fun fs => ((fs.at? path).isOk, fs)
  readText path := fun fs => (fs.read path, fs)
  writeText path text := fun fs =>
    match fs.write path text with
    | .ok next => (.ok (), next)
    | .error fault => (.error fault, fs)

end MailMerge
