import MailMerge.Files.Fault

/-!
# Access to Files

The three things that a merge does with files: asking whether something is
there, reading a text, and writing one. Code that deals with files is written
for any monad that can do these. So it runs on the files of a computer, and it
runs on a file system that is a value.

Where files have a state, some laws say what may be relied on. They leave open
what a path leads to, whether two paths lead to one file, and which files there
is no leave to read or to write.

## Main definitions

* `MonadFiles`: A monad with access to files.
* `isThereIn`, `readIn`, `writeIn`: What access to files gives in a state.
* `LawfulFiles`: The laws of files that have a state.
-/

namespace MailMerge

/-- A monad with access to files, which are named by their paths. Writing puts a
    text in the place of whatever text a file held. -/
class MonadFiles (m : Type → Type) where
  isThere : (path : String) → m Bool
  readText : (path : String) → m (Except Files.Fault String)
  writeText : (path text : String) → m (Except Files.Fault Unit)

export MonadFiles (isThere readText writeText)

/-- Files are accessed from computations that may fail as from those below. -/
instance {m : Type → Type} [Monad m] [MonadFiles m] {ε : Type} : MonadFiles (ExceptT ε m) where
  isThere path := ExceptT.lift (isThere path)
  readText path := ExceptT.lift (readText path)
  writeText path text := ExceptT.lift (writeText path text)

section

variable {σ : Type} [MonadFiles (StateM σ)]

/-- Whether something is there in a state. -/
def isThereIn (s : σ) (path : String) : Bool := ((isThere path : StateM σ Bool) s).1

/-- The text that is read in a state. -/
def readIn (s : σ) (path : String) : Except Files.Fault String :=
  ((readText path : StateM σ (Except Files.Fault String)) s).1

/-- The state after a text was written, if it could be. -/
def writeIn (s : σ) (path text : String) : Except Files.Fault σ :=
  let (done, next) := (writeText path text : StateM σ (Except Files.Fault Unit)) s
  done.map fun _ => next

end

/-- The laws of files that have a state. -/
class LawfulFiles (σ : Type) [MonadFiles (StateM σ)] : Prop where
  /-- Asking whether something is there changes nothing. -/
  state_isThere : ∀ (s : σ) (path : String), ((isThere path : StateM σ Bool) s).2 = s
  /-- Reading changes nothing. -/
  state_readText : ∀ (s : σ) (path : String),
    ((readText path : StateM σ (Except Files.Fault String)) s).2 = s
  /-- What can be read is there. -/
  isThere_of_read : ∀ {s : σ} {path text : String},
    readIn s path = .ok text → isThereIn s path = true
  /-- A failed write changes nothing. -/
  state_writeText : ∀ {s : σ} {path text : String} {cause : Files.Fault},
    writeIn s path text = .error cause →
      ((writeText path text : StateM σ (Except Files.Fault Unit)) s).2 = s
  /-- What was written is read. -/
  read_of_write : ∀ {s saved : σ} {path text : String},
    writeIn s path text = .ok saved → readIn saved path = .ok text

end MailMerge
