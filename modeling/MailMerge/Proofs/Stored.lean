import MailMerge.Files.System

/-!
# Reading What Was Written

A text that was written to a path is what is read from there afterwards. The two walk to the
file in different ways, since writing has to cope with a file that is not there yet. And the
second walk is in another file system than the first. It still comes to the same place:
a walk goes on from directories only, and a text is never put where a directory is. So what
was put is nowhere on the way, and directories on the way stay directories, be they listed or
only led through.

## Theorems

* `find?_put_of_directory`: Directories stay when an entry is put where none was.
* `walk_put`: So walks go where they went.
* `walk_of_filePlace`: The place that a path names for writing is where it leads.
* `read_of_write`: What was written is read.
* `lawfulFiles`: A file system that is a value keeps the laws of files.
-/

namespace MailMerge

/-- What comes through a sequence has come through both parts of it. -/
theorem exists_of_bind_eq_ok {ε α β : Type} {x : Except ε α} {f : α → Except ε β} {b : β}
    (h : x.bind f = .ok b) : ∃ a, x = .ok a ∧ f a = .ok b := by
  cases x with
  | error fault => exact absurd h (by simp only [Except.bind, reduceCtorEq, not_false_eq_true])
  | ok a => exact ⟨a, rfl, h⟩

namespace FileSystem

open Files (Entry Fault)

variable {fs : FileSystem} {place : List String} {e : Entry}

-- Every place that was listed is still listed.
theorem any_putEntry {l : List (List String × Entry)} {p : List String → Bool}
    (h : (l.any fun entry => p entry.1) = true) :
    ((putEntry place e l).any fun entry => p entry.1) = true := by
  induction l with
  | nil => exact absurd h Bool.false_ne_true
  | cons first rest ih =>
      rcases first with ⟨q, old⟩
      rw [List.any_cons, Bool.or_eq_true] at h
      rw [putEntry]
      split
      · rw [List.any_cons, Bool.or_eq_true]
        exact h
      · rw [List.any_cons, Bool.or_eq_true]
        exact h.imp_right ih

theorem leadsOn_put {q : List String} (h : fs.leadsOn q = true) :
    (fs.put place e).leadsOn q = true := by
  rw [leadsOn, Bool.or_eq_true] at h ⊢
  exact h.imp_right any_putEntry

/-- Directories stay when an entry is put at another place. -/
theorem find?_put_of_directory {q : List String} (hne : q ≠ place)
    (h : fs.find? q = some .directory) : (fs.put place e).find? q = some .directory := by
  rw [find?] at h ⊢
  rw [lookup_put_of_ne fs e hne]
  cases hlookup : fs.entries.lookup q with
  | some entry =>
      rw [hlookup] at h
      exact h
  | none =>
      -- It is not listed, so something below it is, or the working directory is there.
      rw [hlookup] at h
      by_cases hleads : fs.leadsOn q = true
      · exact if_pos (leadsOn_put hleads)
      · dsimp only at h
        rw [if_neg hleads] at h
        exact absurd h.symm (Option.some_ne_none _)

theorem find?_of_enter {q r : List String} {name : String} (h : fs.enter q name = .ok r) :
    fs.find? q = some .directory := by
  rw [enter] at h
  split at h
  · exact absurd h (by simp only [reduceCtorEq, not_false_eq_true])
  · exact absurd h (by simp only [reduceCtorEq, not_false_eq_true])
  · exact absurd h (by simp only [reduceCtorEq, not_false_eq_true])
  · next hfind => exact hfind

/-- Where a walk goes on from, it goes on in the same way when an entry is put at a place
    without a directory. -/
theorem enter_put (hplace : fs.find? place ≠ some .directory) {q r : List String} {name : String}
    (h : fs.enter q name = .ok r) : (fs.put place e).enter q name = .ok r := by
  have hfind := find?_of_enter h
  have hne : q ≠ place := by
    rintro rfl
    exact hplace hfind
  rw [enter, hfind] at h
  rw [enter, find?_put_of_directory hne hfind]
  exact h

theorem walk_put (hplace : fs.find? place ≠ some .directory) {q r : List String}
    {names : List String} (h : fs.walk q names = .ok r) :
    (fs.put place e).walk q names = .ok r := by
  induction names generalizing q with
  | nil => exact h
  | cons name rest ih =>
      rcases exists_of_bind_eq_ok h with ⟨next, henter, hrest⟩
      rw [walk, enter_put hplace henter]
      exact ih hrest

theorem walk_append (fs : FileSystem) (q : List String) (names names' : List String) :
    fs.walk q (names ++ names') = (fs.walk q names).bind fun r => fs.walk r names' := by
  induction names generalizing q with
  | nil => rfl
  | cons name rest ih =>
      rw [List.cons_append, walk, walk]
      cases fs.enter q name with
      | error fault => rfl
      | ok next => exact ih next

/-- The place that a path names for writing is where the path leads. -/
theorem walk_of_filePlace {path : String} (h : fs.filePlace path = .ok place) :
    ∃ q names, fs.start path = .ok (q, names) ∧ fs.walk q names = .ok place := by
  rcases exists_of_bind_eq_ok h with ⟨⟨q, names⟩, hstart, h⟩
  refine ⟨q, names, hstart, ?_⟩
  dsimp only at h
  split at h
  · exact absurd h (by simp only [reduceCtorEq, not_false_eq_true])
  · next last before hnames =>
      rcases exists_of_bind_eq_ok h with ⟨parent, hparent, h⟩
      split at h
      · rcases exists_of_bind_eq_ok h with ⟨_, _, h⟩
        exact absurd h (by simp only [reduceCtorEq, not_false_eq_true])
      · next hlast =>
          -- The path does not end in a slash, so its last name is the last of all.
          have hall : names.reverse = last :: before := by
            rw [← List.head?_reverse] at hlast
            rw [← hnames]
            cases hreverse : names.reverse with
            | nil => rfl
            | cons name rest =>
                rw [hreverse, List.head?_cons, Option.some.injEq] at hlast
                rw [List.dropWhile_cons_of_neg (by rw [decide_eq_true_eq]; exact hlast)]
          rw [← List.reverse_reverse names, hall, List.reverse_cons, walk_append, hparent]
          exact congrArg (·.bind fun r => fs.walk r []) h

/-- What was written is read. -/
theorem read_of_write {path text : String} {saved : FileSystem}
    (h : fs.write path text = .ok saved) : saved.read path = .ok text := by
  rcases exists_of_bind_eq_ok h with ⟨place, hplace, h⟩
  split at h
  · exact absurd h (by simp only [reduceCtorEq, not_false_eq_true])
  · next hdirectory =>
      rcases walk_of_filePlace hplace with ⟨q, names, hstart, hwalk⟩
      rw [← Except.ok.inj h]
      have hat : (fs.put place (.text text)).at? path = .ok (.text text) := by
        have hstart' : (fs.put place (.text text)).start path = .ok (q, names) := hstart
        simp only [at?, hstart', walk_put hdirectory hwalk, find?_put, Except.bind, bind]
      rw [read, hat]
      rfl

theorem isOk_at?_of_read {path text : String} (h : fs.read path = .ok text) :
    (fs.at? path).isOk = true := by
  rcases exists_of_bind_eq_ok h with ⟨e, hat, _⟩
  rw [hat]
  rfl

theorem writeText_eq (path text : String) (fs : FileSystem) :
    (writeText path text : StateM FileSystem (Except Fault Unit)) fs =
      match fs.write path text with
      | .ok saved => (.ok (), saved)
      | .error cause => (.error cause, fs) := rfl

theorem writeIn_eq (fs : FileSystem) (path text : String) :
    writeIn fs path text = fs.write path text := by
  rw [writeIn, writeText_eq]
  cases fs.write path text <;> rfl

/-- A file system that is a value keeps the laws of files. -/
instance lawfulFiles : LawfulFiles FileSystem where
  state_isThere _ _ := rfl
  state_readText _ _ := rfl
  isThere_of_read := isOk_at?_of_read
  state_writeText := by
    intro fs path text cause h
    rw [writeIn_eq] at h
    rw [writeText_eq, h]
  read_of_write := by
    intro fs saved path text h
    rw [writeIn_eq] at h
    exact read_of_write h

end FileSystem

end MailMerge
