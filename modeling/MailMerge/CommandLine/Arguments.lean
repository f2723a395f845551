/-!
# Arguments of a Program

An argument of a program is a switch, the value of a switch, or a word. A switch
has a long name behind two dashes and may have a letter behind one. Several
letters may stand behind one dash. A switch that takes a value finds it behind an
equals sign, or right behind its letter, or in the next argument, but a value in
an argument of its own may not look like a switch. An argument `--` makes all
that follow it words, and a single dash is a word too.

Reading arguments gives items in the order in which they stand. An argument that
makes no sense is an item as well, so that whoever goes through the items in
order stops at the first thing that calls for it, be it a mistake or a question
for help.

## Main definitions

* `Takes`, `Switch`: The switches that a program knows.
* `Item`: What an argument says.
* `readItems`: The items of some arguments.
* `Given`, `collect`: The values and words that were given, each checked.

## Theorems

* `readItems_dashes`: Behind two dashes there are words only.
-/

namespace MailMerge

namespace CommandLine

/-- What a switch takes: nothing, a path, which is not empty, any text, or a
    number of 32 bits. -/
inductive Takes where
  | nothing
  | path
  | text
  | size
deriving DecidableEq, Repr

/-- A switch, with its long name and perhaps a letter. -/
structure Switch where
  long : String
  letter : Option Char
  takes : Takes
deriving DecidableEq, Repr

/-- What an argument says: a switch is given, with a value if it takes one, a
    word is given, or nothing that makes sense. -/
inductive Item where
  | switch (s : Switch) (value : String)
  | word (s : String)
  | mistake
deriving DecidableEq, Repr

/-- Whether an argument looks like a switch. -/
def isSwitch (arg : List Char) : Bool :=
  match arg with
  | '-' :: _ :: _ => true
  | _ => false

/-- The value behind the equals sign that a text begins with, or else the text
    itself. -/
def dropEquals : List Char → List Char
  | '=' :: value => value
  | text => text

/-- The letters behind a single dash, and the switch that still waits for its
    value when they are read. -/
def readLetters (known : List Switch) : List Char → List Item × Option Switch
  | [] => ([], none)
  | c :: rest =>
      match known.find? fun s => s.letter = some c with
      | none => ([.mistake], none)
      | some s =>
          if s.takes = .nothing then
            let (items, waiting) := readLetters known rest
            (.switch s "" :: items, waiting)
          else if rest = [] then ([], some s)
          else ([.switch s (String.ofList (dropEquals rest))], none)

/-- The name behind two dashes, and the switch that still waits for its value
    when it is read. -/
def readName (known : List Switch) (text : List Char) : List Item × Option Switch :=
  let name := text.takeWhile (· ≠ '=')
  match known.find? fun s => s.long.toList = name, text.dropWhile (· ≠ '=') with
  | none, _ => ([.mistake], none)
  | some s, [] => if s.takes = .nothing then ([.switch s ""], none) else ([], some s)
  | some s, _ :: value =>
      if s.takes = .nothing then ([.mistake], none)
      else ([.switch s (String.ofList value)], none)

/-- The items of an argument that no switch waits for. -/
def readArgument (known : List Switch) (arg : List Char) : List Item × Option Switch :=
  match arg with
  | '-' :: '-' :: name => readName known name
  | '-' :: c :: letters => readLetters known (c :: letters)
  | _ => ([.word (String.ofList arg)], none)

/-- The items of some arguments, the first of which may be the value that a
    switch waits for. -/
def readItems (known : List Switch) : (waiting : Option Switch) → List String → List Item
  | none, [] => []
  | some _, [] => [.mistake]
  | some s, arg :: rest =>
      if isSwitch arg.toList then [.mistake] else .switch s arg :: readItems known none rest
  | none, arg :: rest =>
      if arg = "--" then rest.map .word
      else
        let (items, waiting) := readArgument known arg.toList
        items ++ readItems known waiting rest

/-- Behind two dashes there are words only. -/
theorem readItems_dashes (known : List Switch) (rest : List String) :
    readItems known none ("--" :: rest) = rest.map .word := by
  simp only [readItems, if_true]

/-- Why reading stopped before a command was known: the arguments make no sense,
    or they ask for help or for the version. -/
inductive Stop where
  | usage
  | help
  | version
deriving DecidableEq, Repr

/-- The number that decimal digits make up, if there are any. -/
def digits? (t : List Char) : Option Nat :=
  if t = [] ∨ t.any (fun c => !c.isDigit) then none
  else some (t.foldl (fun n c => 10 * n + (c.toNat - '0'.toNat)) 0)

/-- The number of 32 bits that a text denotes. It may have a sign, but only zero
    may be negative. -/
def size? (s : String) : Option Nat :=
  match s.toList with
  | '+' :: t => (digits? t).filter (· < Nat.pow 2 32)
  | '-' :: t => (digits? t).filter (· = 0)
  | t => (digits? t).filter (· < Nat.pow 2 32)

/-- Whether a value is one that a switch takes. -/
def Takes.accepts : Takes → String → Bool
  | .nothing, _ => true
  | .path, value => value ≠ ""
  | .text, _ => true
  | .size, value => (size? value).isSome

/-- The values of switches by their long names, and the words, in order. -/
structure Given where
  values : List (String × String)
  words : List String
deriving DecidableEq, Repr

/-- The value that was given for a switch. -/
def Given.value? (g : Given) (long : String) : Option String := g.values.lookup long

/-- Whether a switch was given. -/
def Given.has (g : Given) (long : String) : Bool := (g.value? long).isSome

/-- Goes through items up to the first one that calls for stopping. A switch is
    given once at most, and there are no more than `places` words, each of them a
    path. -/
def collect (places : Nat) : Given → List Item → Except Stop Given
  | g, [] => .ok g
  | _, .mistake :: _ => .error .usage
  | g, .switch s value :: rest =>
      if s.long = "help" then .error .help
      else if s.long = "version" then .error .version
      else if g.has s.long || !s.takes.accepts value then .error .usage
      else collect places { g with values := g.values ++ [(s.long, value)] } rest
  | g, .word w :: rest =>
      if places ≤ g.words.length ∨ w = "" then .error .usage
      else collect places { g with words := g.words ++ [w] } rest

end CommandLine

end MailMerge
