import MailMerge.CommandLine.Arguments
import MailMerge.Files.Name
import MailMerge.Options

/-!
# Commands

What the program can be told to do. It merges a data file into a template, writes
the sample template, or lists the markers of a template.

Before the command there may be switches of the program itself, and the switch
for being verbose may stand in either place. The first argument that does not
look like a switch is the command, and what follows belongs to it.

## Main definitions

* `Command`: The commands, with all their choices made.
* `Command.ofArguments`: The command that arguments give.

## Theorems

* `ofArguments_nil`: Without arguments there is no command.
-/

namespace MailMerge

namespace CommandLine

/-- What the program is told to do. A report path is where the report of a merge
    goes, if it is wanted in a file. -/
inductive Command where
  | merge (options : Options) (template data output : String) (report : Option String)
  | sample (output : String)
  | scan (template : String)
deriving DecidableEq, Repr

/-- The switches that may stand anywhere. -/
def commonSwitches : List Switch := [⟨"verbose", some 'v', .nothing⟩, ⟨"help", some 'h', .nothing⟩]

/-- The switches before a command. -/
def programSwitches : List Switch := commonSwitches ++ [⟨"version", some 'V', .nothing⟩]

/-- The switches of a merge. -/
def mergeSwitches : List Switch := commonSwitches ++
  [⟨"data", some 'd', .path⟩, ⟨"output", some 'o', .path⟩, ⟨"report", none, .path⟩,
    ⟨"strict", none, .nothing⟩, ⟨"header-fill", none, .text⟩, ⟨"table-border", none, .size⟩,
    ⟨"cell-border", none, .size⟩]

/-- The switches for writing the sample. -/
def sampleSwitches : List Switch := commonSwitches ++ [⟨"output", some 'o', .path⟩]

/-- The size that was given for a switch, or else another one. -/
def Given.size (g : Given) (long : String) (absent : Nat) : Nat :=
  ((g.value? long).bind size?).getD absent

/-- What is given behind a command that has some switches and takes some words. -/
def behindCommand (known : List Switch) (places : Nat) (args : List String) :
    Except Stop Given :=
  collect places ⟨[], []⟩ (readItems known none args)

namespace Command

/-- The merge that is given. Options that are not given are as by default, and a
    merged copy stands beside its template. -/
def mergeOf (g : Given) : Except Stop Command :=
  match g.words with
  | template :: _ =>
      .ok (.merge
        ⟨(g.value? "header-fill").getD Options.default.headerFill,
          g.size "table-border" Options.default.tableBorder,
          g.size "cell-border" Options.default.cellBorder, g.has "strict"⟩
        template ((g.value? "data").getD "Data/data.xml")
        ((g.value? "output").getD (Files.mergedPath template)) (g.value? "report"))
  | [] => .error .usage

/-- The sample that is given. -/
def sampleOf (g : Given) : Command := .sample ((g.value? "output").getD "sample_template.json")

/-- The scan that is given. -/
def scanOf (g : Given) : Except Stop Command :=
  match g.words with
  | template :: _ => .ok (.scan template)
  | [] => .error .usage

/-- The command of a name, with the arguments behind it. Help may be asked for
    about the program and about each command. -/
def ofName (name : String) (args : List String) : Except Stop Command :=
  if name = "merge" then do mergeOf (← behindCommand mergeSwitches 1 args)
  else if name = "sample" then do return sampleOf (← behindCommand sampleSwitches 0 args)
  else if name = "scan" then do scanOf (← behindCommand commonSwitches 1 args)
  else if name = "help" ∧
      (args = [] ∨ args ∈ [["merge"], ["sample"], ["scan"], ["help"]]) then .error .help
  else .error .usage

/-- The command that the arguments of the program give. -/
def ofArguments (args : List String) : Except Stop Command := do
  let (before, rest) := args.span fun arg => isSwitch arg.toList
  let _ ← collect 0 ⟨[], []⟩ (readItems programSwitches none before)
  match rest with
  | name :: rest => if "--" ∈ before then .error .usage else ofName name rest
  | [] => .error .usage

/-- Without arguments there is no command. -/
theorem ofArguments_nil : ofArguments [] = .error .usage := rfl

end Command

end CommandLine

end MailMerge
