import MailMerge.CommandLine.Run

/-!
# The Program

The program itself: access to the files of the computer, and printing what a run
ends with.

## Main definitions

* `main`: Runs the command that the arguments give.
-/

namespace MailMerge

namespace Files

/-- The number of an error, which some calls report as a negative one. -/
def errorNumber (code : UInt32) : Nat :=
  if code.toNat < Nat.pow 2 31 then code.toNat else Nat.pow 2 32 - code.toNat

/-- The fault of a number, or else the words for an error. -/
def Fault.ofNumber (code : UInt32) (words : String) : Fault :=
  match errorNumber code with
  | 2 => .notFound
  | 13 => .other "Permission denied (os error 13)"
  | 20 => .notDirectory
  | 21 => .isDirectory
  | 36 => .nameTooLong
  | _ => .other words

/-- The fault behind an error of the operating system. -/
def Fault.ofError (e : IO.Error) : Fault :=
  match e with
  | .noFileOrDirectory _ code _ | .inappropriateType _ code _ | .invalidArgument _ code _
  | .permissionDenied _ code _ => .ofNumber code (toString e)
  | e => .other (toString e)

end Files

/-- Access to the files of the computer. -/
instance : MonadFiles IO where
  isThere path := do
    try
      let _ ← IO.FS.Handle.mk path .read
      return true
    catch e => return Files.Fault.ofError e ∉ [.notFound, .notDirectory, .nameTooLong]
  readText path := do
    try
      let bytes ← IO.FS.readBinFile path
      match String.fromUTF8? bytes with
      | some text => return .ok text
      | none => return .error .notText
    catch e => return .error (.ofError e)
  writeText path text := do
    try
      IO.FS.writeFile path text
      return .ok ()
    catch e => return .error (.ofError e)

end MailMerge

/-- Runs the command that the arguments give, and says what there is to say. -/
def main (args : List String) : IO UInt32 := do
  let output ← (MailMerge.CommandLine.runArguments args : IO MailMerge.CommandLine.Output)
  IO.print output.out
  IO.eprint output.err
  return output.code.toUInt32
