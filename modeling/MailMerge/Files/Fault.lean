/-!
# File Faults

What reading or writing a file may fail with, in the words of the operating
system. A fault that has no case of its own keeps its words.

## Main definitions

* `Files.Fault`: What may go wrong with a file.
* `Files.Fault.message`: The words for it.
-/

namespace MailMerge

namespace Files

/-- What may go wrong with a file. -/
inductive Fault where
  | notFound
  | isDirectory
  | notDirectory
  | nameTooLong
  | nulInName
  | notText
  | other (message : String)
deriving DecidableEq, Repr

/-- The words for a fault. -/
def Fault.message : Fault → String
  | .notFound => "No such file or directory (os error 2)"
  | .isDirectory => "Is a directory (os error 21)"
  | .notDirectory => "Not a directory (os error 20)"
  | .nameTooLong => "File name too long (os error 36)"
  | .nulInName => "file name contained an unexpected NUL byte"
  | .notText => "stream did not contain valid UTF-8"
  | .other message => message

end Files

end MailMerge
