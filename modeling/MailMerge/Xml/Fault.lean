/-!
# What Can Be Wrong with XML Data

The causes for which a data file is refused, and the wording of each.

The reading of a file has three layers, and each finds faults of its own. The
markup itself may not be closed, the tags may not nest, and a reference inside
a text may stand for nothing. On top of that the elements have to make up
exactly one tree. A fault of the markup, of the nesting or of the tree's shape
is found at a place, the byte where the offending piece begins. A fault inside
a reference is given relative to its own text, and a fault of the whole file
has no place at all.

## Main definitions

* `MarkupFault`, `NestingFault`, `ReferenceFault`, `EscapeFault`: The causes,
  layer by layer.
* `Fault`: All of them, with the place where there is one.
* `Fault.offset?`, `Fault.message`: The place and the wording.
-/

namespace MailMerge

namespace Xml

/-- A piece of markup that does not come to its end, or is of no kind. -/
inductive MarkupFault where
  | stray
  | unclosedInstruction
  | unclosedComment
  | unclosedDoctype
  | unclosedCData
  | unclosedTag
deriving DecidableEq, Repr

/-- Markup that is complete but does not fit what surrounds it. -/
inductive NestingFault where
  | doctypeWithoutName
  | closedUnopened (name : String)
  | closedOther (expected found : String)
deriving DecidableEq, Repr

/-- A numeric character reference that stands for no character. -/
inductive ReferenceFault where
  | sign
  | noDigits
  | badDigit
  | tooLarge
  | null
  | notScalar (code : Nat)
deriving DecidableEq, Repr

/-- A reference inside a text that cannot be resolved. Places count bytes from
    the beginning of that text. -/
inductive EscapeFault where
  | unknownEntity (start stop : Nat) (name : String)
  | unterminated (start stop : Nat)
  | badReference (cause : ReferenceFault)
deriving DecidableEq, Repr

/-- A reason to refuse an XML text. Offsets count bytes. -/
inductive Fault where
  | markup (offset : Nat) (cause : MarkupFault)
  | nesting (offset : Nat) (cause : NestingFault)
  | escape (cause : EscapeFault)
  | secondRoot (offset : Nat)
  | textOutsideRoot (offset : Nat)
  | strayClose (offset : Nat)
  | unclosedElement (name : String)
  | noRoot
deriving DecidableEq, Repr

/-- The wording of a markup fault. -/
def MarkupFault.message : MarkupFault → String
  | .stray => "unknown or missed symbol in markup"
  | .unclosedInstruction =>
      "processing instruction or xml declaration not closed: `?>` not found before end of input"
  | .unclosedComment => "comment not closed: `-->` not found before end of input"
  | .unclosedDoctype => "DOCTYPE not closed: `>` not found before end of input"
  | .unclosedCData => "CDATA not closed: `]]>` not found before end of input"
  | .unclosedTag => "tag not closed: `>` not found before end of input"

/-- The wording of a nesting fault. -/
def NestingFault.message : NestingFault → String
  | .doctypeWithoutName =>
      "`<!DOCTYPE>` declaration does not contain a name of a document type"
  | .closedUnopened name => "close tag `</" ++ name ++ ">` does not match any open tag"
  | .closedOther expected found =>
      "expected `</" ++ expected ++ ">`, but `</" ++ found ++ ">` was found"

/-- The wording of a reference fault. -/
def ReferenceFault.message : ReferenceFault → String
  | .sign => "unexpected number sign"
  | .noDigits => "cannot parse integer from empty string"
  | .badDigit => "invalid digit found in string"
  | .tooLarge => "number too large to fit in target type"
  | .null => "0x0 character is not permitted in XML"
  | .notScalar code => "`" ++ toString code ++ "` is not a valid codepoint"

/-- The wording of an escape fault. -/
def EscapeFault.message : EscapeFault → String
  | .unknownEntity start stop name =>
      "at " ++ toString start ++ ".." ++ toString stop ++ ": unrecognized entity `" ++ name ++ "`"
  | .unterminated start stop =>
      "Error while escaping character at range " ++ toString start ++ ".." ++ toString stop ++
        ": Cannot find ';' after '&'"
  | .badReference cause => "invalid character reference: " ++ cause.message

/-- Where a fault was found, if it has a place in the file. -/
def Fault.offset? : Fault → Option Nat
  | .markup offset _ | .nesting offset _ | .secondRoot offset | .textOutsideRoot offset
  | .strayClose offset => some offset
  | .escape _ | .unclosedElement _ | .noRoot => none

/-- The wording of a fault. -/
def Fault.message : Fault → String
  | .markup _ cause => "malformed XML: syntax error: " ++ cause.message
  | .nesting _ cause => "malformed XML: ill-formed document: " ++ cause.message
  | .escape cause => "malformed XML: " ++ cause.message
  | .secondRoot _ => "document has more than one root element"
  | .textOutsideRoot _ => "text content outside the root element"
  | .strayClose _ => "closing tag without opening tag"
  | .unclosedElement name => "unexpected end of input, <" ++ name ++ "> is not closed"
  | .noRoot => "document has no root element"

end Xml

end MailMerge
