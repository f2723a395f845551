import MailMerge.Json.Value

/-!
# Writing JSON

The layout in which documents and reports are written: one item or member a
line, two blanks of indentation a level, a blank behind each colon, empty
arrays and objects closed at once, and no line end behind the whole.

A string is written with as few escapes as the grammar allows. A quotation
mark, a backslash and the control characters below the blank are escaped, and
everything else stands for itself.

## Main definitions

* `quote`: A string as written.
* `write`: A value as written, at a level of indentation.
* `Json.pretty`: A value as written.
-/

namespace MailMerge

namespace Json

/-- A character as it is written in a string. -/
def escape (c : Char) : List Char :=
  if c = '"' then ['\\', '"']
  else if c = '\\' then ['\\', '\\']
  else if c = '\x08' then ['\\', 'b']
  else if c = '\x0C' then ['\\', 'f']
  else if c = '\n' then ['\\', 'n']
  else if c = '\r' then ['\\', 'r']
  else if c = '\t' then ['\\', 't']
  else if c.toNat < 0x20 then
    ['\\', 'u', '0', '0', Nat.digitChar (c.toNat / 16), Nat.digitChar (c.toNat % 16)]
  else [c]

/-- A string as written. -/
def quote (s : String) : List Char := '"' :: s.toList.flatMap escape ++ ['"']

/-- A new line at a level of indentation. -/
def newline (level : Nat) : List Char := '\n' :: List.replicate (2 * level) ' '

mutual

/-- A value as written, the lines inside it one level further in than
    `level`. -/
def write (level : Nat) : Json → List Char
  | .null | .unreadable => "null".toList
  | .bool true => "true".toList
  | .bool false => "false".toList
  | .number literal => literal.toList
  | .string s => quote s
  | .array [] => ['[', ']']
  | .array (v :: rest) =>
      '[' :: newline (level + 1) ++ write (level + 1) v ++ writeItems (level + 1) rest ++
        newline level ++ [']']
  | .object [] => ['\x7b', '\x7d']
  | .object ((name, v) :: rest) =>
      '\x7b' :: newline (level + 1) ++ quote name ++ ':' :: ' ' :: write (level + 1) v ++
        writeMembers (level + 1) rest ++ newline level ++ ['\x7d']

/-- The items behind the first one, each with the comma before it. -/
def writeItems (level : Nat) : List Json → List Char
  | [] => []
  | v :: rest => ',' :: newline level ++ write level v ++ writeItems level rest

/-- The members behind the first one, each with the comma before it. -/
def writeMembers (level : Nat) : List (String × Json) → List Char
  | [] => []
  | (name, v) :: rest =>
      ',' :: newline level ++ quote name ++ ':' :: ' ' :: write level v ++
        writeMembers level rest

end

/-- A value as written. -/
def pretty (v : Json) : String := String.ofList (v.write 0)

end Json

end MailMerge
