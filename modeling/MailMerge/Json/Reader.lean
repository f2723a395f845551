import MailMerge.Json.Token

/-!
# Reading JSON

A JSON value is read from its lexemes from left to right, without looking
ahead. What has been read is remembered as the place where the value at hand
belongs: at the top, behind some items of an array, or behind some members of
an object, each inside a place of its own. The state says what may come next at
that place.

There is no limit to the nesting here. Who reads a document sets one.

## Main definitions

* `Place`: Where a value belongs.
* `State`, `State.step`: What may come next, and what a lexeme does.
* `Json.parse?`: The value of a text.

## Theorems

* `run_append`: Lexemes are taken in turn.
-/

namespace MailMerge

namespace Json

/-- Where a value belongs: at the top, behind the items of an array, or behind
    the members of an object. Items and members are kept last first, and a name
    is missing if its string denotes none. -/
inductive Place where
  | top
  | item (done : List Json) (outer : Place)
  | member (done : List (Option String × Json)) (name : Option String) (outer : Place)

/-- What may come next. -/
inductive State where
  /-- A value. -/
  | value (place : Place)
  /-- The first item of an array, or its end. -/
  | firstItem (outer : Place)
  /-- The first name of an object, or its end. -/
  | firstName (outer : Place)
  /-- A further name of an object. -/
  | nextName (done : List (Option String × Json)) (outer : Place)
  /-- The colon behind a name. -/
  | colon (done : List (Option String × Json)) (name : Option String) (outer : Place)
  /-- What may follow a complete value. -/
  | after (v : Json) (place : Place)

/-- The object with these members, given last first. Without all of its names
    it denotes nothing. -/
def objectOf (done : List (Option String × Json)) : Json :=
  match done.reverse.mapM fun m => m.1.map fun name => (name, m.2) with
  | some members => .object members
  | none => .unreadable

/-- A lexeme where a value may begin. -/
def beginValue (place : Place) : Token → Option State
  | .openArray => some (.firstItem place)
  | .openObject => some (.firstName place)
  | .word v => some (.after v place)
  | .string (some s) => some (.after (.string s) place)
  | .string none => some (.after .unreadable place)
  | _ => none

/-- What a lexeme does, if it may come. -/
def State.step : State → Token → Option State
  | .value place, token => beginValue place token
  | .firstItem outer, .closeArray => some (.after (.array []) outer)
  | .firstItem outer, token => beginValue (.item [] outer) token
  | .firstName outer, .closeObject => some (.after (.object []) outer)
  | .firstName outer, .string s => some (.colon [] s outer)
  | .nextName done outer, .string s => some (.colon done s outer)
  | .colon done name outer, .colon => some (.value (.member done name outer))
  | .after v (.item done outer), .comma => some (.value (.item (v :: done) outer))
  | .after v (.item done outer), .closeArray =>
      some (.after (.array (v :: done).reverse) outer)
  | .after v (.member done name outer), .comma => some (.nextName ((name, v) :: done) outer)
  | .after v (.member done name outer), .closeObject =>
      some (.after (objectOf ((name, v) :: done)) outer)
  | _, _ => none

/-- Takes lexemes in turn. -/
def State.run : State → List Token → Option State
  | s, [] => some s
  | s, token :: rest => (s.step token).bind fun s => s.run rest

theorem run_append (s : State) (l m : List Token) :
    s.run (l ++ m) = (s.run l).bind fun s => s.run m := by
  induction l generalizing s with
  | nil => rfl
  | cons token l ih => simp only [List.cons_append, State.run, Option.bind_assoc, ih]

/-- The value that a sequence of lexemes makes up. -/
def ofTokens? (l : List Token) : Option Json :=
  match (State.value .top).run l with
  | some (.after v .top) => some v
  | _ => none

/-- The value of a text, if it obeys the grammar. -/
def parse? (s : String) : Option Json := (tokens? s.toList).bind ofTokens?

end Json

end MailMerge
