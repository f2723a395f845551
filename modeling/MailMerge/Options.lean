/-!
# Merge Options

What a caller may choose about a merge: how generated tables look, and whether
a marker that could not be honoured makes the merge fail.

Border sizes count eighths of a point, and a fill is a colour in hexadecimal.
Neither is interpreted here.

## Main definitions

* `Options`: The choices.
* `Options.default`: What holds when nothing is chosen.
-/

namespace MailMerge

/-- The choices a caller has: the fill of a generated table's header cells, the
    borders of generated tables, the borders of filled cells without formatting
    of their own, and whether to be strict. -/
structure Options where
  headerFill : String
  tableBorder : Nat
  cellBorder : Nat
  strict : Bool
deriving DecidableEq, Repr

namespace Options

/-- Light grey headers, borders of one and a half points around tables and of
    half a point around cells, and no strictness. -/
def default : Options := ⟨"DDDDDD", 12, 4, false⟩

instance : Inhabited Options := ⟨default⟩

end Options

end MailMerge
