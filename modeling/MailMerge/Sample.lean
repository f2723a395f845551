import MailMerge.Document.Block

/-!
# The Sample Template

A template to begin with: a court filing with two parties and two tables of
incomes, in which both kinds of marker occur.

## Main definitions

* `Document.sample`: The template.
-/

namespace MailMerge

namespace Sample

/-- A content marker for a path below the root. -/
def contentMarker (path : String) : String := "<# <Content Select=\"./" ++ path ++ "\" /> #>"

/-- A table marker for a path below the root. -/
def tableMarker (path : String) : String := "<# <Table Select=\"./" ++ path ++ "\" /> #>"

/-- A plain paragraph. -/
def plain (s : String) : Block := .paragraph (.ofText s)

/-- A label with the markers of what it labels. -/
def field (label : String) (paths : List String) : Block :=
  plain (label ++ ": " ++ " ".intercalate (paths.map contentMarker))

/-- The paragraphs about one party, under a heading. -/
def party (heading role : String) : List Block :=
  [plain (heading ++ " INFORMATION"),
    field "Name" [role ++ "/FirstName", role ++ "/LastName"],
    field "Address" [role ++ "/CurrentAddress"],
    field "Phone" [role ++ "/PhoneNumber"],
    field "Email" [role ++ "/EmailAddress"]]

/-- The title, in bold. -/
def title : Block :=
  .paragraph ⟨∅, [⟨.ofList [("bold", "true")], "Sample Document with XML Placeholders"⟩]⟩

/-- The court that the filing goes to. -/
def court : List Block := [field "Court" ["CourtName"], field "Address" ["CourtAddress"]]

/-- The tables of incomes, each under a heading. -/
def incomes : List Block :=
  [plain "INCOME SOURCES", plain (tableMarker "IncomesSources"),
    plain "OTHER BENEFITS", plain (tableMarker "IncomesOther")]

end Sample

/-- The sample template. -/
def Document.sample : Document :=
  ⟨some (Sample.title :: Sample.court ++ Sample.party "APPLICANT" "Applicant" ++
    Sample.party "RESPONDENT" "Respondent" ++ Sample.incomes)⟩

end MailMerge
