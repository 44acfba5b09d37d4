import Influence.Decimal.Shortest
import Influence.Report.Basic
import Influence.Report.Outline
import Influence.Text.Quoted

/-! # Reports as documents

Two full forms of a report, in which every cell is written as its shortest decimal.

* `json` is a JSON document with sorted keys.
* `listing` shows the fields of the report in their order. -/

namespace Influence.Report

/-! ### JSON -/

/-- Numbers in a document: positional from 0.00001 to below 10^16, a plus sign before a positive
exponent, and no number for a value that is none. -/
def jsonNumber : Decimal.Style := ⟨-4, 16, true, .even, "null", fun _ => "null"⟩

/-- Documents are indented by two blanks. -/
def jsonLayout : Outline.Style := ⟨2, false⟩

/-- A number of a document. -/
def jsonCell (x : Float) : Outline := .leaf (jsonNumber.text x)

/-- A string of a document. -/
def jsonText (text : String) : Outline := .leaf (Text.json text)

/-- An array of a document. -/
def jsonArray (items : List Outline) : Outline := .items "[" "]" items

/-- An object of a document, with its keys in ascending order. -/
def jsonObject (members : List (String × Outline)) : Outline :=
  .group "\x7b" "\x7d" ((Sorting.sort (fun a b => a.1 ≤ b.1) members).map fun (key, value) =>
    (Text.json key ++ ": ", value))

/-- A rule in a document. -/
def jsonPolicy (p : Policy Float) : Outline :=
  jsonObject [("name", jsonText p.name), ("given", jsonArray (p.given.map jsonText)),
    ("table", jsonArray (p.table.map jsonCell)),
    ("expected_utility", jsonArray (p.expectedUtility.map jsonCell))]

/-- An expected utility in a document. -/
def jsonUtility (u : UtilityResult Float) : Outline :=
  jsonObject [("variables", jsonArray (u.names.map jsonText)),
    ("values", jsonArray (u.values.map jsonCell))]

/-- A report as a JSON document. -/
def json (r : Report Float) : String :=
  (jsonObject
    [("distributions", jsonObject (r.distributions.map fun (name, cells) =>
        (name, jsonArray (cells.map jsonCell)))),
      ("utility", (r.utility.map jsonUtility).getD (.leaf "null")),
      ("policies", jsonArray (r.policies.map jsonPolicy))]).render jsonLayout 0

/-! ### Listings -/

/-- Numbers in a listing: positional from 0.0001 to below 10^16. -/
def listingNumber : Decimal.Style :=
  ⟨-3, 16, false, .up, "NaN", fun negative => if negative then "-inf" else "inf"⟩

/-- Listings are indented by four blanks and have a comma after every member. -/
def listingLayout : Outline.Style := ⟨4, true⟩

/-- A number of a listing. -/
def listingCell (x : Float) : Outline := .leaf (listingNumber.text x)

/-- A string of a listing. -/
def listingText (text : String) : Outline := .leaf (Text.listing text)

/-- A list in a listing. -/
def listingList (items : List Outline) : Outline := .items "[" "]" items

/-- A record in a listing. -/
def listingRecord (name : String) (fields : List (String × Outline)) : Outline :=
  .group (name ++ " \x7b") "\x7d" (fields.map fun (field, value) => (field ++ ": ", value))

/-- A rule in a listing. -/
def listingPolicy (p : Policy Float) : Outline :=
  listingRecord "DecisionPolicy" [("name", listingText p.name),
    ("given", listingList (p.given.map listingText)),
    ("table", listingList (p.table.map listingCell)),
    ("expected_utility", listingList (p.expectedUtility.map listingCell))]

/-- An expected utility in a listing. -/
def listingUtility (u : UtilityResult Float) : Outline :=
  .items "Some(" ")" [listingRecord "UtilityResult"
    [("variables", listingList (u.names.map listingText)),
      ("values", listingList (u.values.map listingCell))]]

/-- A distribution in a listing. -/
def listingDistribution (name : String) (cells : List Float) : Outline :=
  .items "(" ")" [listingText name, listingList (cells.map listingCell)]

/-- A report as a listing. -/
def listing (r : Report Float) : String :=
  (listingRecord "Report"
    [("distributions", listingList (r.distributions.map fun (name, cells) =>
        listingDistribution name cells)),
      ("utility", (r.utility.map listingUtility).getD (.leaf "None")),
      ("policies", listingList (r.policies.map listingPolicy))]).render listingLayout 0

end Influence.Report
