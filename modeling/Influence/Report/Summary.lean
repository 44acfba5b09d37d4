import Influence.Decimal.Fixed
import Influence.Report.Basic

/-! # Summaries

A summary shows the answers of a run as indented lines.  Each row of a table over several variables
is labelled with the outcomes that it belongs to (`label`), and a row of a rule lists the outcomes
of the decision that get any mass (`chosen`). -/

namespace Influence.Report

/-- How a summary shows cells. -/
structure CellText (α : Type) where
  /-- The text of a value. -/
  value : α → String
  /-- The text of a share of a choice. -/
  share : α → String

/-- Values have six places and shares of a choice three; halves go to the even digit. -/
def CellText.float : CellText Float := ⟨Decimal.fixed 6, Decimal.fixed 3⟩

/-- The text of one variable with its outcome. -/
def pairText (name outcome : String) : String := name ++ "=" ++ outcome

section

variable {α : Type}

/-- The parts of the label of a row of a table over some variables, and what is left of the row
number beyond the first variable.  The last variable varies fastest. -/
def labelParts (n : Network α) : List String → Nat → List String × Nat
  | [], row => ([], row)
  | name :: names, row =>
    let (parts, rest) := labelParts n names row
    let outcomes := n.outcomesOf name
    let arity := max outcomes.length 1
    (pairText name (outcomes.getD (rest % arity) "?") :: parts, rest / arity)

/-- The label of a row of a table over some variables. -/
def label (n : Network α) (names : List String) (row : Nat) : String :=
  ", ".intercalate (labelParts n names row).1

/-- The cells of a table in rows of a given width. -/
def rowsOf (width : Nat) (cells : List α) : List (List α) := Table.rows width cells.toArray

variable [Cell α] (t : CellText α)

/-- The text of an outcome that is chosen, with its share unless that is the whole choice. -/
def choiceText (outcome : String) (mass : α) : String :=
  if Cell.less mass 1 then outcome ++ " (" ++ t.share mass ++ ")" else outcome

/-- One outcome of a decision with its share, if it has any. -/
def choice? (outcome : String) (mass : α) : Option String :=
  if Cell.less 0 mass then some (choiceText t outcome mass) else none

/-- The outcomes that a row of a rule chooses. -/
def chosen (outcomes : List String) (row : List α) : String :=
  " | ".intercalate ((outcomes.zip row).filterMap fun (outcome, mass) => choice? t outcome mass)

/-- The line of one row of a rule. -/
def policyRow (n : Network α) (p : Policy α) (row : List α) (i : Nat) : String :=
  let arrow := "-> " ++ chosen t (n.outcomesOf p.name) row
  "    " ++ if p.given.isEmpty then arrow else label n p.given i ++ " " ++ arrow

/-- The lines of a rule. -/
def policyLines (n : Network α) (p : Policy α) : List String :=
  let width := (n.outcomesOf p.name).length
  if width = 0 then []
  else
    ("  " ++ p.name ++ ":") ::
      (rowsOf width p.table).zipIdx.map fun (row, i) => policyRow t n p row i

/-- The lines of a distribution. -/
def distributionLines (n : Network α) (name : String) (cells : List α) : List String :=
  ("  " ++ name ++ ":") :: ((n.outcomesOf name).zip cells).map fun (outcome, x) =>
    "    " ++ outcome ++ " = " ++ t.value x

/-- The lines of an expected utility. -/
def utilityLines (n : Network α) (u : UtilityResult α) : List String :=
  match u.scalar? with
  | some x => ["Expected utility = " ++ t.value x]
  | none =>
    ("Expected utility over " ++ ", ".intercalate u.names ++ ":") ::
      u.values.zipIdx.map fun (x, row) => "  " ++ label n u.names row ++ " = " ++ t.value x

/-- The lines of a section with a heading that counts its parts, none if there are no parts. -/
def sectionLines (heading : String) (parts : List (List String)) : List String :=
  if parts.isEmpty then []
  else (heading ++ " (" ++ toString parts.length ++ "):") :: parts.flatten

/-- The lines of a summary. -/
def summaryLines (n : Network α) (r : Report α) : List String :=
  sectionLines "Policies" (r.policies.map (policyLines t n))
    ++ sectionLines "Distributions" (r.distributions.map fun (name, cells) =>
      distributionLines t n name cells)
    ++ (r.utility.map (utilityLines t n)).getD []

end

/-- Lines as a text in which each of them is ended. -/
def ended (lines : List String) : String := String.join (lines.map (· ++ "\n"))

/-- A summary. -/
def summary (n : Network Float) (r : Report Float) : String :=
  ended (summaryLines CellText.float n r)

end Influence.Report
