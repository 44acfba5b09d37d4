/-! # Outlines

An `Outline` is a tree of groups that is written with one line for each member, indented by the
depth of the group.  A group without members is written on one line. -/

namespace Influence

/-- A tree of labelled groups. -/
inductive Outline where
  | leaf (text : String)
  | group (opening closing : String) (members : List (String × Outline))
deriving Repr

namespace Outline

/-- How an outline is laid out. -/
structure Style where
  /-- The number of blanks for each level. -/
  indent : Nat
  /-- Whether a comma follows the last member of a group as well. -/
  lastComma : Bool

/-- A group whose members have no labels. -/
def items (opening closing : String) (members : List Outline) : Outline :=
  group opening closing (members.map fun m => ("", m))

/-- The blanks in front of a line. -/
def blanks (n : Nat) : String := "".pushn ' ' n

mutual

/-- The text of an outline in a line that is indented by `depth` blanks. -/
def render (style : Style) (depth : Nat) : Outline → String
  | leaf text => text
  | group opening closing [] => opening ++ closing
  | group opening closing (m :: ms) =>
    opening ++ "\n" ++ renderMembers style (depth + style.indent) (m :: ms)
      ++ blanks depth ++ closing

/-- The lines of some members. -/
def renderMembers (style : Style) (depth : Nat) : List (String × Outline) → String
  | [] => ""
  | (label, m) :: rest =>
    blanks depth ++ label ++ render style depth m
      ++ (if style.lastComma || !rest.isEmpty then ",\n" else "\n")
      ++ renderMembers style depth rest

end

end Outline

end Influence
