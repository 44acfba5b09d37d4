import Influence.Json.Basic
import Influence.Network.Definition

/-! # Definitions in JSON

`Definition.ofJson?` and `Config.ofJson?` read a definition and the options from a document.

A record is written as an object whose keys are the names of its fields, or as an array of the
fields in their order (`fields?`).  Keys that name no field are ignored, and a key that names a
field may stand only once.  A field that is left out has its default, if there is one.  Values are
never converted: a number is no text, and `null` stands only for an absent table.

What a number is worth is left to the caller: the readers take a function `number` from numerals,
such as `Numeral.nearest?` or `Numeral.scaled?`. -/

namespace Influence

namespace Json

/-- The value of a text. -/
def toText? : Json → Option String
  | text s => s
  | _ => none

/-- The value of a boolean. -/
def toBool? : Json → Option Bool
  | bool b => some b
  | _ => none

/-- The value of a number, which `value` finds. -/
def toNumber? {β : Type} (value : Numeral → Option β) : Json → Option β
  | number n => value n
  | _ => none

/-- The items of an array, each read by `read`. -/
def toList? {β : Type} (read : Json → Option β) : Json → Option (List β)
  | array items => items.mapM read
  | _ => none

/-- The value of a member, which may not be found twice. -/
def member? (name : String) (members : List (Option String × Json)) : Option (Option Json) :=
  match members.filter (·.1 == some name) with
  | [] => some none
  | [(_, value)] => some (some value)
  | _ => none

/-- The values of the named fields of a record, where they are given. -/
def fields? (names : List String) : Json → Option (List (Option Json))
  | object members =>
    if members.any (·.1.isNone) then none else names.mapM fun name => member? name members
  | array items =>
    if names.length < items.length then none
    else some (names.zipIdx.map fun (_, i) => items[i]?)
  | _ => none

/-- A field that may be left out. -/
def orElse? {β : Type} (default : β) (read : Json → Option β) : Option Json → Option β
  | none => some default
  | some value => read value

end Json

open Json

/-- Reads a declaration. -/
def Declaration.ofJson? (j : Json) : Option Declaration := do
  let [name, kind, outcomes] ← j.fields? ["name", "kind", "outcomes"] | none
  return ⟨← toText? (← name), ← toText? (← kind), ← orElse? [] (toList? toText?) outcomes⟩

/-- Reads an elimination order: its name, or an object with its name as the only key. -/
def Heuristic.ofJson? : Json → Option Heuristic
  | .text (some name) => ofText? name
  | .object [(some name, .null)] => ofText? name
  | _ => none

variable {α : Type} (number : Numeral → Option α)

/-- Reads a table, which may be absent. -/
def Entry.tableOfJson? : Json → Option (Option (List α))
  | .null => some none
  | j => (j.toList? (toNumber? number)).map some

/-- Reads an entry. -/
def Entry.ofJson? (j : Json) : Option (Entry α) := do
  let [target, given, table] ← j.fields? ["for", "given", "table"] | none
  return ⟨← toText? (← target), ← orElse? [] (toList? toText?) given,
    ← orElse? none (Entry.tableOfJson? number) table⟩

/-- Reads a definition. -/
def Definition.ofJson? (j : Json) : Option (Definition α) := do
  let [declarations, entries] ← j.fields? ["variables", "factors"] | none
  return ⟨← toList? Declaration.ofJson? (← declarations),
    ← orElse? [] (toList? (Entry.ofJson? number)) entries⟩

/-- Reads a weight: an array of a name and a number. -/
def Config.weightOfJson? : Json → Option (String × α)
  | .array [name, weight] => do return (← toText? name, ← toNumber? number weight)
  | _ => none

/-- Reads the options. -/
def Config.ofJson? (j : Json) : Option (Config α) := do
  let [heuristic, normalizeChance, weights] ←
    j.fields? ["heuristic", "normalize_chance_tables", "utility_weights"] | none
  let plain : Config α := {}
  return ⟨← orElse? plain.heuristic Heuristic.ofJson? heuristic,
    ← orElse? plain.normalizeChance toBool? normalizeChance,
    ← orElse? plain.weights (toList? (weightOfJson? number)) weights⟩

/-- Reads a definition from the text of a document. -/
def Definition.read? (text : String) : Option (Definition α) :=
  (Json.read? text).bind (ofJson? number)

/-- Reads the options from the text of a document. -/
def Config.read? (text : String) : Option (Config α) := (Json.read? text).bind (ofJson? number)

end Influence
