import StubInference.NameMap

/-!
# Settings documents

A settings document binds dotted names to values, in lines of the TOML notation. This file holds
the tree that a document builds and the rules on what may be bound twice.

## Main definitions

* `Settings.Value` — a value written in a document
* `Settings.Node`, `Settings.Table` — what a name is bound to, and the names of a table
* `Settings.Table.bind?` — bind a dotted key
* `Settings.Table.openTable?`, `Settings.Table.openElement?` — start a table or one more element of
  an array of tables
-/

namespace StubInference.Settings

/-- A value written in a document. What a float or a moment stands for is checked but not kept: no
setting is one. -/
inductive Value where
  | text (value : String)
  | integer (value : Int)
  | float
  | moment
  | bool (value : Bool)
  | array
  | inlineTable

/-- How a table came into being: by its own header, on the way to another header, or through a
dotted key. -/
inductive Origin where
  | header
  | implied
  | dotted
  deriving DecidableEq

/-- What a name is bound to: a value, a table, or an array of tables with the last one first. -/
inductive Node where
  | value (value : Value)
  | table (origin : Origin) (entries : List (String × Node))
  | tables (last : List (String × Node))

/-- The names of a table. -/
abbrev Table := NameMap Node

/-- Bind a dotted key to a value. Its last part must be new in a table that dotted keys made. The
parts before may pass through tables without a header of their own, and an array of tables stands
for its last element. -/
def Table.bind? (table : Table) (value : Value) : (path : List String) → Option Table
  | [] => none
  | [name] => if table.has name then none else some (table.insert name (.value value))
  | name :: rest =>
    -- whether `name` is the table that takes the value
    let isLast := rest.length = 1
    match table.get? name with
    | none => (Table.bind? [] value rest).map fun inner => table.insert name (.table .dotted inner)
    | some (.table origin entries) =>
      if origin = .header ∨ (origin = .implied ∧ isLast) then none
      else (Table.bind? entries value rest).map fun inner =>
        table.insert name (.table origin inner)
    | some (.tables last) =>
      if isLast then none
      else (Table.bind? last value rest).map fun inner => table.insert name (.tables inner)
    | some (.value _) => none

/-- Change the table that a path names, making the tables on the way that are missing. An array of
tables stands for its last element. -/
def Table.update? (table : Table) (change : Table → Option Table) : (path : List String) →
    Option Table
  | [] => change table
  | name :: rest =>
    match table.get? name with
    | none => (Table.update? [] change rest).map fun inner =>
      table.insert name (.table .implied inner)
    | some (.table origin entries) => (Table.update? entries change rest).map fun inner =>
      table.insert name (.table origin inner)
    | some (.tables last) => (Table.update? last change rest).map fun inner =>
      table.insert name (.tables inner)
    | _ => none

/-- Start the table that a header names. It may have been implied before, but not started. -/
def Table.openTable? (table : Table) (path : List String) : Option Table :=
  match path.getLast? with
  | none => none
  | some name => table.update? (fun parent =>
      match parent.get? name with
      | none => some (parent.insert name (.table .header []))
      | some (.table .implied entries) => some (parent.insert name (.table .header entries))
      | _ => none) path.dropLast

/-- Start one more element of the array of tables that a header names. -/
def Table.openElement? (table : Table) (path : List String) : Option Table :=
  match path.getLast? with
  | none => none
  | some name => table.update? (fun parent =>
      match parent.get? name with
      | none | some (.tables _) => some (parent.insert name (.tables []))
      | _ => none) path.dropLast

end StubInference.Settings
