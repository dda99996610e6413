import NetBridge.Table

/-! # TOML document trees

A document is a tree of tables. Each table remembers how it came into being, because that
decides which later lines may add to it. Numbers with a fraction and dates are kept as facts
only: nothing reads their values. The lines of a document put values into the tree under the
rules of TOML: a table is opened once, a dotted key adds only to tables made by dotted
keys, and a table between braces is closed. Entries stand in the order in which
they came in; a header that opens a table it was passed through before moves
that table to the end of its parent. -/
namespace NetBridge.Toml

inductive Origin where
  /-- Opened by a header of its own, or the document itself. -/
  | header
  /-- Passed through by the header of a table below it. -/
  | passed
  /-- Passed through by a dotted key. -/
  | dotted
  /-- Written between braces, and closed there. -/
  | inline
deriving DecidableEq

inductive Value where
  | text (value : String)
  | integer (value : Int)
  | float
  | boolean (value : Bool)
  | datetime
  | array (items : List Value)
  | table (origin : Origin) (entries : List (String × Value))
  /-- Elements opened by headers in double brackets. -/
  | elements (items : List Value)

namespace Value

mutual

/-- The number of containers that stand inside one another. -/
def height : Value → Nat
  | array items | elements items => itemHeight items + 1
  | table _ entries => entryHeight entries + 1
  | _ => 0

def itemHeight : List Value → Nat
  | [] => 0
  | v :: rest => max (height v) (itemHeight rest)

def entryHeight : List (String × Value) → Nat
  | [] => 0
  | (_, v) :: rest => max (height v) (entryHeight rest)

end

end Value

abbrev Entries := List (String × Value)

/-- Changes the table at the end of a path and reports what `change` reports.
Tables that are missing on the way are made. A list of elements stands for its
last one. Dotted keys do not pass through a table that has a header. -/
def descend? {α : Type} (dotted : Bool) (change : Origin → Entries → Option (α × Entries)) :
    List String → Origin → Entries → Option (α × Entries)
  | [], origin, entries => change origin entries
  | name :: path, _, entries =>
    match Table.get? entries name with
    | none => do
      let origin : Origin := if dotted then .dotted else .passed
      let (a, sub) ← descend? dotted change path origin []
      return (a, entries ++ [(name, .table origin sub)])
    | some (.table origin sub) => do
      if origin = .inline ∨ (dotted = true ∧ origin = .header) then none
      let (a, sub) ← descend? dotted change path origin sub
      return (a, Table.set entries name (.table origin sub))
    | some (.elements items) =>
      match items.getLast? with
      | some (.table origin sub) => do
        let (a, sub) ← descend? dotted change path origin sub
        return (a, Table.set entries name (.elements (items.dropLast ++ [.table origin sub])))
      | _ => none
    | some _ => none

/-- Enters `path.name = value` in a table. -/
def assign? (origin : Origin) (entries : Entries) (path : List String) (name : String)
    (value : Value) : Option Entries := do
  let (_, entries) ← descend? true (fun origin entries =>
    if (origin == .dotted) == path.isEmpty || Table.contains entries name then none
    else some ((), entries ++ [(name, value)])) path origin entries
  return entries

inductive Line where
  /-- `[path.name]` -/
  | table (path : List String) (name : String)
  /-- `[[path.name]]` -/
  | element (path : List String) (name : String)
  /-- `path.name = value` -/
  | entry (path : List String) (name : String) (value : Value)

/-- The place in the tree where the table under construction goes. -/
inductive Place where
  | root
  | table (path : List String) (name : String)
  | element (path : List String) (name : String)

/-- A document up to some line: the tree without the table that the last header
opened, and that table. -/
structure Draft where
  tree : Entries := []
  place : Place := .root
  entries : Entries := []

namespace Draft

/-- Puts the open table into the tree. -/
def close? (d : Draft) : Option Entries :=
  match d.place with
  | .root => some d.entries
  | .table path name => do
    let (_, tree) ← descend? false (fun _ entries =>
      if Table.contains entries name then none
      else some ((), entries ++ [(name, .table .header d.entries)])) path .header d.tree
    return tree
  | .element path name => do
    let (_, tree) ← descend? false (fun _ entries =>
      match Table.get? entries name with
      | some (.elements items) =>
        some ((), Table.set entries name (.elements (items ++ [.table .header d.entries])))
      | _ => none) path .header d.tree
    return tree

/-- A header takes over a table that only the headers below it have named. -/
def openTable? (tree : Entries) (path : List String) (name : String) : Option Draft := do
  let (entries, tree) ← descend? false (fun _ entries =>
    match Table.get? entries name with
    | none => some ([], entries)
    | some (.table .passed sub) => some (sub, Table.erase entries name)
    | some _ => none) path .header tree
  return ⟨tree, .table path name, entries⟩

def openElement? (tree : Entries) (path : List String) (name : String) : Option Draft := do
  let (_, tree) ← descend? false (fun _ entries =>
    match Table.get? entries name with
    | none => some ((), entries ++ [(name, .elements [])])
    | some (.elements _) => some ((), entries)
    | some _ => none) path .header tree
  return ⟨tree, .element path name, []⟩

def add? (d : Draft) : Line → Option Draft
  | .table path name => do openTable? (← d.close?) path name
  | .element path name => do openElement? (← d.close?) path name
  | .entry path name value => do
    return { d with entries := ← assign? .header d.entries path name value }

end Draft

/-- The tree of a document. -/
def treeOf? (lines : List Line) : Option Entries := do
  (← lines.foldlM Draft.add? ({} : Draft)).close?

end NetBridge.Toml
