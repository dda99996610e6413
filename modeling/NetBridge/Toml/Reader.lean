import NetBridge.Toml.Number
import NetBridge.Toml.Tree

/-! # Reading TOML

From the text to its lines, and from the lines to the tree. -/
namespace NetBridge.Toml

/-- The number of containers that may stand inside one another in a value. -/
def maxNesting : Nat := 79

/-- The number of names that a dotted key may have. -/
def maxKeyLength : Nat := 79

def isBare (c : Char) : Bool := c.isAlphanum || c == '_' || c == '-'

def name? (cs : List Char) : Option (String × List Char) :=
  match cs with
  | '"' :: rest => (basicBody? (rest.length + 1) rest).map fun p => (String.ofList p.1, p.2)
  | '\'' :: rest => (literalBody? rest).map fun p => (String.ofList p.1, p.2)
  | _ =>
    match cs.span isBare with
    | ([], _) => none
    | (body, rest) => some (String.ofList body, rest)

/-- Names with dots between them. -/
def names? : Nat → List Char → Option (List String × List Char)
  | 0, _ => none
  | fuel + 1, cs => do
    let (name, rest) ← name? (skipBlanks cs)
    match skipBlanks rest with
    | '.' :: rest => do
      let (names, rest) ← names? fuel rest
      return (name :: names, rest)
    | rest => some ([name], rest)

/-- A key as the path to a table and the name in it. -/
def key? (cs : List Char) : Option (List String × String × List Char) := do
  let (names, rest) ← names? (cs.length + 1) cs
  if maxKeyLength < names.length then none
  return (names.dropLast, ← names.getLast?, rest)

/-- Drops blanks, line breaks and comments. -/
def skipFiller : Nat → List Char → List Char
  | 0, cs => cs
  | fuel + 1, cs =>
    match skipLines cs with
    | '#' :: rest => skipFiller fuel (rest.dropWhile isPlain)
    | cs => cs

/-- Items up to the closing bracket; a comma may follow the last one. -/
def items? (item? : List Char → Option (Value × List Char)) :
    Nat → List Char → Option (List Value × List Char)
  | 0, _ => none
  | fuel + 1, cs =>
    match skipFiller (cs.length + 1) cs with
    | ']' :: rest => some ([], rest)
    | cs => do
      let (v, rest) ← item? cs
      match skipFiller (rest.length + 1) rest with
      | ',' :: rest => do
        let (items, rest) ← items? item? fuel rest
        return (v :: items, rest)
      | ']' :: rest => some ([v], rest)
      | _ => none

/-- Entries up to the closing brace, at least one, all on one line. -/
def entries? (item? : List Char → Option (Value × List Char)) :
    Nat → Entries → List Char → Option (Entries × List Char)
  | 0, _, _ => none
  | fuel + 1, entries, cs => do
    let (path, name, rest) ← key? cs
    let rest ← char? '=' rest
    let (v, rest) ← item? (skipBlanks rest)
    let entries ← assign? .inline entries path name v
    match skipBlanks rest with
    | ',' :: rest => entries? item? fuel entries rest
    | '}' :: rest => some (entries, rest)
    | _ => none

/-- A value inside of which `nesting` containers may stand. -/
def value? (nesting : Nat) (cs : List Char) : Option (Value × List Char) :=
  match cs with
  | '"' :: _ | '\'' :: _ => (string? cs).map fun p => (.text p.1, p.2)
  | 't' :: 'r' :: 'u' :: 'e' :: rest => some (.boolean true, rest)
  | 'f' :: 'a' :: 'l' :: 's' :: 'e' :: rest => some (.boolean false, rest)
  | '[' :: rest =>
    match nesting with
    | 0 => none
    | nesting + 1 => (items? (value? nesting) (rest.length + 1) rest).map fun p => (.array p.1, p.2)
  | '{' :: rest =>
    match nesting with
    | 0 => none
    | nesting + 1 =>
      match skipBlanks rest with
      | '}' :: rest => some (.table .inline [], rest)
      | rest => (entries? (value? nesting) (rest.length + 1) [] rest).map fun p =>
          (.table .inline p.1, p.2)
  | _ => number? cs

/-- The text after the rest of a line on which only a comment may stand. -/
def lineEnd? (cs : List Char) : Option (List Char) :=
  let cs :=
    match skipBlanks cs with
    | '#' :: rest => rest.dropWhile isPlain
    | cs => cs
  if cs.isEmpty then some [] else newline? cs

def line? (cs : List Char) : Option (Line × List Char) := do
  match cs with
  | '[' :: '[' :: rest => do
    let (path, name, rest) ← key? rest
    let rest ← char? ']' rest
    let rest ← char? ']' rest
    return (.element path name, ← lineEnd? rest)
  | '[' :: rest => do
    let (path, name, rest) ← key? rest
    let rest ← char? ']' rest
    return (.table path name, ← lineEnd? rest)
  | _ => do
    let (path, name, rest) ← key? cs
    let rest ← char? '=' rest
    let (v, rest) ← value? maxNesting (skipBlanks rest)
    return (.entry path name v, ← lineEnd? rest)

/-- The lines of a text, the empty ones left out. -/
def lines? : Nat → List Char → Option (List Line)
  | 0, _ => none
  | fuel + 1, cs =>
    match skipBlanks cs with
    | [] => some []
    | cs =>
      match lineEnd? cs with
      | some rest => lines? fuel rest
      | none => do
        let (line, rest) ← line? cs
        return line :: (← lines? fuel rest)

/-- A byte order mark at the front is no part of the text. -/
def dropMark : List Char → List Char
  | '\uFEFF' :: rest => rest
  | cs => cs

/-- The tree of a document. -/
def parse? (s : String) : Option Entries := do
  let cs := dropMark s.toList
  treeOf? (← lines? (cs.length + 1) cs)

end NetBridge.Toml
