/-! # TOML strings

Each reader starts after the opening quotation marks and returns the characters
of the string with the text after the closing ones. -/
namespace NetBridge.Toml

def isBlank (c : Char) : Bool := c == ' ' || c == '\t'

def skipBlanks (cs : List Char) : List Char := cs.dropWhile isBlank

/-- Characters that may stand in strings and comments: no control characters but
the tabulator. -/
def isPlain (c : Char) : Bool := c == '\t' || (32 ≤ c.toNat && c.toNat != 127)

/-- The text after a line break. -/
def newline? : List Char → Option (List Char)
  | '\n' :: rest => some rest
  | '\r' :: '\n' :: rest => some rest
  | _ => none

/-- Drops blanks and line breaks. -/
def skipLines : List Char → List Char
  | '\r' :: '\n' :: rest => skipLines rest
  | c :: rest => if isBlank c || c == '\n' then skipLines rest else c :: rest
  | [] => []

def digitValue? (base : Nat) (c : Char) : Option Nat :=
  let v :=
    if '0' ≤ c ∧ c ≤ '9' then c.toNat - 48
    else if 'a' ≤ c ∧ c ≤ 'f' then c.toNat - 87
    else if 'A' ≤ c ∧ c ≤ 'F' then c.toNat - 55
    else 16
  if v < base then some v else none

/-- The character with the given hexadecimal number, surrogates excepted. -/
def hexChar? (digits : List Char) : Option Char := do
  let code ← digits.foldlM (fun n c => (digitValue? 16 c).map (n * 16 + ·)) 0
  if code < 0xD800 || (0xDFFF < code && code < 0x110000) then some (Char.ofNat code) else none

/-- What stands after a backslash. -/
def escape? : List Char → Option (Char × List Char)
  | 'b' :: rest => some ('\x08', rest)
  | 't' :: rest => some ('\t', rest)
  | 'n' :: rest => some ('\n', rest)
  | 'f' :: rest => some ('\x0c', rest)
  | 'r' :: rest => some ('\r', rest)
  | '"' :: rest => some ('"', rest)
  | '\\' :: rest => some ('\\', rest)
  | 'u' :: rest =>
    if rest.length < 4 then none else (hexChar? (rest.take 4)).map (·, rest.drop 4)
  | 'U' :: rest =>
    if rest.length < 8 then none else (hexChar? (rest.take 8)).map (·, rest.drop 8)
  | _ => none

/-- A string on one line, with escapes. Every step takes a character, so `fuel`
may be the length of the text. -/
def basicBody? : Nat → List Char → Option (List Char × List Char)
  | fuel + 1, c :: rest =>
    if c == '"' then some ([], rest)
    else if c == '\\' then do
      let (e, rest) ← escape? rest
      let (cs, rest) ← basicBody? fuel rest
      return (e :: cs, rest)
    else if isPlain c then do
      let (cs, rest) ← basicBody? fuel rest
      return (c :: cs, rest)
    else none
  | _, _ => none

/-- A string on one line, as it stands. -/
def literalBody? : List Char → Option (List Char × List Char)
  | [] => none
  | c :: rest =>
    if c == '\'' then some ([], rest)
    else if isPlain c then do
      let (cs, rest) ← literalBody? rest
      return (c :: cs, rest)
    else none

/-- The text after three quotation marks. -/
def fence? (mark : Char) : List Char → Option (List Char)
  | a :: b :: c :: rest => if a == mark && b == mark && c == mark then some rest else none
  | _ => none

/-- Up to two more quotation marks after the closing three belong to the string. -/
def closingMarks (mark : Char) (cs : List Char) : List Char × List Char :=
  let marks := (cs.take 2).takeWhile (· == mark)
  (marks, cs.drop marks.length)

/-- A string over several lines. With `escapes`, a backslash at the end of a line
joins the lines and drops the blanks between them. -/
def multilineBody? (mark : Char) (escapes : Bool) : Nat → List Char → Option (List Char × List Char)
  | 0, _ => none
  | fuel + 1, cs =>
    match fence? mark cs, newline? cs, cs with
    | some rest, _, _ => some (closingMarks mark rest)
    | none, some rest, _ => do
      let (body, rest) ← multilineBody? mark escapes fuel rest
      return ('\n' :: body, rest)
    | none, none, c :: rest =>
      if escapes && c == '\\' then
        match newline? (skipBlanks rest) with
        | some rest => multilineBody? mark escapes fuel (skipLines rest)
        | none => do
          let (e, rest) ← escape? rest
          let (body, rest) ← multilineBody? mark escapes fuel rest
          return (e :: body, rest)
      else if isPlain c then do
        let (body, rest) ← multilineBody? mark escapes fuel rest
        return (c :: body, rest)
      else none
    | none, none, [] => none

/-- A line break right after the opening marks is not part of the string. -/
def afterFence (cs : List Char) : List Char := (newline? cs).getD cs

/-- A string of any of the four kinds. -/
def string? (cs : List Char) : Option (String × List Char) := do
  let (body, rest) ←
    match fence? '"' cs, fence? '\'' cs, cs with
    | some rest, _, _ => multilineBody? '"' true (rest.length + 1) (afterFence rest)
    | none, some rest, _ => multilineBody? '\'' false (rest.length + 1) (afterFence rest)
    | none, none, '"' :: rest => basicBody? (rest.length + 1) rest
    | none, none, '\'' :: rest => literalBody? rest
    | none, none, _ => none
  return (String.ofList body, rest)

end NetBridge.Toml
