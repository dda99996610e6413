import NetBridge.Proofs.Verilog.Identifier
import NetBridge.Verilog.Module

/-! # Reading Verilog

A reader for the part of Verilog that the printer writes, in its layout. It works on the
characters that are left. -/
namespace NetBridge.Verilog

namespace Reader

abbrev Read (α : Type) := List Char → Option (α × List Char)

def strip : List Char → List Char → Option (List Char)
  | [], cs => some cs
  | _ :: _, [] => none
  | t :: ts, c :: cs => if t = c then strip ts cs else none

/-- Passes over a fixed text. -/
def expect (text : String) (cs : List Char) : Option (List Char) := strip text.toList cs

def word (cs : List Char) : String × List Char :=
  (String.ofList (cs.takeWhile isNameChar), cs.dropWhile isNameChar)

def name : Read String := fun cs =>
  let (w, cs) := word cs
  if isName w then some (w, cs) else none

/-- The name of a module, which nobody cleaned. -/
def identifier : Read String := fun cs =>
  let w := String.ofList (cs.takeWhile isIdentifierChar)
  if isIdentifier w then some (w, cs.dropWhile isIdentifierChar) else none

def isHexDigit (c : Char) : Bool := c.isDigit || ['a', 'b', 'c', 'd', 'e', 'f'].contains c

def digitValue (c : Char) : Nat := if c.isDigit then c.toNat - 48 else c.toNat - 87

def value (base : Nat) (digits : List Char) : Nat :=
  digits.foldl (fun n c => base * n + digitValue c) 0

def number (base : Nat) (isDigit : Char → Bool) : Read Nat := fun cs =>
  match cs.takeWhile isDigit with
  | [] => none
  | digits => some (value base digits, cs.dropWhile isDigit)

def literal : Read (Word × Shape) := fun cs => do
  let (width, cs) ← number 10 Char.isDigit cs
  let cs ← expect "'" cs
  let (signed, cs) := match expect "s" cs with
    | some cs => (true, cs)
    | none => (false, cs)
  let cs ← expect "h" cs
  let (value, cs) ← number 16 isHexDigit cs
  return ((BitVec.ofNat 64 value, ⟨width, signed⟩), cs)

/-- The first of the alternatives whose text is next. -/
def oneOf {α : Type} (text : α → String) (alternatives : List α) : Read α := fun cs =>
  alternatives.findSome? fun a => (expect (text a) cs).map (a, ·)

def unaryOp : Read UnaryOp := oneOf UnaryOp.token [.not, .neg]

def binaryOp : Read BinaryOp := oneOf (fun op => " " ++ op.token ++ " ") BinaryOp.all

/-- A name, or bits that are selected from it. -/
def selection : Read Expr := fun cs => do
  let (base, cs) ← name cs
  match expect "[" cs with
  | none => return (.name base, cs)
  | some cs => do
    let (high, cs) ← number 10 Char.isDigit cs
    match expect ":" cs with
    | none => return (.bitSelect base high, ← expect "]" cs)
    | some cs => do
      let (low, cs) ← number 10 Char.isDigit cs
      return (.partSelect base high low, ← expect "]" cs)

mutual

def expr : Nat → Read Expr
  | 0 => fun _ => none
  | n + 1 => fun cs =>
    match expect "(" cs with
    | some cs =>
      match unaryOp cs with
      | some (op, cs) => do
        let (e, cs) ← expr n cs
        return (.unary op e, ← expect ")" cs)
      | none => do
        let (l, cs) ← expr n cs
        match expect " ? " cs with
        | some cs => do
          let (t, cs) ← expr n cs
          let cs ← expect " : " cs
          let (f, cs) ← expr n cs
          return (.conditional l t f, ← expect ")" cs)
        | none => do
          let (op, cs) ← binaryOp cs
          let (r, cs) ← expr n cs
          return (.binary op l r, ← expect ")" cs)
    | none =>
      match expect "\x7b" cs with
      | some cs =>
        match expect "\x7d" cs with
        | some cs => some (.concat [], cs)
        | none => do
          let (parts, cs) ← exprs n cs
          return (.concat parts, ← expect "\x7d" cs)
      | none =>
        match literal cs with
        | some ((value, shape), cs) => some (.literal value shape, cs)
        | none => selection cs

def exprs : Nat → Read (List Expr)
  | 0 => fun _ => none
  | n + 1 => fun cs => do
    let (e, cs) ← expr n cs
    match expect ", " cs with
    | none => return ([e], cs)
    | some cs => do
      let (rest, cs) ← exprs n cs
      return (e :: rest, cs)

end

/-- As many as there are. -/
def many {α : Type} (item : Read α) : Nat → List Char → List α × List Char
  | 0, cs => ([], cs)
  | n + 1, cs =>
    match item cs with
    | none => ([], cs)
    | some (a, cs) =>
      let (rest, cs) := many item n cs
      (a :: rest, cs)

def signedness (cs : List Char) : Bool × List Char :=
  match expect "signed " cs with
  | some cs => (true, cs)
  | none => (false, cs)

/-- The width of a vector; a scalar has no range. -/
def range : Read Nat := fun cs =>
  match expect "[" cs with
  | none => some (1, cs)
  | some cs => do
    let (high, cs) ← number 10 Char.isDigit cs
    return (high + 1, ← expect ":0] " cs)

/-- The shape and the name in a declaration. -/
def declared : Read (Shape × String) := fun cs => do
  let cs ← expect " " cs
  let (signed, cs) := signedness cs
  let (width, cs) ← range cs
  let (n, cs) ← name cs
  return ((⟨width, signed⟩, n), cs)

inductive Item where
  | port (p : Port)
  | net (n : Net)
  | assign (a : Assign)
  | process (p : AlwaysBlock)

def update : Read Assign := fun cs => do
  let cs ← expect "    " cs
  let (target, cs) ← name cs
  let cs ← expect " <= " cs
  let (value, cs) ← expr (cs.length + 1) cs
  return (⟨target, value⟩, ← expect ";\n" cs)

def reset : Read Reset := fun cs => do
  let cs ← expect "      " cs
  let (target, cs) ← name cs
  let cs ← expect " <= " cs
  let ((value, shape), cs) ← literal cs
  return (⟨target, value, shape⟩, ← expect ";\n" cs)

def process : Read AlwaysBlock := fun cs => do
  let cs ← expect " @(posedge " cs
  let (clk, cs) ← name cs
  let cs ← expect ") begin\n" cs
  let (updates, cs) := many update cs.length cs
  let cs ← expect "    if (" cs
  let (rst, cs) ← name cs
  let cs ← expect ") begin\n" cs
  let (resets, cs) := many reset cs.length cs
  let cs ← expect "    end\n  end\n" cs
  return (⟨clk, updates, rst, resets⟩, cs)

def port (direction : PortDirection) : Read Port := fun cs => do
  let ((shape, n), cs) ← declared cs
  return (⟨direction, shape, n⟩, ← expect ";\n" cs)

def wire : Read Net := fun cs => do
  let ((shape, n), cs) ← declared cs
  return (.wire shape n, ← expect ";\n" cs)

def reg : Read Net := fun cs => do
  let ((shape, n), cs) ← declared cs
  let cs ← expect " = " cs
  let ((value, _), cs) ← literal cs
  return (.reg shape n value, ← expect ";\n" cs)

def assign : Read Assign := fun cs => do
  let cs ← expect " " cs
  let (target, cs) ← name cs
  let cs ← expect " = " cs
  let (value, cs) ← expr (cs.length + 1) cs
  return (⟨target, value⟩, ← expect ";\n" cs)

def item : Read Item := fun cs => do
  let cs ← expect "  " cs
  match word cs with
  | ("input", cs) => do let (p, cs) ← port .input cs; return (.port p, cs)
  | ("output", cs) => do let (p, cs) ← port .output cs; return (.port p, cs)
  | ("wire", cs) => do let (n, cs) ← wire cs; return (.net n, cs)
  | ("reg", cs) => do let (n, cs) ← reg cs; return (.net n, cs)
  | ("assign", cs) => do let (a, cs) ← assign cs; return (.assign a, cs)
  | ("always", cs) => do let (p, cs) ← process cs; return (.process p, cs)
  | _ => none

def names (cs : List Char) : List String × List Char :=
  match name cs with
  | none => ([], cs)
  | some (n, cs) =>
    let (rest, cs) := many (fun cs => do name (← expect ", " cs)) cs.length cs
    (n :: rest, cs)

/-- The parts of a module may come in any order. -/
def ofItems (n : String) (items : List Item) : Module where
  name := n
  ports := items.filterMap fun | .port p => some p | _ => none
  nets := items.filterMap fun | .net n => some n | _ => none
  assigns := items.filterMap fun | .assign a => some a | _ => none
  processes := items.filterMap fun | .process p => some p | _ => none

end Reader

open Reader in
/-- The module that a text describes. The header lists the ports that are declared. -/
def read (text : String) : Option Module := do
  let cs ← expect "/* Generated by weld */\n\n" text.toList
  let cs ← expect "module " cs
  let (n, cs) ← identifier cs
  let cs ← expect "(" cs
  let (ports, cs) := names cs
  let cs ← expect ");\n" cs
  let (items, cs) := many item cs.length cs
  let cs ← expect "endmodule\n" cs
  let m := ofItems n items
  if cs.isEmpty ∧ m.ports.map (·.name) = ports then return m else none

end NetBridge.Verilog
