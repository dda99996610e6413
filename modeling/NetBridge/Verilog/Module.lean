import NetBridge.Operator
import NetBridge.Shape

/-! # Verilog modules

The part of Verilog-2001 that the generator writes: ports, nets, continuous assignments, and
one process for each clock, and their text. Preferred names become legal identifiers, each
different from the ones before. -/
namespace NetBridge.Verilog

def keywords : List String :=
  ["always", "assign", "begin", "case", "else", "end", "endmodule", "if", "initial", "inout",
    "input", "integer", "module", "negedge", "output", "posedge", "reg", "signed", "wire"]

def isNameChar (c : Char) : Bool := c.isAlphanum || c == '_'

/-- Illegal characters become underscores, and an underscore goes before a digit
at the front. -/
def cleanChars (preferred : String) : List Char :=
  match preferred.toList.map fun c => if isNameChar c then c else '_' with
  | [] => ['_']
  | c :: rest => if c.isDigit then '_' :: c :: rest else c :: rest

def legalName (preferred : String) : String :=
  let name := String.ofList (cleanChars preferred)
  if keywords.contains name then name ++ "_" else name

/-- The first of `base_n`, `base_n+1`, … that is not taken; one of the first
`fuel` must be. -/
def freshSuffix (taken : List String) (base : String) : Nat → Nat → String
  | 0, n => s!"{base}_{n}"
  | fuel + 1, n =>
    let candidate := s!"{base}_{n}"
    if taken.contains candidate then freshSuffix taken base fuel (n + 1) else candidate

/-- A legal name that is not taken. As many numbers as there are taken names are
enough to find one. -/
def freshName (taken : List String) (preferred : String) : String :=
  let base := legalName preferred
  if taken.contains base then freshSuffix taken base taken.length 1 else base

inductive Expr where
  | name (name : String)
  | literal (value : Word) (shape : Shape)
  | unary (op : UnaryOp) (operand : Expr)
  | binary (op : BinaryOp) (left right : Expr)
  | bitSelect (base : String) (index : Nat)
  | partSelect (base : String) (high low : Nat)
  /-- The first part holds the highest bits. -/
  | concat (parts : List Expr)
  | conditional (condition whenTrue whenFalse : Expr)

namespace Expr

instance : Inhabited Expr := ⟨name ""⟩

end Expr

structure Port where
  direction : PortDirection
  shape : Shape
  name : String

inductive Net where
  | wire (shape : Shape) (name : String)
  /-- A register and its value at power-up. -/
  | reg (shape : Shape) (name : String) (value : Word)

structure Assign where
  target : String
  value : Expr

/-- A register and the value that a reset gives it. -/
structure Reset where
  target : String
  value : Word
  shape : Shape

/-- On every rising edge of `clk` the updates are carried out in order, and then
the resets if `rst` is set. The last value given to a register counts. -/
structure AlwaysBlock where
  clk : String
  updates : List Assign
  rst : String
  resets : List Reset

structure Module where
  name : String
  ports : List Port
  nets : List Net
  assigns : List Assign
  processes : List AlwaysBlock

def literalText (value : Word) (shape : Shape) : String :=
  toString shape.width ++ (if shape.signed then "'sh" else "'h") ++ Word.hex (shape.truncate value)

namespace Expr

mutual

def text : Expr → String
  | name n => n
  | literal value shape => literalText value shape
  | unary op operand => "(" ++ op.token ++ text operand ++ ")"
  | binary op left right => "(" ++ text left ++ " " ++ op.token ++ " " ++ text right ++ ")"
  | bitSelect base index => s!"{base}[{index}]"
  | partSelect base high low => s!"{base}[{high}:{low}]"
  | concat parts => "\x7b" ++ partsText parts ++ "\x7d"
  | conditional condition whenTrue whenFalse =>
    "(" ++ text condition ++ " ? " ++ text whenTrue ++ " : " ++ text whenFalse ++ ")"

def partsText : List Expr → String
  | [] => ""
  | [e] => text e
  | e :: rest => text e ++ ", " ++ partsText rest

end

end Expr

/-- A declaration without its end: the kind, the range of a vector and the name. -/
def declaration (kind : String) (shape : Shape) (name : String) : String :=
  "  " ++ kind ++ " " ++ (if shape.signed then "signed " else "") ++
    (if 1 < shape.width then s!"[{shape.width - 1}:0] " else "") ++ name

def PortDirection.keyword : PortDirection → String
  | .input => "input"
  | .output => "output"

def Port.text (p : Port) : String :=
  declaration (PortDirection.keyword p.direction) p.shape p.name ++ ";\n"

def Net.text : Net → String
  | wire shape name => declaration "wire" shape name ++ ";\n"
  | reg shape name value =>
    declaration "reg" shape name ++ " = " ++ literalText value shape ++ ";\n"

def Assign.text (a : Assign) : String := s!"  assign {a.target} = {a.value.text};\n"

def AlwaysBlock.text (p : AlwaysBlock) : String :=
  s!"  always @(posedge {p.clk}) begin\n" ++
    String.join (p.updates.map fun u => s!"    {u.target} <= {u.value.text};\n") ++
    s!"    if ({p.rst}) begin\n" ++
    String.join (p.resets.map fun r =>
      "      " ++ r.target ++ " <= " ++ literalText r.value r.shape ++ ";\n") ++
    "    end\n  end\n"

def Module.text (m : Module) : String :=
  "/* Generated by weld */\n\n" ++
    "module " ++ m.name ++ "(" ++ ", ".intercalate (m.ports.map (·.name)) ++ ");\n" ++
    String.join (m.ports.map Port.text) ++
    String.join (m.nets.map Net.text) ++
    String.join (m.assigns.map Assign.text) ++
    String.join (m.processes.map AlwaysBlock.text) ++
    "endmodule\n"

end NetBridge.Verilog
