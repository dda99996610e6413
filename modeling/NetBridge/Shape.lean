/-! # Words, shapes and ports

Every value a signal carries fits a 64-bit word. A signal narrower than a word uses its
lowest bits; its shape is the width in bits and whether its values are read as two's
complement numbers. The ports of a module are its inputs and its outputs. An instance names
them by labels: the letter of the direction, an underscore and the name of the port. -/
namespace NetBridge

/-- A value carried by a signal. -/
abbrev Word := BitVec 64

namespace Word

/-- The word whose lowest `n` bits are ones; every bit is one from 64 on. -/
def ones (n : Nat) : Word := BitVec.ofNat 64 (Nat.pow 2 (min n 64) - 1)

/-- Lower-case hexadecimal digits, without leading zeros. -/
def hex (w : Word) : String := String.ofList (Nat.toDigits 16 w.toNat)

end Word

structure Shape where
  width : Nat
  signed : Bool
deriving DecidableEq, Inhabited

namespace Shape

def unsignedBits (width : Nat) : Shape := ⟨width, false⟩

def signedBits (width : Nat) : Shape := ⟨width, true⟩

/-- Clocks, resets and enables are single unsigned bits. -/
def bit : Shape := unsignedBits 1

/-- The all-ones word of this shape. -/
def mask (s : Shape) : Word := Word.ones s.width

/-- The part of a word that a signal of this shape keeps. -/
def truncate (s : Shape) (w : Word) : Word := w &&& s.mask

def text (s : Shape) : String :=
  if s.signed then s!"signed({s.width})" else s!"unsigned({s.width})"

end Shape

/-- Seen from the module that has the port. -/
inductive PortDirection where
  | input
  | output
deriving DecidableEq

namespace PortDirection

def letter : PortDirection → String
  | input => "i"
  | output => "o"

def text : PortDirection → String
  | input => "Input"
  | output => "Output"

def ofText? (s : String) : Option PortDirection := [input, output].find? (·.text == s)

def label (d : PortDirection) (name : String) : String := s!"{d.letter}_{name}"

/-- The direction and the name that a label is made of. -/
def parseLabel (label : String) : Option (PortDirection × String) :=
  match label.toList with
  | 'i' :: '_' :: name => some (input, String.ofList name)
  | 'o' :: '_' :: name => some (output, String.ofList name)
  | _ => none

end PortDirection

end NetBridge
