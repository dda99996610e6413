import NetBridge.Toml.Text
import NetBridge.Toml.Tree

/-! # TOML numbers and dates

The readers take the longest front of the text that has the form in question.
Integers fit 64 bits with a sign. -/
namespace NetBridge.Toml

def isDigit (base : Nat) (c : Char) : Bool := (digitValue? base c).isSome

/-- Digits, any two of which may have one underscore between them. -/
def moreDigits (base : Nat) : List Char → List Char × List Char
  | [] => ([], [])
  | '_' :: c :: rest =>
    if isDigit base c then
      let (ds, rest) := moreDigits base rest
      (c :: ds, rest)
    else ([], '_' :: c :: rest)
  | c :: rest =>
    if isDigit base c then
      let (ds, rest) := moreDigits base rest
      (c :: ds, rest)
    else ([], c :: rest)

/-- A run of digits that starts with one. -/
def digits? (base : Nat) : List Char → Option (List Char × List Char)
  | c :: rest =>
    if isDigit base c then
      let (ds, rest) := moreDigits base rest
      some (c :: ds, rest)
    else none
  | [] => none

def digitsValue (base : Nat) (ds : List Char) : Nat :=
  ds.foldl (fun n c => n * base + (digitValue? base c).getD 0) 0

/-- An optional sign; whether it is a minus. -/
def sign : List Char → Bool × List Char
  | '-' :: rest => (true, rest)
  | '+' :: rest => (false, rest)
  | cs => (false, cs)

/-- A decimal run in which a leading zero stands alone. -/
def decimal? (cs : List Char) : Option (List Char × List Char) :=
  match cs with
  | '0' :: rest => some (['0'], rest)
  | _ => digits? 10 cs

def integerOf? (negative : Bool) (n : Nat) : Option Value :=
  if negative then
    if n ≤ Nat.pow 2 63 then some (.integer (-(n : Int))) else none
  else if n < Nat.pow 2 63 then some (.integer n) else none

def based? (base : Nat) (cs : List Char) : Option (Value × List Char) := do
  let (ds, rest) ← digits? base cs
  return (← integerOf? false (digitsValue base ds), rest)

def integer? (cs : List Char) : Option (Value × List Char) :=
  match cs with
  | '0' :: 'x' :: rest => based? 16 rest
  | '0' :: 'o' :: rest => based? 8 rest
  | '0' :: 'b' :: rest => based? 2 rest
  | _ => do
    let (negative, rest) := sign cs
    let (ds, rest) ← decimal? rest
    return (← integerOf? negative (digitsValue 10 ds), rest)

/-- `mantissa · 10 ^ exponent` is nearer to `2 ^ 1024` than to any double, or
beyond. A number of `digits` digits is tested exactly near the border only. -/
def overflowsDouble (mantissa digits : Nat) (exponent : Int) : Bool :=
  let border := Nat.pow 2 1024 - Nat.pow 2 970
  let magnitude := (digits : Int) + exponent
  if mantissa == 0 || magnitude ≤ 300 then false
  else if 320 < magnitude then true
  else if 0 ≤ exponent then border ≤ mantissa * Nat.pow 10 exponent.toNat
  else border * Nat.pow 10 (-exponent).toNat ≤ mantissa

def fraction? : List Char → Option (List Char × List Char)
  | '.' :: rest => digits? 10 rest
  | _ => none

def exponent? : List Char → Option (Int × List Char)
  | c :: rest => do
    if c != 'e' && c != 'E' then none
    let (negative, rest) := sign rest
    let (ds, rest) ← digits? 10 rest
    let n : Int := digitsValue 10 ds
    return (if negative then -n else n, rest)
  | [] => none

/-- A number with a fraction or an exponent; one that is too large is refused,
unless it is negative. -/
def float? (cs : List Char) : Option (Value × List Char) := do
  let (negative, rest) := sign cs
  let (whole, rest) ← decimal? rest
  let fraction := fraction? rest
  let (part, rest) := fraction.getD ([], rest)
  let power := exponent? rest
  let (exponent, rest) := power.getD (0, rest)
  if fraction.isNone && power.isNone then none
  let ds := (whole ++ part).dropWhile (· == '0')
  if !negative && overflowsDouble (digitsValue 10 ds) ds.length (exponent - part.length) then none
  return (.float, rest)

def specialFloat? (cs : List Char) : Option (Value × List Char) :=
  match (sign cs).2 with
  | 'i' :: 'n' :: 'f' :: rest | 'n' :: 'a' :: 'n' :: rest => some (.float, rest)
  | _ => none

/-- Exactly two digits whose number lies between the bounds. -/
def twoDigits? (low high : Nat) : List Char → Option (Nat × List Char)
  | a :: b :: rest =>
    if isDigit 10 a && isDigit 10 b then
      let n := digitsValue 10 [a, b]
      if low ≤ n && n ≤ high then some (n, rest) else none
    else none
  | _ => none

def char? (c : Char) : List Char → Option (List Char)
  | d :: rest => if c == d then some rest else none
  | [] => none

def daysInMonth (year month : Nat) : Nat :=
  if month == 2 then
    if year % 4 == 0 && (year % 100 != 0 || year % 400 == 0) then 29 else 28
  else if [4, 6, 9, 11].contains month then 30
  else 31

def date? : List Char → Option (List Char)
  | a :: b :: c :: d :: rest => do
    if !([a, b, c, d].all (isDigit 10)) then none
    let rest ← char? '-' rest
    let (month, rest) ← twoDigits? 1 12 rest
    let rest ← char? '-' rest
    let (_, rest) ← twoDigits? 1 (daysInMonth (digitsValue 10 [a, b, c, d]) month) rest
    return rest
  | _ => none

/-- A fraction of a second, if there is one. -/
def skipFraction (cs : List Char) : List Char :=
  match cs with
  | '.' :: c :: rest => if isDigit 10 c then rest.dropWhile (isDigit 10) else cs
  | _ => cs

def time? (cs : List Char) : Option (List Char) := do
  let (_, rest) ← twoDigits? 0 23 cs
  let rest ← char? ':' rest
  let (_, rest) ← twoDigits? 0 59 rest
  let rest ← char? ':' rest
  let (_, rest) ← twoDigits? 0 60 rest
  return skipFraction rest

def offset? (cs : List Char) : Option (List Char) :=
  match cs with
  | 'Z' :: rest | 'z' :: rest => some rest
  | '+' :: rest | '-' :: rest => do
    let (_, rest) ← twoDigits? 0 23 rest
    let rest ← char? ':' rest
    let (_, rest) ← twoDigits? 0 59 rest
    return rest
  | _ => none

/-- The time after a date, if there is one. -/
def timeOfDay? : List Char → Option (List Char)
  | c :: rest => do
    if c != 'T' && c != 't' && c != ' ' then none
    let rest ← time? rest
    return (offset? rest).getD rest
  | [] => none

def datetime? (cs : List Char) : Option (Value × List Char) :=
  match date? cs with
  | some rest => some (.datetime, (timeOfDay? rest).getD rest)
  | none => (time? cs).map (.datetime, ·)

/-- What starts with a digit or a sign. -/
def number? (cs : List Char) : Option (Value × List Char) :=
  datetime? cs <|> float? cs <|> specialFloat? cs <|> integer? cs

end NetBridge.Toml
