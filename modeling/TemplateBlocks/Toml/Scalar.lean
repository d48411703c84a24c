import TemplateBlocks.Toml.Quoted
import TemplateBlocks.Toml.Value

/-!
# TOML numbers, dates and truth values

Integers have 64 bits with sign and may be written in four bases. Floats are binary floats
of 64 bits; one beyond their range is refused. Dates and times are read for their shape and
their ranges.
-/

namespace TemplateBlocks.Toml

/-! ### Digits -/

def digit? (base : Nat) (c : Char) : Option Nat := (hexDigit? c).filter (· < base)

/-- Reads more digits, each of which may have an underscore before it. -/
def moreDigits (base : Nat) : Text → List Nat × Text
  | '_' :: c :: s =>
    match digit? base c with
    | some d =>
      let (ds, rest) := moreDigits base s
      (d :: ds, rest)
    | none => ([], '_' :: c :: s)
  | c :: s =>
    match digit? base c with
    | some d =>
      let (ds, rest) := moreDigits base s
      (d :: ds, rest)
    | none => ([], c :: s)
  | [] => ([], [])

def digits (base : Nat) : Matcher (List Nat)
  | [] => none
  | c :: s => do
    let d ← digit? base c
    let (ds, rest) := moreDigits base s
    return (d :: ds, rest)

def numeral (base : Nat) (ds : List Nat) : Nat := ds.foldl (fun n d => base * n + d) 0

def sign : Text → Bool × Text
  | '-' :: s => (true, s)
  | '+' :: s => (false, s)
  | s => (false, s)

def decimal : Matcher (List Nat)
  | '0' :: s => some ([0], s)
  | s => digits 10 s

/-! ### Integers -/

def prefixed : Matcher Int := fun s => do
  let (base, s) ← [(16, "0x"), (8, "0o"), (2, "0b")].findSome? fun (base, mark) =>
    (s.after? mark.toList).map (base, ·)
  let (ds, rest) ← digits base s
  return (numeral base ds, rest)

def plain : Matcher Int := fun s => do
  let (negative, s) := sign s
  let (ds, rest) ← decimal s
  let n := numeral 10 ds
  return (if negative then -n else n, rest)

def integerBound : Int := 0x8000000000000000

def integer : Matcher Value := fun s => do
  let (n, rest) ← prefixed s <|> plain s
  if -integerBound ≤ n ∧ n < integerBound then return (.integer n, rest) else none

/-! ### Floats -/

/-- Whether the digits times a power of ten round to a value beyond the binary floats of 64 bits.
The least such value lies halfway between the greatest float and the next power of two. -/
def overflows (ds : List Nat) (exponent : Int) : Bool :=
  let ds := ds.dropWhile (· == 0)
  let leading := ds.length + exponent
  if ds.isEmpty || leading ≤ 308 then false
  else if 310 ≤ leading then true
  else
    let bound := Nat.pow 2 1024 - Nat.pow 2 970
    if 0 ≤ exponent then bound ≤ numeral 10 ds * Nat.pow 10 exponent.toNat
    else bound * Nat.pow 10 (-exponent).toNat ≤ numeral 10 ds

def exponent : Matcher Int
  | [] => none
  | c :: s => do
    guard (c == 'e' || c == 'E')
    let (negative, s) := sign s
    let (ds, rest) ← digits 10 s
    let n := numeral 10 ds
    return (if negative then -n else n, rest)

def fraction : Matcher (List Nat) := fun s => s.after? ".".toList >>= digits 10

def finiteFloat : Matcher Value := fun s => do
  let (negative, s) := sign s
  let (whole, s) ← decimal s
  let (frac, power, rest) ← match fraction s with
    | some (frac, s) =>
      match exponent s with
      | some (power, rest) => some (frac, power, rest)
      | none => some (frac, 0, s)
    | none => (exponent s).map fun (power, rest) => ([], power, rest)
  guard (negative || !overflows (whole ++ frac) (power - frac.length))
  return (.float, rest)

def specialFloat : Matcher Value := fun s => do
  let s := (sign s).2
  let rest ← ["inf", "nan"].findSome? fun w => Text.after? s w.toList
  return (.float, rest)

/-! ### Dates and times -/

def fixed (n low high : Nat) : Matcher Nat := fun s => do
  let ds ← (s.take n).mapM (digit? 10)
  let value := numeral 10 ds
  guard (ds.length = n ∧ low ≤ value ∧ value ≤ high)
  return (value, s.drop n)

def daysIn (year month : Nat) : Nat :=
  let leap := year % 4 = 0 ∧ (year % 100 ≠ 0 ∨ year % 400 = 0)
  if month = 2 then (if leap then 29 else 28)
  else if month = 4 ∨ month = 6 ∨ month = 9 ∨ month = 11 then 30
  else 31

def afterDate? (s : Text) : Option Text := do
  let (year, s) ← fixed 4 0 9999 s
  let (month, s) ← s.after? "-".toList >>= fixed 2 1 12
  let (_, s) ← s.after? "-".toList >>= fixed 2 1 (daysIn year month)
  return s

def afterTime? (s : Text) : Option Text := do
  let (_, s) ← fixed 2 0 23 s
  let (_, s) ← s.after? ":".toList >>= fixed 2 0 59
  let (_, s) ← s.after? ":".toList >>= fixed 2 0 60
  match s.after? ".".toList >>= Text.run1? Char.isDigit with
  | some (_, rest) => return rest
  | none => return s

def afterOffset? : Text → Option Text
  | 'Z' :: s => some s
  | 'z' :: s => some s
  | c :: s => do
    guard (c == '+' || c == '-')
    let (_, s) ← fixed 2 0 23 s
    let (_, s) ← s.after? ":".toList >>= fixed 2 0 59
    return s
  | [] => none

def afterDayTime? : Text → Option Text
  | [] => none
  | c :: s => do
    guard (c == 'T' || c == 't' || c == ' ')
    let s ← afterTime? s
    return (afterOffset? s).getD s

def date : Matcher Value := fun s =>
  match afterDate? s with
  | some s => some (.date, (afterDayTime? s).getD s)
  | none => (afterTime? s).map (.date, ·)

/-! ### All of them -/

def truth : Matcher Value := fun s =>
  match s.after? "true".toList with
  | some rest => some (.boolean true, rest)
  | none => (s.after? "false".toList).map (.boolean false, ·)

def scalar : Matcher Value := fun s =>
  ((quoted s).map fun (t, rest) => (.string t, rest)) <|> truth s <|> date s <|>
    finiteFloat s <|> specialFloat s <|> integer s

end TemplateBlocks.Toml
