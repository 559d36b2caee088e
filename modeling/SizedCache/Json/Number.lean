import SizedCache.Json.Basic

/-!
# Numbers in JSON

Only natural numbers below 2^64, written without fraction and exponent, are of
use; every other number is told apart as such. A number of another form is still
refused as malformed if it is too large for binary64.
-/

namespace SizedCache.Json

structure Numeral where
  whole : List Nat
  fraction : Option (List Nat)
  /-- Whether the exponent is negative, and its digits. -/
  exponent : Option (Bool × List Nat)

inductive Number where
  | natural (n : UInt64)
  | other

def digits (bs : Bytes) : List Nat × Bytes :=
  ((bs.takeWhile isDigit).map digitValue, bs.dropWhile isDigit)

def someDigits (bs : Bytes) : Read (List Nat) :=
  match digits bs with
  | ([], []) => .error .truncated
  | ([], _ :: _) => .error .malformed
  | r => .ok r

/-- A leading zero stands alone. -/
def wholePart (bs : Bytes) : Read (List Nat) :=
  match someDigits bs with
  | .ok (0 :: _ :: _, _) => .error .malformed
  | r => r

def fractionPart (bs : Bytes) : Read (Option (List Nat)) :=
  match bs with
  | b :: rest =>
    if b = '.'.toUInt8 then (someDigits rest).map fun (ds, rest) => (some ds, rest)
    else .ok (none, bs)
  | [] => .ok (none, bs)

def exponentSign (bs : Bytes) : Bool × Bytes :=
  match bs with
  | b :: rest =>
    if b = '-'.toUInt8 then (true, rest)
    else if b = '+'.toUInt8 then (false, rest)
    else (false, bs)
  | [] => (false, bs)

def exponentPart (bs : Bytes) : Read (Option (Bool × List Nat)) :=
  match bs with
  | b :: rest =>
    if b = 'e'.toUInt8 || b = 'E'.toUInt8 then
      let (negative, rest) := exponentSign rest
      (someDigits rest).map fun (ds, rest) => (some (negative, ds), rest)
    else .ok (none, bs)
  | [] => .ok (none, bs)

def numeral (bs : Bytes) : Except Fault (Numeral × Bytes) := do
  let (whole, bs) ← wholePart bs
  let (fraction, bs) ← fractionPart bs
  let (exponent, bs) ← exponentPart bs
  return (⟨whole, fraction, exponent⟩, bs)

def ofDigits (ds : List Nat) : Nat := ds.foldl (fun n d => 10 * n + d) 0

-- ---------------------------------------------------------------------------
-- The range of binary64
-- ---------------------------------------------------------------------------

/-- Takes in digits while the significand stays below 2^64: the significand, and
how many digits are left over. -/
def takeDigits (significand : Nat) : List Nat → Nat × Nat
  | [] => (significand, 0)
  | d :: ds =>
    if 10 * significand + d < UInt64.size then takeDigits (10 * significand + d) ds
    else (significand, ds.length + 1)

/-- Rounds to 53 significant bits, ties to even. -/
def roundBits (n : Nat) : Nat :=
  let unit := Nat.pow 2 (n.log2 - 52)
  let q := n / unit
  let r := n % unit
  unit * (if unit < 2 * r ∨ 2 * r = unit ∧ q % 2 = 1 then q + 1 else q)

def overflows (significand exponent : Nat) : Bool :=
  0 < significand &&
    (308 < exponent ||
      Nat.pow 2 1024 - Nat.pow 2 970 ≤
        roundBits significand * roundBits (Nat.pow 10 exponent))

def Numeral.tooLarge (n : Numeral) : Bool :=
  let (significand, dropped) := takeDigits 0 n.whole
  let fraction := n.fraction.getD []
  let (significand, left) := takeDigits significand fraction
  let shift : Int := dropped - (fraction.length - left : Nat)
  let exponent : Int :=
    match n.exponent with
    | some (negative, ds) => if negative then shift - ofDigits ds else shift + ofDigits ds
    | none => shift
  0 ≤ exponent && overflows significand exponent.toNat

def Numeral.natural? (n : Numeral) : Option UInt64 :=
  if n.fraction.isNone && n.exponent.isNone && ofDigits n.whole < UInt64.size then
    some (UInt64.ofNat (ofDigits n.whole))
  else none

def number (bs : Bytes) : Except Fault (Number × Bytes) := do
  let negative := bs.head? == some '-'.toUInt8
  let (n, rest) ← numeral (if negative then bs.tail else bs)
  match n.natural? with
  | some k => return (if negative then .other else .natural k, rest)
  | none => if n.tooLarge then throw .malformed else return (.other, rest)

/-- Passes over a number from its first digit on, of any size. A number that ends
too early counts as malformed. -/
def skipNumber (bs : Bytes) : Except Fault Bytes :=
  match numeral bs with
  | .ok (_, rest) => .ok rest
  | .error _ => .error .malformed

end SizedCache.Json
