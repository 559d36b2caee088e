import SizedCache.Json.Basic

/-!
# Strings in JSON

A string is read byte by byte, up to the closing quote, by a machine whose states
are the places inside an escape. Read strictly, escaped surrogates must form
pairs and the bytes must be UTF-8; a string that is skipped need not.
-/

namespace SizedCache.Json

inductive Place where
  | plain
  | escape
  /-- In the four digits of an escape, the second of a pair if `high` is there. -/
  | hex (high : Option Nat) (digits : List UInt8)
  /-- After a high surrogate: a second escape must follow. -/
  | pair (high : Nat)
  | pairEscape (high : Nat)

def hexDigit? (b : UInt8) : Option Nat :=
  if isDigit b then some (digitValue b)
  else if 0x41 ≤ b && b ≤ 0x46 then some (b.toNat - 0x41 + 10)
  else if 0x61 ≤ b && b ≤ 0x66 then some (b.toNat - 0x61 + 10)
  else none

def hexValue? (digits : List UInt8) : Option Nat :=
  digits.foldl (fun n? b => n?.bind fun n => (hexDigit? b).map (16 * n + ·)) (some 0)

def isHigh (n : Nat) : Bool := 0xd800 ≤ n && n ≤ 0xdbff

def isLow (n : Nat) : Bool := 0xdc00 ≤ n && n ≤ 0xdfff

def encoded (n : Nat) : List UInt8 := String.utf8EncodeChar (Char.ofNat n)

def escaped? (b : UInt8) : Option UInt8 :=
  if b = '"'.toUInt8 || b = '\\'.toUInt8 || b = '/'.toUInt8 then some b
  else if b = 'b'.toUInt8 then some 0x08
  else if b = 'f'.toUInt8 then some 0x0c
  else if b = 'n'.toUInt8 then some 0x0a
  else if b = 'r'.toUInt8 then some 0x0d
  else if b = 't'.toUInt8 then some 0x09
  else none

def afterUnit (strict : Bool) (high : Option Nat) (n : Nat) :
    Except Fault (Place × List UInt8) :=
  if !strict then .ok (.plain, [])
  else
    match high with
    | some h =>
      if isLow n then .ok (.plain, encoded (0x10000 + (h - 0xd800) * 0x400 + (n - 0xdc00)))
      else .error .malformed
    | none =>
      if isLow n then .error .malformed
      else if isHigh n then .ok (.pair n, [])
      else .ok (.plain, encoded n)

def Place.step (strict : Bool) (b : UInt8) : Place → Except Fault (Place × List UInt8)
  | .plain =>
    if b = '\\'.toUInt8 then .ok (.escape, [])
    else if b < 0x20 then .error .malformed
    else .ok (.plain, [b])
  | .escape =>
    if b = 'u'.toUInt8 then .ok (.hex none [], [])
    else
      match escaped? b with
      | some c => .ok (.plain, [c])
      | none => .error .malformed
  | .hex high digits =>
    let digits := digits ++ [b]
    if digits.length < 4 then .ok (.hex high digits, [])
    else
      match hexValue? digits with
      | some n => afterUnit strict high n
      | none => .error .malformed
  | .pair high =>
    if b = '\\'.toUInt8 then .ok (.pairEscape high, []) else .error .malformed
  | .pairEscape high =>
    if b = 'u'.toUInt8 then .ok (.hex (some high) [], []) else .error .malformed

/-- Reads on from `place` to the closing quote; `done` holds the bytes of the
string so far, last first. -/
def textFrom (strict : Bool) : Place → List UInt8 → Bytes → Read (List UInt8)
  | _, _, [] => .error .truncated
  | place, done, b :: bs =>
    match place, decide (b = '"'.toUInt8) with
    | .plain, true => .ok (done.reverse, bs)
    | place, _ =>
      match place.step strict b with
      | .ok (place, added) => textFrom strict place (added.reverse ++ done) bs
      | .error e => .error e

def text (bs : Bytes) : Read String :=
  match textFrom true .plain [] bs with
  | .ok (utf8, rest) =>
    match String.fromUTF8? utf8.toByteArray with
    | some s => .ok (s, rest)
    | none => .error .malformed
  | .error e => .error e

def skipText (bs : Bytes) : Except Fault Bytes :=
  (textFrom false .plain [] bs).map (·.2)

end SizedCache.Json
