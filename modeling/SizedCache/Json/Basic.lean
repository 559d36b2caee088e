/-!
# Reading JSON

Readers take the bytes that are left and give back what they read with the bytes
after it. They stop at the first fault, and tell a text that breaks the grammar
from one that ends too early and from one that is not of the shape asked for.
-/

namespace SizedCache.Json

inductive Fault where
  | malformed
  | truncated
  /-- Good JSON so far, but of another shape. -/
  | unsuitable
deriving DecidableEq, Repr

abbrev Bytes := List UInt8

abbrev Read (α : Type) := Except Fault (α × Bytes)

def isBlank (b : UInt8) : Bool := b = 0x20 || b = 0x0a || b = 0x0d || b = 0x09

def isDigit (b : UInt8) : Bool := 0x30 ≤ b && b ≤ 0x39

def digitValue (b : UInt8) : Nat := b.toNat - 0x30

def skipBlanks (bs : Bytes) : Bytes := bs.dropWhile isBlank

def literal : List Char → Bytes → Except Fault Bytes
  | [], bs => .ok bs
  | _ :: _, [] => .error .truncated
  | c :: cs, b :: bs => if b = c.toUInt8 then literal cs bs else .error .malformed

def colon (bs : Bytes) : Except Fault Bytes := literal [':'] (skipBlanks bs)

/-- The bytes from the next element of a list on, or `none` at its end. -/
def nextElement (first : Bool) (bs : Bytes) : Except Fault (Option Bytes) :=
  match skipBlanks bs with
  | [] => .error .truncated
  | b :: rest =>
    if b = ']'.toUInt8 then .ok none
    else if first then .ok (some (b :: rest))
    else if b = ','.toUInt8 then
      match skipBlanks rest with
      | [] => .error .truncated
      | c :: rest => if c = ']'.toUInt8 then .error .malformed else .ok (some (c :: rest))
    else .error .malformed

def closeList (bs : Bytes) : Except Fault Bytes := literal [']'] (skipBlanks bs)

/-- The bytes after the quote that opens the name of the next member, or `none`
at the end of the object. -/
def nextMember (first : Bool) (bs : Bytes) : Except Fault (Option Bytes) :=
  match skipBlanks bs with
  | [] => .error .truncated
  | b :: rest =>
    if b = '\x7d'.toUInt8 then .ok none
    else if first then (literal ['"'] (b :: rest)).map some
    else if b = ','.toUInt8 then (literal ['"'] (skipBlanks rest)).map some
    else .error .malformed

def closeObject (bs : Bytes) : Except Fault Bytes := literal ['\x7d'] (skipBlanks bs)

end SizedCache.Json
