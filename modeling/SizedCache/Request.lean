import SizedCache.Json.Skip

/-!
# Requests to store a value

A request is a JSON object with the members `key`, `value` and, if wanted,
`ttl`, or a list of the three in that order. Other members are passed over; a
known one must not come twice.
-/

namespace SizedCache

open Json (Bytes)

structure SetRequest where
  key : String
  value : String
  /-- Seconds to live. -/
  ttl : Option UInt64
deriving DecidableEq, Repr

namespace SetRequest

-- ---------------------------------------------------------------------------
-- Limits
-- ---------------------------------------------------------------------------

def maxKeyBytes : Nat := 256

def maxValueBytes : Nat := 1024 * 1024

inductive Fault where
  | emptyKey
  | longKey
  | largeValue
deriving DecidableEq, Repr

def Fault.message : Fault → String
  | .emptyKey => "Key cannot be empty"
  | .longKey => "Key exceeds maximum length of " ++ toString maxKeyBytes ++ " bytes"
  | .largeValue => "Value exceeds maximum size of " ++ toString maxValueBytes ++ " bytes"

def fault? (r : SetRequest) : Option Fault :=
  if r.key.isEmpty then some .emptyKey
  else if maxKeyBytes < r.key.utf8ByteSize then some .longKey
  else if maxValueBytes < r.value.utf8ByteSize then some .largeValue
  else none

-- ---------------------------------------------------------------------------
-- Reading
-- ---------------------------------------------------------------------------

structure Partial where
  key : Option String := none
  value : Option String := none
  ttl : Option (Option UInt64) := none

/-- A missing `ttl` is no `ttl`. -/
def Partial.complete (p : Partial) : Except Json.Fault SetRequest :=
  match p.key, p.value with
  | some key, some value => .ok ⟨key, value, p.ttl.getD none⟩
  | _, _ => .error .unsuitable

def Partial.member (p : Partial) (name : String) (bs : Bytes) :
    Except Json.Fault (Partial × Bytes) :=
  match name with
  | "key" =>
    if p.key.isSome then .error .unsuitable
    else do
      let (key, bs) ← Json.string (← Json.colon bs)
      return ({ p with key }, bs)
  | "value" =>
    if p.value.isSome then .error .unsuitable
    else do
      let (value, bs) ← Json.string (← Json.colon bs)
      return ({ p with value }, bs)
  | "ttl" =>
    if p.ttl.isSome then .error .unsuitable
    else do
      let (ttl, bs) ← Json.natural? (← Json.colon bs)
      return ({ p with ttl }, bs)
  | _ => do return (p, ← Json.skip (← Json.colon bs))

/-- The members up to the end of the object. `fuel` bounds their number. -/
def members : Nat → Bool → Partial → Bytes → Except Json.Fault (Partial × Bytes)
  | 0, _, _, _ => .error .truncated
  | fuel + 1, first, p, bs => do
    match ← Json.nextMember first bs with
    | none => return (p, ← Json.closeObject bs)
    | some bs =>
      let (name, bs) ← Json.text bs
      let (p, bs) ← p.member name bs
      members fuel false p bs

def elements (bs : Bytes) : Except Json.Fault (SetRequest × Bytes) := do
  match ← Json.nextElement true bs with
  | none => throw .unsuitable
  | some bs =>
    let (key, bs) ← Json.string bs
    match ← Json.nextElement false bs with
    | none => throw .unsuitable
    | some bs =>
      let (value, bs) ← Json.string bs
      match ← Json.nextElement false bs with
      | none => return (⟨key, value, none⟩, ← Json.closeList bs)
      | some bs =>
        let (ttl, bs) ← Json.natural? bs
        return (⟨key, value, ttl⟩, ← Json.closeList bs)

def read (bs : Bytes) : Except Json.Fault (SetRequest × Bytes) :=
  match Json.skipBlanks bs with
  | [] => .error .truncated
  | b :: rest =>
    if b = '['.toUInt8 then elements rest
    else if b = '\x7b'.toUInt8 then do
      let (p, rest) ← members (rest.length + 1) true {} rest
      return (← p.complete, rest)
    else .error (Json.refuse (b :: rest))

/-- Reads a request that only blanks may follow. -/
def parse (bs : Bytes) : Except Json.Fault SetRequest := do
  let (r, rest) ← read bs
  if (Json.skipBlanks rest).isEmpty then return r else throw .malformed

end SetRequest

end SizedCache
