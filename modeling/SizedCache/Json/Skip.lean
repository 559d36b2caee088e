import SizedCache.Json.Number
import SizedCache.Json.Text

/-!
# Passing over values

A value that nobody asked for is passed over without being kept, however deep it
is nested: the open lists and objects are a stack.
-/

namespace SizedCache.Json

inductive Frame where
  | list
  | object
deriving DecidableEq

def Frame.closing : Frame → UInt8
  | .list => ']'.toUInt8
  | .object => '\x7d'.toUInt8

inductive Spot where
  | value
  /-- The first part of the innermost frame, or its end. -/
  | opened
  /-- A comma, or the end of the innermost frame. -/
  | after
  | name

def skipHead (bs : Bytes) : Except Fault (Option Frame × Bytes) :=
  match bs with
  | [] => .error .truncated
  | b :: rest =>
    if b = 'n'.toUInt8 then (literal "ull".toList rest).map (none, ·)
    else if b = 't'.toUInt8 then (literal "rue".toList rest).map (none, ·)
    else if b = 'f'.toUInt8 then (literal "alse".toList rest).map (none, ·)
    else if b = '"'.toUInt8 then (skipText rest).map (none, ·)
    else if b = '-'.toUInt8 then (skipNumber rest).map (none, ·)
    else if isDigit b then (skipNumber (b :: rest)).map (none, ·)
    else if b = '['.toUInt8 then .ok (some .list, rest)
    else if b = '\x7b'.toUInt8 then .ok (some .object, rest)
    else .error .malformed

def Frame.inside : Frame → Spot
  | .list => .value
  | .object => .name

/-- `fuel` bounds the steps; two for each byte are enough. -/
def skipFrom : Nat → Spot → List Frame → Bytes → Except Fault Bytes
  | 0, _, _, _ => .error .truncated
  | fuel + 1, spot, frames, bs =>
    match spot, frames with
    | .value, frames => do
      let (frame, rest) ← skipHead (skipBlanks bs)
      match frame, frames with
      | some f, frames => skipFrom fuel .opened (f :: frames) rest
      | none, [] => return rest
      | none, frames => skipFrom fuel .after frames rest
    | .name, frames => do
      let rest ← skipText (← literal ['"'] (skipBlanks bs))
      skipFrom fuel .value frames (← colon rest)
    | .opened, frame :: frames =>
      match skipBlanks bs with
      | [] => .error .truncated
      | b :: rest =>
        if b = frame.closing then
          if frames.isEmpty then .ok rest else skipFrom fuel .after frames rest
        else skipFrom fuel frame.inside (frame :: frames) (b :: rest)
    | .after, frame :: frames =>
      match skipBlanks bs with
      | [] => .error .truncated
      | b :: rest =>
        if b = ','.toUInt8 then skipFrom fuel frame.inside (frame :: frames) rest
        else if b = frame.closing then
          if frames.isEmpty then .ok rest else skipFrom fuel .after frames rest
        else .error .malformed
    | _, [] => .ok bs

def skip (bs : Bytes) : Except Fault Bytes := skipFrom (2 * bs.length + 2) .value [] bs

/-- The fault of a value that is not of the kind asked for. A scalar is read to
its end first, so a broken one is reported as broken. -/
def refuse (bs : Bytes) : Fault :=
  let judge {α : Type} (r : Except Fault α) : Fault :=
    match r with
    | .error e => e
    | .ok _ => .unsuitable
  match bs with
  | [] => .truncated
  | b :: rest =>
    if b = '"'.toUInt8 then judge (text rest)
    else if b = '-'.toUInt8 || isDigit b then judge (number bs)
    else judge (skipHead bs)

def string (bs : Bytes) : Read String :=
  match skipBlanks bs with
  | [] => .error .truncated
  | b :: rest => if b = '"'.toUInt8 then text rest else .error (refuse (b :: rest))

/-- A natural number below 2^64, or null. -/
def natural? (bs : Bytes) : Read (Option UInt64) :=
  match skipBlanks bs with
  | [] => .error .truncated
  | b :: rest =>
    if b = 'n'.toUInt8 then (literal "ull".toList rest).map (none, ·)
    else if b = '-'.toUInt8 || isDigit b then
      match number (b :: rest) with
      | .ok (.natural n, rest) => .ok (some n, rest)
      | .ok (.other, _) => .error .unsuitable
      | .error e => .error e
    else .error (refuse (b :: rest))

end SizedCache.Json
