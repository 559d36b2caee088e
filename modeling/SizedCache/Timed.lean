/-!
# Timed values

A value with the time of its creation and, unless it is permanent, the time at
which it expires, both in Unix milliseconds on signed 64-bit words. A value is
expired from the millisecond of its expiration on.
-/

namespace SizedCache

/-- Values that can tell at a given wall clock that their time is over. -/
class Expirable (α : Type) where
  expired : α → Int64 → Bool

def saturate (n : Int) : Int64 :=
  if n < Int64.minValue.toInt then Int64.minValue
  else if Int64.maxValue.toInt < n then Int64.maxValue
  else Int64.ofInt n

structure Timed (α : Type) where
  value : α
  created : Int64
  expires : Option Int64
deriving DecidableEq, Repr

namespace Timed

variable {α : Type}

/-- The expiration of a value made at `now` to live `seconds`. The seconds are
taken as a signed word; the product and the sum stop at the ends of the range. -/
def expiration (now : Int64) (seconds : UInt64) : Int64 :=
  saturate (now.toInt + (saturate (seconds.toInt64.toInt * 1000)).toInt)

def lasting (value : α) (now : Int64) (seconds : Option UInt64) : Timed α :=
  ⟨value, now, seconds.map (expiration now)⟩

def permanent (value : α) (now : Int64) : Timed α := lasting value now none

def expiringAt (value : α) (now expires : Int64) : Timed α := ⟨value, now, some expires⟩

def isExpired (v : Timed α) (now : Int64) : Bool :=
  match v.expires with
  | some e => e ≤ now
  | none => false

instance : Expirable (Timed α) := ⟨isExpired⟩

def remainingMillis (v : Timed α) (now : Int64) : Option UInt64 :=
  v.expires.map fun e => if now < e then (e - now).toUInt64 else 0

def remainingSeconds (v : Timed α) (now : Int64) : Option UInt64 :=
  (v.remainingMillis now).map (· / 1000)

end Timed

end SizedCache
