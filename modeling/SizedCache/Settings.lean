import SizedCache.Config
import SizedCache.Error

/-!
# Start-up settings

The settings of a served cache are read from six environment variables. A
variable counts only if it is written as a natural number that fits its setting:
an optional plus sign and one or more ASCII digits, nothing else. Otherwise, and
if it is missing, the setting keeps its default.
-/

namespace SizedCache

abbrev Environment := String → Option (List UInt8)

-- ---------------------------------------------------------------------------
-- Numerals
-- ---------------------------------------------------------------------------

namespace Numeral

def digit? (b : UInt8) : Option Nat :=
  if 0x30 ≤ b ∧ b ≤ 0x39 then some (b.toNat - 0x30) else none

def digitsOnto (n : Nat) : List UInt8 → Option Nat
  | [] => some n
  | b :: bs => (digit? b).bind fun d => digitsOnto (10 * n + d) bs

def unsigned? : List UInt8 → Option Nat
  | [] => none
  | bs => digitsOnto 0 bs

def natural? : List UInt8 → Option Nat
  | [] => none
  | b :: bs => if b = '+'.toUInt8 then unsigned? bs else unsigned? (b :: bs)

end Numeral

/-- The number that `name` is set to, if it is one below `bound`. -/
def Environment.natural? (env : Environment) (name : String) (bound : Nat) : Option Nat :=
  ((env name).bind Numeral.natural?).filter (· < bound)

structure Settings where
  initialCapacity : Nat := 64
  maxCapacity : Nat := 1000
  evictTo : Nat := 900
  /-- Seconds that a value lives unless its request tells otherwise. -/
  defaultTtl : UInt64 := 300
  port : UInt16 := 3000
  sweepSecs : Nat := 1
deriving DecidableEq, Repr

namespace Settings

def ofEnvironment (env : Environment) : Settings :=
  let defaults : Settings := {}
  let word (name : String) : Option Nat := env.natural? name UInt64.size
  { initialCapacity := (word "INITIAL_CAPACITY").getD defaults.initialCapacity
    maxCapacity := (word "MAX_CAPACITY").getD defaults.maxCapacity
    evictTo := (word "EVICT_TO_CAPACITY").getD defaults.evictTo
    defaultTtl := ((word "DEFAULT_TTL").map UInt64.ofNat).getD defaults.defaultTtl
    port := ((env.natural? "SERVER_PORT" UInt16.size).map UInt16.ofNat).getD defaults.port
    sweepSecs := (word "CLEANUP_INTERVAL").getD defaults.sweepSecs }

def limits (s : Settings) : Config := ⟨s.initialCapacity, s.maxCapacity, s.evictTo, s.sweepSecs⟩

def config (s : Settings) : Except CacheError Config := s.limits.check

end Settings

end SizedCache
