/-
`zql/src/query/ttl.ts`: how long a query is kept.

`parseTTL`, `compareTTL` and `clampTTL` are of a number of milliseconds, the
only form the server stores; `TTL.parse` and `TTL.clamp` are the same of what a
caller of the client may give. `NaN` and the infinities are left out.
-/
import Mathlib.Algebra.Order.Ring.Rat

namespace ZeroSync

def DEFAULT_TTL_MS : ℚ := 1000 * 60 * 5

def MAX_TTL_MS : ℚ := 1000 * 60 * 10

/-- `parseTTL`, of a number. -/
def parseTTL (ttl : ℚ) : ℚ := if ttl < 0 then -1 else ttl

/-- `compareTTL`. -/
def compareTTL (a b : ℚ) : ℚ :=
  if parseTTL a = -1 ∧ parseTTL b ≠ -1 then 1
  else if parseTTL a ≠ -1 ∧ parseTTL b = -1 then -1
  else parseTTL a - parseTTL b

/-- `clampTTL`. -/
def clampTTL (ttl : ℚ) : ℚ :=
  if parseTTL ttl = -1 ∨ MAX_TTL_MS < parseTTL ttl then MAX_TTL_MS else parseTTL ttl

/-- `TimeUnit`. -/
inductive TimeUnit
  | s | m | h | d | y
  deriving DecidableEq

/-- `multiplier`. -/
def TimeUnit.multiplier : TimeUnit → ℚ
  | .s => 1000
  | .m => 60 * 1000
  | .h => 60 * 60 * 1000
  | .d => 24 * 60 * 60 * 1000
  | .y => 365 * 24 * 60 * 60 * 1000

/-- `TTL`: a number of milliseconds, a number of units, or a word. -/
inductive TTL
  | ms (n : ℚ)
  | span (n : ℚ) (unit : TimeUnit)
  | forever
  | none_
  deriving DecidableEq

/-- `parseTTL`. -/
def TTL.parse : TTL → ℚ
  | .ms n => parseTTL n
  | .none_ => 0
  | .forever => -1
  | .span n unit => n * unit.multiplier

/-- `clampTTL`. -/
def TTL.clamp (ttl : TTL) : ℚ := if ttl.parse = -1 ∨ MAX_TTL_MS < ttl.parse then MAX_TTL_MS else ttl.parse

end ZeroSync
