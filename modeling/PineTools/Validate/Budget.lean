import PineTools.Decimal.Float64
import PineTools.Diagnostic.Basic

/-! The time budget of a validation. Between its checks a validation reads a clock; the first
reading that is further from the start than the budget ends it. Readings also pace the progress
reports: one is due when the interval since the last one has passed. -/
namespace PineTools

/-- A kind of time: how far two readings are apart, how durations compare, and how messages write
one. -/
class Timeline (τ : Type) where
  between : τ → τ → τ
  exceeds : τ → τ → Bool
  reaches : τ → τ → Bool
  tenths : τ → Text

instance : Timeline Float where
  between now earlier := now - earlier
  exceeds duration limit := duration > limit
  reaches duration interval := duration ≥ interval
  tenths := Decimal.tenths

/-- Exact times. -/
instance : Timeline Rat where
  between now earlier := now - earlier
  exceeds duration limit := limit < duration
  reaches duration interval := interval ≤ duration
  tenths duration :=
    let n := Decimal.roundDiv (10 * duration.num.natAbs) duration.den
    (if duration < 0 then ['-'] else []) ++ Nat.toDigits 10 (n / 10) ++
      '.' :: Nat.toDigits 10 (n % 10)

/-- A clock: one reading, and the clock after it. -/
class Clock (κ : Type) (τ : outParam Type) where
  read : κ → τ × κ

/-- A clock that advances by a fixed step with every reading. -/
structure SteadyClock where
  now : Float
  step : Float

instance : Clock SteadyClock Float where
  read k := (k.now, { k with now := k.now + k.step })

def totalChecks : Nat := 8

/-- A budget that ran out after some of the checks. -/
structure Timeout (τ : Type) where
  elapsed : τ
  limit : τ
  checksDone : Nat

namespace Timeout

variable {τ : Type} [Timeline τ]

def message (t : Timeout τ) : String :=
  let limit := String.ofList (Timeline.tenths t.limit)
  let elapsed := String.ofList (Timeline.tenths t.elapsed)
  s!"Timeout: validation exceeded {limit}s (elapsed {elapsed}s, {t.checksDone}/{totalChecks} checks done)"

def diagnostic (t : Timeout τ) : Diagnostic := .error .timeout "PS9001" t.message none

end Timeout

/-- The time of a validation: its budget and the interval between reports, whether anyone listens to
them, the readings at the start and at the last report, the number of finished checks, what was
reported so far, and the clock. -/
structure Tracker (τ κ : Type) where
  limit : τ
  interval : τ
  listening : Bool
  started : τ
  lastReport : τ
  done : Nat
  reports : List (Nat × Nat)
  clock : κ

namespace Tracker

variable {τ κ : Type}

/-- Tells a listener how many of the checks are finished. -/
def report (t : Tracker τ κ) (done : Nat) : Tracker τ κ :=
  if t.listening then { t with reports := t.reports ++ [(done, totalChecks)] } else t

def finish (t : Tracker τ κ) : Tracker τ κ := t.report totalChecks

variable [Clock κ τ]

def start (limit interval : τ) (listening : Bool) (clock : κ) : Tracker τ κ :=
  let (now, clock) := Clock.read clock
  { limit, interval, listening, started := now, lastReport := now, done := 0, reports := [], clock }

variable [Timeline τ]

/-- Reads the clock. Unless the budget has run out a report may be due. -/
def check (t : Tracker τ κ) : Except (Timeout τ) Unit × Tracker τ κ :=
  let (now, clock) := Clock.read t.clock
  let t := { t with clock }
  let elapsed := Timeline.between now t.started
  if Timeline.exceeds elapsed t.limit then (.error ⟨elapsed, t.limit, t.done⟩, t)
  else if t.listening && Timeline.reaches (Timeline.between now t.lastReport) t.interval then
    (.ok (), { t with lastReport := now }.report t.done)
  else (.ok (), t)

/-- Counts a finished check and reads the clock. -/
def stepDone (t : Tracker τ κ) :
    Except (Timeout τ) Unit × Tracker τ κ := { t with done := t.done + 1 }.check

end Tracker

end PineTools
