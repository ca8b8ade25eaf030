import Historian.Number.Binary64

/-!
# An average rate of events

A `RateMeter` averages events per second over about a minute.  Events are gathered for a tick and
folded into the average when the tick is over, with weight `1 - e ^ (-tick / 60)`; ticks in which
nothing happened let the average decay.

Inside, times are nanoseconds of a clock that only moves forward; the callers of `new`, `mark` and
`advance` count milliseconds.
-/

set_option autoImplicit false

namespace Historian

/-- A moving average of an event rate: the events of the current tick, which began at `lastTick`,
and the events per second as of the last one, once a tick has been folded in. -/
structure RateMeter where
  tick : Nat
  uncounted : Nat
  rate : Float
  started : Bool
  lastTick : Nat

namespace RateMeter

/-- Nanoseconds of a millisecond. -/
def nanosPerMilli : Nat := 1000000

/-- Nanoseconds of a second. -/
def nanosPerSecond : Nat := 1000000000

/-- The tick, in milliseconds, used unless another is asked for. -/
def defaultTick : Nat := 5000

/-- The largest number of events that a tick can hold. -/
def maxUncounted : Nat := twoTo 64 - 1

/-- A meter at rest.  A tick is at least one millisecond. -/
def ofNanos (tick now : Nat) : RateMeter := ⟨max tick nanosPerMilli, 0, 0.0, false, now⟩

/-- The length of a tick in seconds. -/
def tickSeconds (m : RateMeter) : Float :=
  (m.tick / nanosPerSecond).toUInt64.toFloat +
    (m.tick % nanosPerSecond).toUInt64.toFloat / 1000000000.0

/-- The weight of the newest tick. -/
def weight (m : RateMeter) : Float := 1.0 - Float.exp (-m.tickSeconds / 60.0)

/-- `acc * base ^ n`, by squaring. -/
def scaledPower (acc base : Float) (n : Nat) : Float :=
  let acc := if n % 2 = 1 then acc * base else acc
  if n / 2 = 0 then acc else scaledPower acc (base * base) (n / 2)
termination_by n
decreasing_by omega

/-- The average after the current tick and `idle` empty ones. -/
def folded (m : RateMeter) (idle : Nat) : Float :=
  let latest := m.uncounted.toUInt64.toFloat / m.tickSeconds
  let rate := if m.started then m.rate + m.weight * (latest - m.rate) else latest
  if idle = 0 then rate else rate * scaledPower 1.0 (1.0 - m.weight) idle

/-- The ticks that are over at `now`, in 64 bits. -/
def ticksOver (m : RateMeter) (now : Nat) : Nat := (now - m.lastTick) / m.tick % twoTo 64

/-- Folds in the ticks that are over at `now`. -/
def catchUp (m : RateMeter) (now : Nat) : RateMeter :=
  let ticks := m.ticksOver now
  if ticks = 0 then m
  else
    { m with
      uncounted := 0
      rate := m.folded (min (ticks - 1) (twoTo 31 - 1))
      started := true
      lastTick := m.lastTick + m.tick * min ticks (twoTo 32 - 1) }

/-- Records `count` events at `now`. -/
def markAt (m : RateMeter) (count now : Nat) : RateMeter :=
  let m := m.catchUp now
  { m with uncounted := min (m.uncounted + count) maxUncounted }

/-! ## In milliseconds -/

/-- A meter at rest. -/
def new (tick now : Nat) : RateMeter := ofNanos (tick * nanosPerMilli) (now * nanosPerMilli)

/-- Folds in the ticks that are over at `now`. -/
def advance (m : RateMeter) (now : Nat) : RateMeter := m.catchUp (now * nanosPerMilli)

/-- Records `count` events at `now`. -/
def mark (m : RateMeter) (count now : Nat) : RateMeter := m.markAt count (now * nanosPerMilli)

end RateMeter

end Historian
