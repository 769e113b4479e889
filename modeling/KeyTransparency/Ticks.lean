import Mathlib.Order.Basic
import Mathlib.Data.List.Forall2

/-! `genEpochTicks` in Go's time arithmetic. A `time.Duration` is an int64 of nanoseconds:
`+` wraps, and `Time.Sub` saturates at the ends of the int64 range. Once `last` lies more than
`2^63 - minElapsed` nanoseconds in the past, `now.Sub(last)` saturates, adding `minElapsed`
wraps below zero, and no epoch is ever forced again, since `last` only moves on a true. -/
namespace KeyTransparency

/-- A `time.Duration`: an int64 count of nanoseconds. -/
structure Duration where
  ns : Int
  range : -9223372036854775808 ≤ ns ∧ ns < 9223372036854775808
  deriving DecidableEq

/-- An instant, in nanoseconds since the Unix epoch; `time.Unix(0, ts)` is `⟨ts⟩`. -/
structure Time where
  nanos : Int
  deriving DecidableEq

namespace Duration

/-- int64 arithmetic: the two's-complement wrap of an integer. -/
def ofInt (x : Int) : Duration :=
  ⟨(x + 9223372036854775808) % 18446744073709551616 - 9223372036854775808, by omega⟩

/-- `d + e`, which wraps. -/
def add (d e : Duration) : Duration := ofInt (d.ns + e.ns)

@[simp] theorem ofInt_ns (x : Int) :
    (ofInt x).ns = (x + 9223372036854775808) % 18446744073709551616 - 9223372036854775808 := rfl

@[simp] theorem add_ns (d e : Duration) : (d.add e).ns = (ofInt (d.ns + e.ns)).ns := rfl

end Duration

/-- `t.Sub(u)`: the difference, saturated at the minimum and the maximum Duration. -/
def Time.sub (t u : Time) : Duration :=
  ⟨max (-9223372036854775808) (min 9223372036854775807 (t.nanos - u.nanos)), by omega⟩

@[simp] theorem Time.sub_ns (t u : Time) :
    (t.sub u).ns = max (-9223372036854775808) (min 9223372036854775807 (t.nanos - u.nanos)) :=
  rfl

section Ticks
variable (minElapsed maxElapsed : Duration)

/-- `now.Sub(last) + minElapsed >= maxElapsed`. -/
def due (now last : Time) : Bool :=
  decide (maxElapsed.ns ≤ ((now.sub last).add minElapsed).ns)

/-- The loop over the ticker: send whether an epoch is due, and move `last` on a true. -/
def tickLoop : Time → List Time → List Bool
  | _, [] => []
  | last, now :: minTick =>
    if due minElapsed maxElapsed now last then true :: tickLoop now minTick
    else false :: tickLoop last minTick

/-- `genEpochTicks`: the values sent on `enforce`, given the two readings of `t.Now()` before
the loop (in the test, and in `last = t.Now()` after the first send) and the ticker's instants. -/
def genEpochTicks (now0 now1 last : Time) (minTick : List Time) : List Bool :=
  if due minElapsed maxElapsed now0 last then true :: tickLoop minElapsed maxElapsed now1 minTick
  else tickLoop minElapsed maxElapsed last minTick

theorem due_eq_false_of_late (positive : 0 < minElapsed.ns) (nonneg : 0 ≤ maxElapsed.ns)
    {now last : Time} (late : 9223372036854775808 - minElapsed.ns ≤ now.nanos - last.nanos) :
    due minElapsed maxElapsed now last = false := by
  have := minElapsed.range
  simp only [due, decide_eq_false_iff_not, Duration.add_ns, Duration.ofInt_ns, Time.sub_ns]
  omega

theorem tickLoop_late (positive : 0 < minElapsed.ns) (nonneg : 0 ≤ maxElapsed.ns) (last : Time)
    (minTick : List Time)
    (late : ∀ now ∈ minTick, 9223372036854775808 - minElapsed.ns ≤ now.nanos - last.nanos) :
    tickLoop minElapsed maxElapsed last minTick = minTick.map fun _ => false := by
  induction minTick with
  | nil => rfl
  | cons now minTick ih =>
    rw [tickLoop, due_eq_false_of_late minElapsed maxElapsed positive nonneg
      (late now (List.mem_cons_self _ _)), if_neg Bool.false_ne_true, List.map_cons]
    exact congrArg _ (ih fun t ht => late t (List.mem_cons_of_mem _ ht))

/-- Once `last` lies `2^63 - minElapsed` nanoseconds or more before the start, every value
`genEpochTicks` sends is false, on every later tick. -/
theorem genEpochTicks_saturated (positive : 0 < minElapsed.ns) (nonneg : 0 ≤ maxElapsed.ns)
    (now0 now1 last : Time) (minTick : List Time)
    (late : 9223372036854775808 - minElapsed.ns ≤ now0.nanos - last.nanos)
    (after : ∀ now ∈ minTick, now0.nanos ≤ now.nanos) :
    genEpochTicks minElapsed maxElapsed now0 now1 last minTick = minTick.map fun _ => false := by
  rw [genEpochTicks, due_eq_false_of_late minElapsed maxElapsed positive nonneg late]
  exact tickLoop_late minElapsed maxElapsed positive nonneg last minTick
    fun now mem => by have := after now mem; omega

end Ticks

/-! ### Without overflow -/

/-- The stream in exact arithmetic, as the docstring of StartSigning reads it: true exactly when
at least `gap` nanoseconds have passed since the last true. -/
def idealLoop (gap : Int) : Time → List Time → List Bool
  | _, [] => []
  | last, now :: minTick =>
    if gap ≤ now.nanos - last.nanos then true :: idealLoop gap now minTick
    else false :: idealLoop gap last minTick

def idealTicks (gap : Int) (now0 now1 last : Time) (minTick : List Time) : List Bool :=
  if gap ≤ now0.nanos - last.nanos then true :: idealLoop gap now1 minTick
  else idealLoop gap last minTick

section Exact
variable (minElapsed maxElapsed : Duration)

/-- No two of the instants are so far apart that their difference, plus `minElapsed`, leaves
the int64 range. -/
def WithinRange (instants : List Time) : Prop :=
  ∀ x ∈ instants, ∀ y ∈ instants, x.nanos - y.nanos + minElapsed.ns < 9223372036854775808

instance (instants : List Time) : Decidable (WithinRange minElapsed instants) :=
  inferInstanceAs (Decidable (∀ x ∈ instants, ∀ y ∈ instants,
    x.nanos - y.nanos + minElapsed.ns < 9223372036854775808))

theorem due_eq_of_within (nonneg : 0 ≤ minElapsed.ns) {instants : List Time}
    (within : WithinRange minElapsed instants) {now last : Time} (hnow : now ∈ instants)
    (hlast : last ∈ instants) :
    due minElapsed maxElapsed now last =
      decide (maxElapsed.ns - minElapsed.ns ≤ now.nanos - last.nanos) := by
  have ahead := within now hnow last hlast
  have behind := within last hlast now hnow
  have := maxElapsed.range
  simp only [due, Duration.add_ns, Duration.ofInt_ns, Time.sub_ns, decide_eq_decide]
  omega

theorem tickLoop_eq_idealLoop (nonneg : 0 ≤ minElapsed.ns) {instants : List Time}
    (within : WithinRange minElapsed instants) (last : Time) (minTick : List Time)
    (hlast : last ∈ instants) (ticks : ∀ now ∈ minTick, now ∈ instants) :
    tickLoop minElapsed maxElapsed last minTick =
      idealLoop (maxElapsed.ns - minElapsed.ns) last minTick := by
  induction minTick generalizing last with
  | nil => rfl
  | cons now minTick ih =>
    have hnow := ticks now (List.mem_cons_self _ _)
    have rest := fun t ht => ticks t (List.mem_cons_of_mem _ ht)
    rw [tickLoop, idealLoop, due_eq_of_within minElapsed maxElapsed nonneg within hnow hlast]
    by_cases elapsed : maxElapsed.ns - minElapsed.ns ≤ now.nanos - last.nanos
    · simp [elapsed, ih now hnow rest]
    · simp [elapsed, ih last hlast rest]

end Exact

/-- `last = time.Unix(0, math.MinInt64)` at a start in 2017, with one-second ticks, a one-second
`minElapsed` and a ten-second `maxElapsed`: at least `maxElapsed - minElapsed` has passed since
`last` at the start, and no value is ever true. -/
theorem genEpochTicks_from_min_int64 :
    (10000000000 : Int) - 1000000000 ≤ 1500000000000000000 - -9223372036854775808 ∧
      genEpochTicks ⟨1000000000, by decide⟩ ⟨10000000000, by decide⟩ ⟨1500000000000000000⟩
        ⟨1500000000000000000⟩ ⟨-9223372036854775808⟩
        [⟨1500000001000000000⟩, ⟨1500000002000000000⟩, ⟨1500000003000000000⟩] =
        [false, false, false] :=
  ⟨by decide, genEpochTicks_saturated ⟨1000000000, by decide⟩ ⟨10000000000, by decide⟩
    (by decide) (by decide) _ _ _ _ (by decide) (by decide)⟩

/-! ### Liveness -/

/-- For each tick, the instant of the last forced epoch a stream of values announced before it:
`start` until the stream sends a true, then the tick of the latest true. -/
def lastForced : Time → List Time → List Bool → List Time
  | start, now :: minTick, forced :: stream =>
    start :: lastForced (if forced then now else start) minTick stream
  | _, _, _ => []

section Liveness
variable (minElapsed maxElapsed : Duration)

theorem tickLoop_elapsed (nonneg : 0 ≤ minElapsed.ns) (shorter : minElapsed.ns < maxElapsed.ns)
    {instants : List Time} (within : WithinRange minElapsed instants) (prev last : Time)
    (minTick : List Time) (hlast : last ∈ instants) (ticks : ∀ now ∈ minTick, now ∈ instants)
    (behind : prev.nanos - last.nanos < maxElapsed.ns - minElapsed.ns)
    (spaced : List.Chain (fun a b : Time => b.nanos - a.nanos ≤ minElapsed.ns) prev minTick) :
    List.Forall₂ (fun now forced : Time => now.nanos - forced.nanos < maxElapsed.ns) minTick
      (lastForced last minTick (tickLoop minElapsed maxElapsed last minTick)) := by
  induction minTick generalizing prev last with
  | nil => exact .nil
  | cons now minTick ih =>
    obtain _ | ⟨gap, spaced⟩ := spaced
    have hnow := ticks now (List.mem_cons_self _ _)
    have rest := fun t ht => ticks t (List.mem_cons_of_mem _ ht)
    rw [tickLoop, due_eq_of_within minElapsed maxElapsed nonneg within hnow hlast]
    by_cases elapsed : maxElapsed.ns - minElapsed.ns ≤ now.nanos - last.nanos
    · simp only [elapsed, decide_True, if_true, lastForced]
      exact .cons (by omega) (ih now now hnow rest (by omega) spaced)
    · simp only [elapsed, decide_False, Bool.false_eq_true, if_false, lastForced]
      exact .cons (by omega) (ih now last hlast rest (by omega) spaced)

end Liveness

end KeyTransparency
