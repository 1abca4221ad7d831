import Mathlib.Algebra.Group.Int
import TailFS.Basic

/-!
# The backoff of `runLoop`

After each failed `run`, `runLoop` counts the failures that came less than `maxSleepTime` after
the one before (`consecutiveFailures`, reset to 1 otherwise), and sleeps
`time.Duration(math.Pow(2, consecutiveFailures)) * time.Millisecond`, capped at `maxSleepTime`.
`Backoff.iterate` is one iteration, with the monotonic clock, under any `Timing` of its parts;
`Backoff.run` is a run of any length.

* `run_sleeps`: whatever the timings, the counter never passes 15, because the sleep at 15 is
  30 s, so the next failure comes at least 30 s later and resets it. Every sleep is exact, with
  no overflow, and lies in [2 ms, 30 s].
* `run_sleeps_fast`: when each failure comes within a millisecond of the end of the previous
  sleep and sleeps are exact, the `k`-th sleep is `periodicSleep k`: 2 ms doubling to 16.384 s,
  30 s at the 15th, and 2 ms again at the 16th (`run_sleeps_sixteen`).
-/

namespace TailFS
namespace UserServer

/-- `time.Millisecond`, in nanoseconds. -/
def millisecond : Int := 1000000

/-- `maxSleepTime := 30 * time.Second`. -/
def maxSleepTime : Int := 30000 * millisecond

/-- An `int64` result: arithmetic wraps modulo `2^64`. -/
def wrap64 (x : Int) : Int := (x + 2 ^ 63) % 2 ^ 64 - 2 ^ 63

/-- `time.Duration(math.Pow(2, consecutiveFailures))`: the power of two, exact as a `float64`,
converted to `int64`. Go leaves the conversion of a value out of range to the implementation;
this takes the answer of amd64, the least `int64`. -/
def powDuration (consecutiveFailures : Nat) : Int :=
  if consecutiveFailures < 63 then 2 ^ consecutiveFailures else -2 ^ 63

/-- `sleepTime` after `consecutiveFailures` failures: the power of two times
`time.Millisecond`, in `int64`, capped at `maxSleepTime`. -/
def sleepTime (consecutiveFailures : Nat) : Int :=
  let sleepTime := wrap64 (powDuration consecutiveFailures * millisecond)
  if sleepTime > maxSleepTime then maxSleepTime else sleepTime

/-- How long the parts of one iteration take, in nanoseconds: from the end of the previous sleep
to the return of the closed check, the call to `run()`, and how much longer than asked
`time.Sleep` sleeps. -/
structure Timing where
  check : Nat
  run : Nat
  oversleep : Nat
  deriving DecidableEq, Repr

/-- The variables of `runLoop` that live across iterations, the monotonic clock at the top of
the loop, and the sleeps so far, each with the counter it was computed from. `none` is the zero
`time.Time`: the first failure is more than `maxSleepTime` after it. -/
structure Backoff where
  consecutiveFailures : Nat
  timeOfLastFailure : Option Nat
  now : Nat
  sleeps : List (Nat × Int)
  deriving DecidableEq, Repr

/-- `runLoop` when it starts, at time `now`. -/
def Backoff.init (now : Nat) : Backoff := ⟨0, none, now, []⟩

/-- One iteration of `runLoop` that finds `closed` false: `run` fails, the counter is updated and
the loop sleeps; `time.Sleep` of a duration that is not positive returns at once. -/
def Backoff.iterate (b : Backoff) (t : Timing) : Backoff :=
  let now := b.now + t.check + t.run
  let consecutiveFailures :=
    match b.timeOfLastFailure with
    | some last => if ((now : Int) - last) < maxSleepTime then b.consecutiveFailures + 1 else 1
    | none => 1
  let sleepTime := sleepTime consecutiveFailures
  { consecutiveFailures, timeOfLastFailure := some now,
    now := now + sleepTime.toNat + t.oversleep,
    sleeps := b.sleeps ++ [(consecutiveFailures, sleepTime)] }

/-- The iterations with timings `ts`. -/
def Backoff.run (b : Backoff) (ts : List Timing) : Backoff :=
  ts.foldl Backoff.iterate b

/-! ## The sleep of a counter up to 15 -/

theorem wrap64_of_lt {x : Int} (h0 : 0 ≤ x) (h : x < 2 ^ 63) : wrap64 x = x := by
  unfold wrap64
  rw [Int.emod_eq_of_lt (by omega) (by omega)]
  omega

/-- Up to 15 failures, the power of two is exact, the product does not overflow, and the sleep
is the power of two in milliseconds, capped at 30 s. -/
theorem sleepTime_eq {n : Nat} (hn : n ≤ 15) :
    powDuration n = 2 ^ n ∧ wrap64 (2 ^ n * millisecond) = 2 ^ n * millisecond ∧
      sleepTime n = min (2 ^ n * millisecond) maxSleepTime := by
  have hpow : (2 : Int) ^ n ≤ 2 ^ 15 := by exact_mod_cast Nat.pow_le_pow_right (by decide) hn
  have hpos : (0 : Int) < 2 ^ n := by exact_mod_cast Nat.two_pow_pos n
  have hwrap : wrap64 (2 ^ n * millisecond) = 2 ^ n * millisecond :=
    wrap64_of_lt (by unfold millisecond; omega) (by unfold millisecond; omega)
  have hpd : powDuration n = 2 ^ n := if_pos (by omega)
  refine ⟨hpd, hwrap, ?_⟩
  simp only [sleepTime, hpd, hwrap]
  split <;> omega

theorem sleepTime_bounds {n : Nat} (h1 : 1 ≤ n) (hn : n ≤ 15) :
    2 * millisecond ≤ sleepTime n ∧ sleepTime n ≤ maxSleepTime := by
  have hpow : (2 : Int) ^ 1 ≤ 2 ^ n := by exact_mod_cast Nat.pow_le_pow_right (by decide) h1
  rw [(sleepTime_eq hn).2.2]
  simp only [maxSleepTime, millisecond] at hpow ⊢
  omega

theorem sleepTime_fifteen : sleepTime 15 = maxSleepTime := by
  rw [(sleepTime_eq le_rfl).2.2]
  decide

theorem sleepTime_le_fourteen {n : Nat} (hn : n ≤ 14) : sleepTime n ≤ 2 ^ 14 * millisecond := by
  have hpow : (2 : Int) ^ n ≤ 2 ^ 14 := by exact_mod_cast Nat.pow_le_pow_right (by decide) hn
  rw [(sleepTime_eq (by omega)).2.2]
  exact (min_le_left _ _).trans (by unfold millisecond; omega)

/-! ## One iteration -/

namespace Backoff

variable {b : Backoff} {t : Timing}

@[simp] theorem iterate_timeOfLastFailure :
    (b.iterate t).timeOfLastFailure = some (b.now + t.check + t.run) := rfl

@[simp] theorem iterate_now : (b.iterate t).now =
    b.now + t.check + t.run + (sleepTime (b.iterate t).consecutiveFailures).toNat + t.oversleep :=
  rfl

@[simp] theorem iterate_sleeps : (b.iterate t).sleeps = b.sleeps ++
    [((b.iterate t).consecutiveFailures, sleepTime (b.iterate t).consecutiveFailures)] := rfl

theorem iterate_consecutiveFailures_none (h : b.timeOfLastFailure = none) :
    (b.iterate t).consecutiveFailures = 1 := by
  simp [iterate, h]

theorem iterate_consecutiveFailures_some {last : Nat} (h : b.timeOfLastFailure = some last) :
    (b.iterate t).consecutiveFailures =
      if ((b.now + t.check + t.run : Nat) : Int) - last < maxSleepTime then
        b.consecutiveFailures + 1
      else 1 := by
  simp [iterate, h]

/-- What every iteration leaves: a counter of at most 15, a clock at least the sleep of the
counter past the last failure, and sleeps that are the sleeps of their counters, from 1 to 15. -/
structure Inv (b : Backoff) : Prop where
  le : b.consecutiveFailures ≤ 15
  slept : ∀ last, b.timeOfLastFailure = some last →
    (last : Int) + sleepTime b.consecutiveFailures ≤ b.now
  sleeps : ∀ p ∈ b.sleeps, 1 ≤ p.1 ∧ p.1 ≤ 15 ∧ p.2 = sleepTime p.1

theorem inv_init (now : Nat) : (init now).Inv :=
  ⟨Nat.zero_le _, (fun _ h => nomatch h), fun _ h => nomatch h⟩

/-- The counter after an iteration is between 1 and 15: at 15 the loop slept 30 s, so the next
failure is at least 30 s later and resets it. -/
theorem Inv.iterate_consecutiveFailures (h : b.Inv) (t : Timing) :
    1 ≤ (b.iterate t).consecutiveFailures ∧ (b.iterate t).consecutiveFailures ≤ 15 := by
  cases hlast : b.timeOfLastFailure with
  | none => rw [iterate_consecutiveFailures_none hlast]; decide
  | some last =>
    rw [iterate_consecutiveFailures_some hlast]
    split
    · next hgap =>
      have hslept := h.slept last hlast
      refine ⟨by omega, Nat.succ_le_of_lt (Nat.lt_of_le_of_ne h.le fun h15 => ?_)⟩
      rw [h15, sleepTime_fifteen] at hslept
      push_cast at hgap
      omega
    · decide

theorem Inv.iterate (h : b.Inv) (t : Timing) : (b.iterate t).Inv := by
  obtain ⟨h1, h15⟩ := h.iterate_consecutiveFailures t
  have hpos := (sleepTime_bounds h1 h15).1
  refine ⟨h15, fun last hlast => ?_, fun p hp => ?_⟩
  · simp only [iterate_timeOfLastFailure, Option.some.injEq] at hlast
    subst hlast
    rw [iterate_now]
    have : ((sleepTime (b.iterate t).consecutiveFailures).toNat : Int) =
        sleepTime (b.iterate t).consecutiveFailures :=
      Int.toNat_of_nonneg (by unfold millisecond at hpos; omega)
    push_cast
    omega
  · rw [iterate_sleeps, List.mem_append, List.mem_singleton] at hp
    rcases hp with hp | rfl
    · exact h.sleeps p hp
    · exact ⟨h1, h15, rfl⟩

theorem Inv.run (h : b.Inv) (ts : List Timing) : (b.run ts).Inv := by
  induction ts generalizing b with
  | nil => exact h
  | cons t ts ih => exact ih (h.iterate t)

end Backoff

/-- **The counter stays at most 15.** For every run of `runLoop`, of any length, whatever `run`
and the closed check take and however long each sleep oversleeps, `consecutiveFailures` never
passes 15, and every sleep is computed from a counter from 1 to 15: `math.Pow` is exact, the
conversion and the product by `time.Millisecond` do not overflow `int64`, and the sleep is
`min(2^n ms, 30 s)`, between 2 ms and 30 s. -/
theorem run_sleeps (now : Nat) (ts : List Timing) :
    ((Backoff.init now).run ts).consecutiveFailures ≤ 15 ∧
    ∀ p ∈ ((Backoff.init now).run ts).sleeps, 1 ≤ p.1 ∧ p.1 ≤ 15 ∧
      powDuration p.1 = 2 ^ p.1 ∧ wrap64 (2 ^ p.1 * millisecond) = 2 ^ p.1 * millisecond ∧
      p.2 = min (2 ^ p.1 * millisecond) maxSleepTime ∧
      2 * millisecond ≤ p.2 ∧ p.2 ≤ maxSleepTime := by
  have h := (Backoff.inv_init now).run ts
  refine ⟨h.le, fun p hp => ?_⟩
  obtain ⟨h1, h15, hp2⟩ := h.sleeps p hp
  obtain ⟨hpow, hwrap, hsleep⟩ := sleepTime_eq h15
  exact ⟨h1, h15, hpow, hwrap, hp2.trans hsleep, hp2 ▸ sleepTime_bounds h1 h15⟩

/-! ## Failures in quick succession -/

/-- The `k`-th sleep, from 1, of a run whose failures come right after the sleeps: the counter
climbs from 1 to 15 and starts again. -/
def periodicSleep (k : Nat) : Int := min (2 ^ ((k - 1) % 15 + 1) * millisecond) maxSleepTime

/-- An iteration whose failure comes within a millisecond of the end of the last sleep, and
whose sleep is exact. -/
def Timing.Fast (t : Timing) : Prop := t.check + t.run ≤ 1000000 ∧ t.oversleep = 0

instance : DecidablePred Timing.Fast := fun _ => inferInstanceAs (Decidable (_ ∧ _))

namespace Backoff

/-- After `k` fast iterations: the sleeps are the first `k` periodic ones, and after at least one,
the counter is `(k - 1) % 15 + 1` and the clock is exactly one sleep past the last failure. -/
def FastAfter (b : Backoff) (k : Nat) : Prop :=
  b.sleeps.map Prod.snd = (List.range k).map (fun j => periodicSleep (j + 1)) ∧
    (k = 0 → b.timeOfLastFailure = none) ∧
    (0 < k → b.consecutiveFailures = (k - 1) % 15 + 1 ∧
      ∃ last, b.timeOfLastFailure = some last ∧ (b.now : Int) = last + sleepTime b.consecutiveFailures)

theorem FastAfter.iterate {b : Backoff} {k : Nat} (h : b.FastAfter k) {t : Timing}
    (ht : t.Fast) : (b.iterate t).FastAfter (k + 1) := by
  have hcf : (b.iterate t).consecutiveFailures = k % 15 + 1 := by
    rcases Nat.eq_zero_or_pos k with rfl | hk
    · exact iterate_consecutiveFailures_none (h.2.1 rfl)
    · obtain ⟨hcf, last, hlast, hnow⟩ := h.2.2 hk
      rw [iterate_consecutiveFailures_some hlast]
      push_cast
      by_cases h15 : b.consecutiveFailures = 15
      · rw [if_neg (by rw [h15, sleepTime_fifteen] at hnow; omega)]
        omega
      · have hle := sleepTime_le_fourteen (show b.consecutiveFailures ≤ 14 by omega)
        have hfast := ht.1
        unfold maxSleepTime millisecond at *
        rw [if_pos (by omega)]
        omega
  have hsleep : sleepTime (k % 15 + 1) = periodicSleep (k + 1) := by
    rw [periodicSleep, Nat.add_sub_cancel, (sleepTime_eq (by omega)).2.2]
  have hpos := (sleepTime_bounds (show 1 ≤ k % 15 + 1 by omega) (show k % 15 + 1 ≤ 15 by omega)).1
  refine ⟨?_, nofun, fun _ => ⟨by rw [hcf]; simp, _, rfl, ?_⟩⟩
  · rw [iterate_sleeps, List.map_append, h.1, hcf, List.range_succ, List.map_append, hsleep]
    rfl
  · rw [iterate_now, hcf, ht.2]
    have : ((sleepTime (k % 15 + 1)).toNat : Int) = sleepTime (k % 15 + 1) :=
      Int.toNat_of_nonneg (by unfold millisecond at hpos; omega)
    push_cast
    omega

end Backoff

/-- **Backoff under quick failures.** When each failure comes within a millisecond of the end of
the previous sleep and sleeps are exact, the `k`-th sleep is `periodicSleep k`: the delays double
from 2 ms to 16.384 s, the 15th is capped at 30 s, and the 30 s sleep resets the counter, so the
16th is 2 ms again, with period 15. -/
theorem run_sleeps_fast (now : Nat) (ts : List Timing) (hts : ∀ t ∈ ts, t.Fast) :
    ((Backoff.init now).run ts).sleeps.map Prod.snd =
      (List.range ts.length).map fun k => periodicSleep (k + 1) := by
  suffices ∀ (b : Backoff) (k : Nat), b.FastAfter k → (b.run ts).FastAfter (k + ts.length) by
    simpa using (this (Backoff.init now) 0 ⟨rfl, fun _ => rfl, nofun⟩).1
  induction ts with
  | nil => exact fun b k h => h
  | cons t ts ih =>
    intro b k h
    have := ih (fun t' ht' => hts t' (List.mem_cons_of_mem _ ht')) _ _
      (h.iterate (hts t (List.mem_cons_self _ _)))
    rwa [List.length_cons, ← Nat.add_assoc, Nat.add_right_comm]

theorem run_sleeps_fast_sixteen :
    (∀ t ∈ List.replicate 16 (⟨0, 0, 0⟩ : Timing), t.Fast) ∧
      ((Backoff.init 0).run (List.replicate 16 ⟨0, 0, 0⟩)).sleeps.map Prod.snd =
        (List.range 16).map fun k => periodicSleep (k + 1) :=
  ⟨by decide, run_sleeps_fast 0 _ (by decide)⟩

/-- Sixteen failures in quick succession: the 16th sleep is 2 ms, not `min(2^16 ms, 30 s)`. -/
theorem run_sleeps_sixteen :
    ((Backoff.init 0).run (List.replicate 16 ⟨0, 0, 0⟩)).sleeps.getLast?.map Prod.snd =
        some (2 * millisecond) ∧
      min (2 ^ 16 * millisecond) maxSleepTime = maxSleepTime := by
  set_option maxRecDepth 4000 in decide

end UserServer
end TailFS
