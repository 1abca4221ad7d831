import TailFS.UserServer.Backoff
import TailFS.UserServer.Lifecycle

/-!
# `runLoop` with its clock

`Lifecycle` models the control flow of `runLoop` against `Close` and the children, with no time;
`Backoff` models the arithmetic of its sleeps and the monotonic clock, with no children. `Timed`
runs the two together: every event of the supervisor, and at each wake-up from the backoff sleep
(`.sleeping` to `.top`) the iteration of `Backoff.iterate` that computed that sleep, with the
durations the environment chose for the parts of the iteration.

* `Timed.run_eq`: a timed run is a run of each model, the backoff taking one iteration per
  wake-up.
* `timed_restartRate`: under every schedule, every behaviour of the children and every timing,
  `runLoop` starts its first child at once and each later one only after waking from a sleep of
  at least 2 ms: the children are at most one more than the sleeps, and the clock has moved at
  least 2 ms per sleep.
-/

namespace TailFS
namespace UserServer

/-- A user server's goroutines, and the clock and the loop variables of its `runLoop`. -/
structure Timed where
  supervisor : Supervisor
  backoff : Backoff

/-- `runLoop` on a fresh user server, started at `now`. -/
def Timed.init (u : UserServer) (now : Nat) : Timed := ⟨.init u, .init now⟩

/-- The event wakes `runLoop` from its backoff sleep, which ends an iteration of the loop. -/
def Supervisor.Wakes (s : Supervisor) : Event → Prop
  | .loop => s.loop = .sleeping
  | _ => False

instance (s : Supervisor) : DecidablePred s.Wakes
  | .loop => inferInstanceAs (Decidable (s.loop = .sleeping))
  | .start .. | .closeLock | .closeKill | .exit _ => isFalse id

/-- Whether `runLoop` has its `cmd.Start()` ahead in the iteration it is in. -/
def LoopPc.startAhead : LoopPc → Nat
  | .top | .checked => 1
  | _ => 0

section
variable (trimSpace : GoString → GoString)

/-- One event, with the durations `t` of the parts of the iteration it ends if it is a wake-up. -/
def Timed.step (x : Timed) (e : Event) (t : Timing) : Timed :=
  ⟨x.supervisor.step trimSpace e, if x.supervisor.Wakes e then x.backoff.iterate t else x.backoff⟩

/-- The events `es`, in order, each with its durations. -/
def Timed.run (x : Timed) (es : List (Event × Timing)) : Timed :=
  es.foldl (fun x e => x.step trimSpace e.1 e.2) x

/-- The durations of the iterations that the wake-ups of `es`, run from `s`, end. -/
def wakeTimings : Supervisor → List (Event × Timing) → List Timing
  | _, [] => []
  | s, (e, t) :: es => (if s.Wakes e then [t] else []) ++ wakeTimings (s.step trimSpace e) es

/-- **A timed run is a run of each model.** The supervisor takes the events, and the backoff one
iteration per wake-up. -/
theorem Timed.run_eq (s : Supervisor) (b : Backoff) (es : List (Event × Timing)) :
    (⟨s, b⟩ : Timed).run trimSpace es =
      ⟨s.run trimSpace (es.map Prod.fst), b.run (wakeTimings trimSpace s es)⟩ := by
  induction es generalizing s b with
  | nil => rfl
  | cons et es ih =>
    obtain ⟨e, t⟩ := et
    show (Timed.step trimSpace ⟨s, b⟩ e t).run trimSpace es = _
    rw [Timed.step, ih]
    by_cases hw : s.Wakes e <;>
      simp [hw, wakeTimings, Supervisor.run, Backoff.run, Backoff.iterate]

/-! ## Starts against wake-ups -/

theorem stepLoop_startAhead (s : Supervisor) :
    (s.stepLoop trimSpace).loop.startAhead ≤
      s.loop.startAhead + if s.loop = .sleeping then 1 else 0 := by
  unfold Supervisor.stepLoop
  split <;> (repeat' split) <;> simp_all [LoopPc.startAhead]

/-- A `cmd.Start()` uses up the start ahead, and only a wake-up gives a new one. -/
theorem step_startAhead (s : Supervisor) (e : Event) :
    (s.step trimSpace e).children.length + (s.step trimSpace e).loop.startAhead ≤
      s.children.length + s.loop.startAhead + if s.Wakes e then 1 else 0 := by
  cases e with
  | loop =>
    have hloop := stepLoop_startAhead trimSpace s
    simp only [Supervisor.step, (stepLoop_children trimSpace s).1, Supervisor.Wakes]
    omega
  | start canSudo current startErr output =>
    simp only [Supervisor.step]
    split
    · next hl => split <;> simp [hl, LoopPc.startAhead, Supervisor.Wakes]
    · simp [Supervisor.Wakes]
  | closeLock => simp only [Supervisor.step]; split <;> simp [Supervisor.Wakes]
  | closeKill => simp only [Supervisor.step]; split <;> simp [length_kill, Supervisor.Wakes]
  | exit k => simp [Supervisor.step, length_exitChild, Supervisor.Wakes]

theorem run_startAhead (es : List (Event × Timing)) : ∀ s : Supervisor,
    (s.run trimSpace (es.map Prod.fst)).children.length +
        (s.run trimSpace (es.map Prod.fst)).loop.startAhead ≤
      s.children.length + s.loop.startAhead + (wakeTimings trimSpace s es).length := by
  induction es with
  | nil => exact fun s => le_rfl
  | cons et es ih =>
    intro s
    obtain ⟨e, t⟩ := et
    have hstep := step_startAhead trimSpace s e
    have hrest := ih (s.step trimSpace e)
    have hwake : (wakeTimings trimSpace s ((e, t) :: es)).length =
        (wakeTimings trimSpace (s.step trimSpace e) es).length + if s.Wakes e then 1 else 0 := by
      by_cases hw : s.Wakes e <;> simp [wakeTimings, hw]
    rw [List.map_cons, show s.run trimSpace (e :: es.map Prod.fst) =
      (s.step trimSpace e).run trimSpace (es.map Prod.fst) from rfl, hwake]
    omega

end

/-! ## The clock -/

namespace Backoff

/-- An iteration moves the clock by at least its sleep, which is at least 2 ms. -/
theorem Inv.le_iterate_now {b : Backoff} (h : b.Inv) (t : Timing) :
    (b.now : Int) + 2 * millisecond ≤ (b.iterate t).now := by
  obtain ⟨h1, h15⟩ := h.iterate_consecutiveFailures t
  have hsleep := (sleepTime_bounds h1 h15).1
  have htoNat : ((sleepTime (b.iterate t).consecutiveFailures).toNat : Int) =
      sleepTime (b.iterate t).consecutiveFailures :=
    Int.toNat_of_nonneg (by unfold millisecond at hsleep; omega)
  rw [iterate_now]
  push_cast
  omega

theorem Inv.run_now {b : Backoff} (h : b.Inv) (ts : List Timing) :
    (b.now : Int) + 2 * millisecond * ts.length ≤ (b.run ts).now ∧
      (b.run ts).sleeps.length = b.sleeps.length + ts.length := by
  induction ts generalizing b with
  | nil => simp [Backoff.run]
  | cons t ts ih =>
    obtain ⟨hnow, hlen⟩ := ih (h.iterate t)
    have hstep := h.le_iterate_now t
    rw [show b.run (t :: ts) = (b.iterate t).run ts from rfl, List.length_cons, hlen,
      iterate_sleeps, List.length_append, List.length_singleton]
    push_cast
    rw [Int.mul_add, Int.mul_one]
    constructor <;> omega

end Backoff

/-- **`runLoop` restarts at most once per 2 ms.** Under every schedule of `runLoop`, `Close` and
the children, every behaviour of the children and every duration of the parts of each iteration,
`runLoop` starts its first child at once and each later one only after waking from a backoff
sleep: the children started are at most one more than the sleeps, and at the last wake-up the
clock is at least 2 ms per sleep past the start. -/
theorem timed_restartRate (trimSpace : GoString → GoString) (u : UserServer) (now : Nat)
    (es : List (Event × Timing)) :
    ((Timed.init u now).run trimSpace es).supervisor.children.length ≤
        ((Timed.init u now).run trimSpace es).backoff.sleeps.length + 1 ∧
      (now : Int) + 2 * millisecond * ((Timed.init u now).run trimSpace es).backoff.sleeps.length ≤
        ((Timed.init u now).run trimSpace es).backoff.now := by
  rw [Timed.init, Timed.run_eq]
  have hcount := run_startAhead trimSpace es (.init u)
  obtain ⟨hnow, hlen⟩ := (Backoff.inv_init now).run_now (wakeTimings trimSpace (.init u) es)
  simp only [Supervisor.init, Backoff.init, LoopPc.startAhead, List.length_nil,
    Nat.zero_add] at hcount hnow hlen ⊢
  rw [hlen]
  exact ⟨by omega, hnow⟩

end UserServer
end TailFS
