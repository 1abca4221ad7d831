import TailFS.UserServer.Basic
import TailFS.UserServer.Scanner

/-!
# `runLoop` against `Close`

A user server's `runLoop` goroutine and one call to its `Close`, interleaved at the steps where
they touch shared state: each access under `s.mu`, the start of a child, the read of its
address line, its `Wait`, and the kill. Children exit on their own at any time (`Event.exit`),
and the output of each child is any byte string, any end of stream and any split into reads
(`Output`). `Supervisor` is the state; `Reachable` the states reachable under every schedule.

A child runs its command as `cmd.Process`; through `sudo`, the file server is a second process
that `sudo` forks, which the kill of `Close` does not reach (`Process.forked`).

* `reachable_alive`: a file server that is alive belongs to the child of the `run` in progress, to
  one that a `run` left running when its address read failed (`abandoned`), or to the child whose
  `sudo` `Close` killed.
* `reachable_closeKills`: when `Close` takes `s.mu` outside the window from the closed check of
  `runLoop` to its `s.cmd = cmd`, every `cmd.Process` still alive once `Close` returns was left
  running by a failed address read, and so was every live file server but the one `sudo` forked
  for the child `Close` killed.
* `closeRace_childSurvives`: when `Close` falls into that window, it returns with a child alive
  that no later step kills; and a failed address read leaves two children alive at once.
* `closeSudo_serverSurvives`: a `Close` that kills the `sudo` of the current child leaves the file
  server `sudo` forked running.
-/

namespace TailFS
namespace UserServer

open Scanner

/-- The state of a child process. -/
inductive ChildState
  | alive
  | exited
  | killed
  deriving DecidableEq, Repr

/-- What a child writes on its stdout: the bytes, how the stream goes on after them, and how
the pipe splits them into reads. -/
structure Output where
  sizes : Nat → Nat
  data : List UInt8
  ending : Ending

/-- A child process a `run` started: the state of `cmd.Process`; the state of the file server
that `sudo` forks when the command runs through `sudo`, and `none` when `cmd.Process` is the file
server itself; its output, the command it runs, and what `user.Current()` answered when it was
started. `sudo` waits for the file server it forks and exits with it, but a kill of `sudo` does
not reach it. A `sudo` that runs the file server in its own place is the case where the file
server exits as the kill comes. -/
structure Process where
  state : ChildState
  forked : Option ChildState
  output : Output
  command : GoString × List GoString
  startedBy : CurrentUser

/-- The state of the process that serves the files: the one `sudo` forked, or `cmd.Process`. -/
def Process.serverState (p : Process) : ChildState := p.forked.getD p.state

/-- A process that is alive exits. -/
def ChildState.exit : ChildState → ChildState
  | .alive => .exited
  | st => st

/-- The file server exits on its own, and `sudo`, which waits for it, exits with it. -/
def Process.exit (p : Process) : Process :=
  { p with state := p.state.exit, forked := p.forked.map ChildState.exit }

/-- Where `runLoop` is, with the child of the `run` in progress. -/
inductive LoopPc
  /-- Before the closed check under `s.mu.RLock()`. -/
  | top
  /-- `closed` was false: `run` builds its command, probes sudo and opens the pipes. -/
  | checked
  /-- `cmd.Start()` started child `k`; before `s.cmd = cmd`. -/
  | started (k : Nat)
  /-- `s.cmd` holds child `k`; the address line is being read. -/
  | reading (k : Nat)
  /-- The address of child `k` is stored; `cmd.Wait()`. -/
  | waiting (k : Nat)
  /-- `run` has returned; the backoff sleep. -/
  | sleeping
  /-- `runLoop` has returned. -/
  | returned
  deriving DecidableEq, Repr

/-- The child of the `run` in progress. -/
def LoopPc.child : LoopPc → Option Nat
  | .started k | .reading k | .waiting k => some k
  | _ => none

/-- The window from the closed check to `s.cmd = cmd`, where `Close` cannot see the child. -/
def LoopPc.InWindow : LoopPc → Prop
  | .checked | .started _ => True
  | _ => False

instance : DecidablePred LoopPc.InWindow
  | .checked | .started _ => isTrue trivial
  | .top | .reading _ | .waiting _ | .sleeping | .returned => isFalse id

/-- Where `Close` is: not called, past its critical section with the `cmd` it read, or returned. -/
inductive ClosePc
  | idle
  | killing (cmd : Option Nat)
  | done
  deriving DecidableEq, Repr

/-- A user server, its children by number, the two goroutines, and ghost state: the children a
failed address read left running, and where `runLoop` was and what `s.cmd` held when `Close`
took `s.mu`. -/
structure Supervisor where
  server : UserServer
  children : List Process
  loop : LoopPc
  close : ClosePc
  abandoned : List Nat
  lockedAt : LoopPc
  lockedCmd : Option Nat

/-- What happens next. -/
inductive Event
  /-- `runLoop` takes its next step. -/
  | loop
  /-- The rest of `run` up to `cmd.Start()`: `canSudo()` answers `canSudo`, `user.Current()`
  answers `current`, the pipes and `cmd.Start()` fail with `startErr` or not, and the child
  writes `output`. -/
  | start (canSudo : Bool) (current : CurrentUser) (startErr : Option RunError) (output : Output)
  /-- The critical section of `Close`. -/
  | closeLock
  /-- `cmd.Process.Kill()` in `Close`. -/
  | closeKill
  /-- The file server of child `k` exits on its own. -/
  | exit (k : Nat)

/-- `cmd.Process.Kill()` on the child `cmd`, if there is one: it kills `cmd.Process`, which is
`sudo` when the command runs through `sudo`, and not the file server `sudo` forked. -/
def kill (children : List Process) : Option Nat → List Process
  | none => children
  | some k =>
    children.modify (fun p => if p.state = .alive then { p with state := .killed } else p) k

/-- The file server of child `k` exits. -/
def exitChild (children : List Process) (k : Nat) : List Process :=
  children.modify Process.exit k

/-- A `runLoop` on a fresh user server, and no `Close` yet. -/
def Supervisor.init (u : UserServer) : Supervisor :=
  ⟨u, [], .top, .idle, [], .top, none⟩

section
variable (trimSpace : GoString → GoString)

/-- The next step of `runLoop`, where it does not wait on a choice of the environment. A read
that blocks and a `Wait` on a live child do not move. -/
def Supervisor.stepLoop (s : Supervisor) : Supervisor :=
  match s.loop with
  | .top => if s.server.closed then { s with loop := .returned } else { s with loop := .checked }
  | .started k => { s with server := { s.server with cmd := some k }, loop := .reading k }
  | .reading k =>
    match s.children[k]? with
    | none => s
    | some p =>
      match firstScan p.output.sizes p.output.data p.output.ending with
      | none => s
      | some scanned =>
        match readAddr trimSpace scanned with
        | .error _ => { s with loop := .sleeping, abandoned := s.abandoned ++ [k] }
        | .ok addr => { s with server := { s.server with addr }, loop := .waiting k }
  | .waiting k =>
    if (s.children[k]?.map (·.state)) = some .alive then s else { s with loop := .sleeping }
  | .sleeping => { s with loop := .top }
  | .checked | .returned => s

/-- One event; an event that is not enabled does nothing. -/
def Supervisor.step (s : Supervisor) : Event → Supervisor
  | .loop => s.stepLoop trimSpace
  | .start canSudo current startErr output =>
    if s.loop = .checked then
      match s.server.runCommand canSudo current, startErr with
      | .ok command, none =>
        { s with children := s.children ++
                   [⟨.alive, if canSudo then some .alive else none, output, command, current⟩],
                 loop := .started s.children.length }
      | _, _ => { s with loop := .sleeping }
    else s
  | .closeLock =>
    if s.close = .idle then
      { s with server := { s.server with closed := true }, close := .killing s.server.cmd,
               lockedAt := s.loop, lockedCmd := s.server.cmd }
    else s
  | .closeKill =>
    match s.close with
    | .killing cmd => { s with children := kill s.children cmd, close := .done }
    | _ => s
  | .exit k => { s with children := exitChild s.children k }

/-- The events `es`, in order. -/
def Supervisor.run (s : Supervisor) (es : List Event) : Supervisor :=
  es.foldl (Supervisor.step trimSpace) s

/-- The states of a user server made by `SetShares`, under every schedule and every behaviour of
its children. -/
inductive Reachable : Supervisor → Prop
  | init (shares : List Share) (username executable : GoString) :
    Reachable (.init { UserServer.new username executable with shares })
  | step {s : Supervisor} (e : Event) : Reachable s → Reachable (s.step trimSpace e)

theorem Reachable.run {s : Supervisor} (h : Reachable trimSpace s) (es : List Event) :
    Reachable trimSpace (s.run trimSpace es) := by
  induction es generalizing s with
  | nil => exact h
  | cons e es ih => exact ih (h.step e)

end

/-! ## Children, kills and exits -/

section
variable {children : List Process} {k j : Nat} {p : Process}

theorem getElem?_kill_of_ne (cmd : Option Nat) (h : cmd ≠ some j) :
    (kill children cmd)[j]? = children[j]? := by
  cases cmd with
  | none => rfl
  | some k =>
    have hk : k ≠ j := fun hk => h (congrArg some hk)
    simp [kill, List.getElem?_modify, hk]

/-- A kill leaves no child alive that was not alive, and the child it kills is not alive. -/
theorem getElem?_kill (cmd : Option Nat) (h : (kill children cmd)[j]? = some p) :
    ∃ q, children[j]? = some q ∧ (p.state = .alive → q.state = .alive ∧ cmd ≠ some j) := by
  cases cmd with
  | none => exact ⟨p, h, fun hp => ⟨hp, nofun⟩⟩
  | some k =>
    simp only [kill, List.getElem?_modify] at h
    obtain ⟨q, hq, rfl⟩ := Option.map_eq_some'.1 h
    refine ⟨q, hq, fun hp => ?_⟩
    split_ifs at hp with hk hq' <;> simp_all

theorem ChildState.exit_ne_alive (st : ChildState) : st.exit ≠ .alive := by
  cases st <;> decide

theorem ChildState.eq_killed_of_exit {st : ChildState} (h : st.exit = .killed) : st = .killed := by
  cases st <;> first | rfl | cases h

/-- After an exit, the file server and `cmd.Process` are not alive. -/
theorem Process.exit_serverState_ne_alive (p : Process) : p.exit.serverState ≠ .alive := by
  cases h : p.forked with
  | none => simpa [Process.serverState, Process.exit, h] using ChildState.exit_ne_alive p.state
  | some st => simpa [Process.serverState, Process.exit, h] using ChildState.exit_ne_alive st

/-- The child at `j` after an exit is as it was, or the one that exited. -/
theorem getElem?_exitChild_eq (h : (exitChild children k)[j]? = some p) :
    ∃ q, children[j]? = some q ∧ (p = q ∨ p = q.exit) := by
  simp only [exitChild, List.getElem?_modify] at h
  obtain ⟨q, hq, rfl⟩ := Option.map_eq_some'.1 h
  exact ⟨q, hq, by split <;> simp⟩

theorem getElem?_exitChild (h : (exitChild children k)[j]? = some p) :
    ∃ q, children[j]? = some q ∧ (p.state = .alive → q.state = .alive) := by
  obtain ⟨q, hq, rfl | rfl⟩ := getElem?_exitChild_eq h
  · exact ⟨_, hq, id⟩
  · exact ⟨q, hq, fun hal => absurd hal (ChildState.exit_ne_alive _)⟩

theorem length_kill (cmd : Option Nat) : (kill children cmd).length = children.length := by
  cases cmd <;> simp [kill]

theorem length_exitChild : (exitChild children k).length = children.length := by
  simp [exitChild]

/-- The child a kill targets: its `cmd.Process` is killed if it is alive. -/
theorem getElem?_kill_self (children : List Process) (k : Nat) :
    (kill children (some k))[k]? =
      children[k]?.map fun p => if p.state = .alive then { p with state := .killed } else p := by
  simp [kill, List.getElem?_modify]

/-- A position of a list with one element appended holds an old element or the new one. -/
theorem getElem?_concat_eq_some {l : List α} {a b : α} {j : Nat} (h : (l ++ [a])[j]? = some b) :
    l[j]? = some b ∨ b = a := by
  rcases lt_or_ge j l.length with hj | hj
  · exact .inl (by rwa [List.getElem?_append_left hj] at h)
  · rw [List.getElem?_append_right hj] at h
    obtain ⟨hlt, heq⟩ := List.getElem?_eq_some_iff.1 h
    exact .inr (heq.symm.trans (List.getElem_singleton a hlt))

/-- A kill makes no child killed but its target; an exit makes none killed. -/
theorem killed_kill (cmd : Option Nat) (h : (kill children cmd)[j]?.map (·.state) = some .killed) :
    children[j]?.map (·.state) = some .killed ∨ cmd = some j := by
  cases cmd with
  | none => exact .inl h
  | some k =>
    by_cases hk : k = j
    · exact .inr (hk ▸ rfl)
    · exact .inl (by rwa [getElem?_kill_of_ne _ (fun h => hk (Option.some.inj h))] at h)

theorem killed_exitChild (h : (exitChild children k)[j]?.map (·.state) = some .killed) :
    children[j]?.map (·.state) = some .killed := by
  obtain ⟨p, hp, hkilled⟩ := Option.map_eq_some'.1 h
  obtain ⟨q, hq, rfl | rfl⟩ := getElem?_exitChild_eq hp
  · simp [hq, hkilled]
  · simp [hq, ChildState.eq_killed_of_exit hkilled]

end

/-- Kills and exits change only the states of the processes of children. -/
theorem getElem?_modify_frame (children : List Process) {f : Process → Process}
    (hf : ∀ q, f q = { q with state := (f q).state, forked := (f q).forked }) (k i : Nat) :
    ∃ g : Process → Process, (children.modify f k)[i]? =
      children[i]?.map fun q => { q with state := (g q).state, forked := (g q).forked } := by
  refine ⟨fun q => if k = i then f q else q, ?_⟩
  rw [List.getElem?_modify]
  congr 1
  funext q
  split
  · exact hf q
  · rfl

theorem getElem?_kill_frame (children : List Process) (cmd : Option Nat) (i : Nat) :
    ∃ g : Process → Process, (kill children cmd)[i]? =
      children[i]?.map fun q => { q with state := (g q).state, forked := (g q).forked } := by
  cases cmd with
  | none => exact ⟨id, by rw [kill]; cases children[i]? <;> rfl⟩
  | some k => exact getElem?_modify_frame children (fun q => by split <;> rfl) k i

theorem getElem?_exitChild_frame (children : List Process) (k i : Nat) :
    ∃ g : Process → Process, (exitChild children k)[i]? =
      children[i]?.map fun q => { q with state := (g q).state, forked := (g q).forked } :=
  getElem?_modify_frame children (fun _ => rfl) k i

/-! ## What `runLoop` and `Close` keep -/

/-- **The invariant of a user server.** Every live `cmd.Process` is the child of the `run` in
progress or was abandoned; `s.cmd` holds the child whose address is read or waited on; `closed`
is set exactly when `Close` has taken `s.mu`; when it took `s.mu` outside the window, `runLoop`
never enters the window again and only works on the child `Close` kills, whose `cmd.Process` is
not alive once `Close` returns; and a live file server whose `cmd.Process` is not alive is the
one `sudo` forked for the child `Close` killed. -/
structure Supervisor.Inv (s : Supervisor) : Prop where
  alive : ∀ k p, s.children[k]? = some p → p.state = .alive → k ∈ s.abandoned ∨ s.loop.child = some k
  childLt : ∀ k, s.loop.child = some k → k < s.children.length
  cmdLt : ∀ k, s.server.cmd = some k → k < s.children.length
  lockedCmdLt : ∀ k, s.lockedCmd = some k → k < s.children.length
  cmd : ∀ k, (s.loop = .reading k ∨ s.loop = .waiting k) → s.server.cmd = some k
  closed : s.server.closed = true ↔ s.close ≠ .idle
  killing : ∀ cmd, s.close = .killing cmd → cmd = s.lockedCmd
  outside : s.close ≠ .idle → ¬ s.lockedAt.InWindow →
    ¬ s.loop.InWindow ∧ ∀ k, s.loop.child = some k → s.lockedCmd = some k
  killed : s.close = .done → ∀ k p, s.lockedCmd = some k → s.children[k]? = some p →
    p.state ≠ .alive
  startedCmd : ∀ k, s.loop = .started k → s.server.cmd ≠ some k
  window : s.close ≠ .idle → s.lockedAt.InWindow → ∀ k, s.loop.child = some k →
    s.lockedCmd ≠ some k
  orphan : ∀ k p, s.children[k]? = some p → p.serverState = .alive → p.state ≠ .alive →
    p.state = .killed ∧ s.lockedCmd = some k ∧ s.close = .done ∧
      (s.lockedAt.InWindow → k ∈ s.abandoned)

theorem Supervisor.inv_init (u : UserServer) (hcmd : u.cmd = none) (hclosed : u.closed = false) :
    (Supervisor.init u).Inv where
  alive _ _ h := nomatch h
  childLt _ h := nomatch h
  cmdLt _ h := nomatch hcmd.symm.trans h
  lockedCmdLt _ h := nomatch h
  cmd _ h := by simp [Supervisor.init] at h
  closed := by simp [Supervisor.init, hclosed]
  killing _ h := nomatch h
  outside h := absurd rfl h
  killed h := nomatch h
  startedCmd _ h := nomatch h
  window h := absurd rfl h
  orphan _ _ h := nomatch h

theorem LoopPc.published_of_not_inWindow {pc : LoopPc} {k : Nat} (hw : ¬ pc.InWindow)
    (hk : pc.child = some k) : pc = .reading k ∨ pc = .waiting k := by
  cases pc <;> simp_all [LoopPc.child, LoopPc.InWindow]

namespace Supervisor.Inv

variable {s : Supervisor} {k : Nat}

theorem alive_of_child_none (h : s.Inv) (hl : s.loop.child = none) :
    ∀ j p, s.children[j]? = some p → p.state = .alive → j ∈ s.abandoned := fun j p hp hal =>
  (h.alive j p hp hal).resolve_right (by simp [hl])

/-- `runLoop` moves to a point with no child, outside the window, with every live child
abandoned. -/
theorem setLoop (h : s.Inv) {pc : LoopPc} (hchild : pc.child = none) (hwin : ¬ pc.InWindow)
    (halive : ∀ j p, s.children[j]? = some p → p.state = .alive → j ∈ s.abandoned) :
    { s with loop := pc }.Inv where
  alive j p hp hal := .inl (halive j p hp hal)
  childLt j hj := by simp [hchild] at hj
  cmdLt := h.cmdLt
  lockedCmdLt := h.lockedCmdLt
  cmd j hj := by rcases hj with rfl | rfl <;> simp [LoopPc.child] at hchild
  closed := h.closed
  killing := h.killing
  outside _ _ := ⟨hwin, fun j hj => by simp [hchild] at hj⟩
  killed := h.killed
  startedCmd j hj := by
    rw [show pc = .started j from hj] at hchild
    cases hchild
  window _ _ j hj := by simp [hchild] at hj
  orphan := h.orphan

/-- The closed check finds `closed` false. -/
theorem check (h : s.Inv) (hl : s.loop = .top) (hclosed : s.server.closed = false) :
    { s with loop := .checked }.Inv where
  alive := fun j p hp hal => .inl (h.alive_of_child_none (by simp [hl, LoopPc.child]) j p hp hal)
  childLt j hj := by simp [LoopPc.child] at hj
  cmdLt := h.cmdLt
  lockedCmdLt := h.lockedCmdLt
  cmd j hj := by simp at hj
  closed := h.closed
  killing := h.killing
  outside hne := absurd (h.closed.2 hne) (by simp [hclosed])
  killed := h.killed
  startedCmd _ hj := nomatch hj
  window _ _ _ hj := nomatch hj
  orphan := h.orphan

/-- `cmd.Start()` starts a child. -/
theorem start (h : s.Inv) (hl : s.loop = .checked) {child : Process}
    (hchild : child.state = .alive) :
    { s with children := s.children ++ [child], loop := .started s.children.length }.Inv where
  alive j p hp hal := by
    rcases lt_or_ge j s.children.length with hj | hj
    · rw [List.getElem?_append_left hj] at hp
      exact .inl (h.alive_of_child_none (by simp [hl, LoopPc.child]) j p hp hal)
    · have hlt := (List.getElem?_eq_some_iff.1 hp).1
      simp only [List.length_append, List.length_singleton] at hlt
      exact .inr (by simp [LoopPc.child]; omega)
  childLt j hj := by simp [LoopPc.child] at hj; simp [hj]
  cmdLt j hj := by simpa using Nat.lt_succ_of_lt (h.cmdLt j hj)
  lockedCmdLt j hj := by simpa using Nat.lt_succ_of_lt (h.lockedCmdLt j hj)
  cmd j hj := by simp at hj
  closed := h.closed
  killing := h.killing
  outside hne hw := ((h.outside hne hw).1 (by rw [hl]; trivial)).elim
  killed hd j p hj hp := by
    rw [List.getElem?_append_left (h.lockedCmdLt j hj)] at hp
    exact h.killed hd j p hj hp
  startedCmd j hj hc := by
    simp only [LoopPc.started.injEq] at hj
    exact absurd (h.cmdLt j hc) (by omega)
  window _ _ j hj hc := by
    simp only [LoopPc.child, Option.some.injEq] at hj
    exact absurd (h.lockedCmdLt j hc) (by omega)
  orphan j p hp hs hna := (getElem?_concat_eq_some hp).elim (h.orphan j p · hs hna)
    fun hp => absurd (hp ▸ hchild) hna

/-- `s.cmd = cmd`: the child of `run` becomes visible to `Close`. -/
theorem publish (h : s.Inv) (hl : s.loop = .started k) :
    { s with server := { s.server with cmd := some k }, loop := .reading k }.Inv where
  alive j p hp hal := by simpa [hl, LoopPc.child] using h.alive j p hp hal
  childLt j hj := h.childLt j (by simpa [hl, LoopPc.child] using hj)
  cmdLt j hj := h.childLt j (by simp at hj; simp [hl, LoopPc.child, hj])
  lockedCmdLt := h.lockedCmdLt
  cmd j hj := by simp at hj; simp [hj]
  closed := h.closed
  killing := h.killing
  outside hne hw := ((h.outside hne hw).1 (by rw [hl]; trivial)).elim
  killed := h.killed
  startedCmd _ hj := nomatch hj
  window hne hw j hj := h.window hne hw j (by simpa [hl, LoopPc.child] using hj)
  orphan := h.orphan

/-- The address read fails: `run` returns with its child still running. -/
theorem abandon (h : s.Inv) (hl : s.loop = .reading k) :
    { s with loop := .sleeping, abandoned := s.abandoned ++ [k] }.Inv where
  alive j p hp hal := by
    rcases h.alive j p hp hal with hj | hj
    · exact .inl (List.mem_append_left _ hj)
    · simp only [hl, LoopPc.child, Option.some.injEq] at hj
      exact .inl (by simp [hj])
  childLt j hj := by simp [LoopPc.child] at hj
  cmdLt := h.cmdLt
  lockedCmdLt := h.lockedCmdLt
  cmd j hj := by simp at hj
  closed := h.closed
  killing := h.killing
  outside _ _ := ⟨id, fun j hj => by simp [LoopPc.child] at hj⟩
  killed := h.killed
  startedCmd _ hj := nomatch hj
  window _ _ _ hj := nomatch hj
  orphan j p hp hs hna := by
    obtain ⟨hk, hlocked, hdone, hwin⟩ := h.orphan j p hp hs hna
    exact ⟨hk, hlocked, hdone, fun hw => List.mem_append_left _ (hwin hw)⟩

/-- The address is stored, and `run` waits on its child. -/
theorem store (h : s.Inv) (hl : s.loop = .reading k) (addr : GoString) :
    { s with server := { s.server with addr }, loop := .waiting k }.Inv where
  alive j p hp hal := by simpa [hl, LoopPc.child] using h.alive j p hp hal
  childLt j hj := h.childLt j (by simpa [hl, LoopPc.child] using hj)
  cmdLt := h.cmdLt
  lockedCmdLt := h.lockedCmdLt
  cmd j hj := by
    simp only [reduceCtorEq, LoopPc.waiting.injEq, false_or] at hj
    exact hj ▸ h.cmd k (.inl hl)
  closed := h.closed
  killing := h.killing
  outside hne hw := by simpa [hl, LoopPc.InWindow, LoopPc.child] using h.outside hne hw
  killed := h.killed
  startedCmd _ hj := nomatch hj
  window hne hw j hj := h.window hne hw j (by simpa [hl, LoopPc.child] using hj)
  orphan := h.orphan

/-- `cmd.Wait()` returns once the child is not alive. -/
theorem waited (h : s.Inv) (hl : s.loop = .waiting k)
    (hk : (s.children[k]?.map (·.state)) ≠ some .alive) : { s with loop := .sleeping }.Inv := by
  refine h.setLoop rfl id fun j p hp hal => (h.alive j p hp hal).resolve_right fun hj => hk ?_
  simp only [hl, LoopPc.child, Option.some.injEq] at hj
  subst hj
  simp [hp, hal]

theorem stepLoop (trimSpace : GoString → GoString) (h : s.Inv) : (s.stepLoop trimSpace).Inv := by
  have none_child : ∀ pc : LoopPc, s.loop = pc → pc.child = none → ∀ j p,
      s.children[j]? = some p → p.state = .alive → j ∈ s.abandoned := fun _ hl hc =>
    h.alive_of_child_none (hl ▸ hc)
  cases hl : s.loop with
  | top =>
    simp only [Supervisor.stepLoop, hl]
    split
    · exact h.setLoop rfl id (none_child _ hl rfl)
    next hclosed => exact h.check hl (by simpa using hclosed)
  | checked => simpa [Supervisor.stepLoop, hl] using h
  | started k => simpa [Supervisor.stepLoop, hl] using h.publish hl
  | reading k =>
    simp only [Supervisor.stepLoop, hl]
    split
    · exact h
    · split
      · exact h
      · split
        · exact h.abandon hl
        · exact h.store hl _
  | waiting k =>
    simp only [Supervisor.stepLoop, hl]
    split
    · exact h
    · exact h.waited hl ‹_›
  | sleeping =>
    simp only [Supervisor.stepLoop, hl]
    exact h.setLoop rfl id (none_child _ hl rfl)
  | returned => simpa [Supervisor.stepLoop, hl] using h

/-- The critical section of `Close`. -/
theorem closeLock (h : s.Inv) (hidle : s.close = .idle) :
    { s with server := { s.server with closed := true }, close := .killing s.server.cmd,
             lockedAt := s.loop, lockedCmd := s.server.cmd }.Inv where
  alive := h.alive
  childLt := h.childLt
  cmdLt := h.cmdLt
  lockedCmdLt := h.cmdLt
  cmd := h.cmd
  closed := by simp
  killing _ hk := by cases hk; rfl
  outside _ hw := ⟨hw, fun j hj => h.cmd j (LoopPc.published_of_not_inWindow hw hj)⟩
  killed hd := nomatch hd
  startedCmd := h.startedCmd
  window _ hw j hj hc := by
    cases hl : s.loop with
    | started m =>
      simp only [hl, LoopPc.child, Option.some.injEq] at hj
      exact h.startedCmd _ (hj ▸ hl) hc
    | _ => simp [hl, LoopPc.InWindow, LoopPc.child] at hw hj
  orphan k p hp hs hna := absurd (h.orphan k p hp hs hna).2.2.1 (by simp [hidle])

/-- `Close` kills the child it read from `s.cmd`. -/
theorem closeKill (h : s.Inv) {cmd : Option Nat} (hc : s.close = .killing cmd) :
    { s with children := kill s.children cmd, close := .done }.Inv where
  alive j p hp hal := by
    obtain ⟨q, hq, hq'⟩ := getElem?_kill cmd hp
    exact h.alive j q hq (hq' hal).1
  childLt j hj := by simpa [length_kill] using h.childLt j hj
  cmdLt j hj := by simpa [length_kill] using h.cmdLt j hj
  lockedCmdLt j hj := by simpa [length_kill] using h.lockedCmdLt j hj
  cmd := h.cmd
  closed := by simpa using h.closed.2 (by simp [hc])
  killing _ hk := by cases hk
  outside _ hw := h.outside (by simp [hc]) hw
  killed _ j p hj hp hal := by
    obtain ⟨q, hq, hq'⟩ := getElem?_kill cmd hp
    exact (hq' hal).2 ((h.killing cmd hc).trans hj)
  startedCmd := h.startedCmd
  window _ hw := h.window (by simp [hc]) hw
  orphan j p hp hs hna := by
    have hbusy : s.close ≠ .done := by simp [hc]
    by_cases hj : cmd = some j
    · subst hj
      rw [getElem?_kill_self] at hp
      obtain ⟨q, hq, rfl⟩ := Option.map_eq_some'.1 hp
      by_cases hal : q.state = .alive
      · have hlocked := (h.killing _ hc).symm
        refine ⟨by simp [hal], hlocked, rfl, fun hw => ?_⟩
        exact (h.alive j q hq hal).resolve_right fun hk => h.window (by simp [hc]) hw j hk hlocked
      · simp only [hal, if_false] at hs hna
        exact absurd (h.orphan j q hq hs hna).2.2.1 hbusy
    · rw [getElem?_kill_of_ne _ hj] at hp
      exact absurd (h.orphan j p hp hs hna).2.2.1 hbusy

/-- A child exits on its own. -/
theorem exit (h : s.Inv) (k : Nat) : { s with children := exitChild s.children k }.Inv where
  alive j p hp hal := by
    obtain ⟨q, hq, hq'⟩ := getElem?_exitChild hp
    exact h.alive j q hq (hq' hal)
  childLt j hj := by simpa [length_exitChild] using h.childLt j hj
  cmdLt j hj := by simpa [length_exitChild] using h.cmdLt j hj
  lockedCmdLt j hj := by simpa [length_exitChild] using h.lockedCmdLt j hj
  cmd := h.cmd
  closed := h.closed
  killing := h.killing
  outside := h.outside
  killed hd j p hj hp hal := by
    obtain ⟨q, hq, hq'⟩ := getElem?_exitChild hp
    exact h.killed hd j q hj hq (hq' hal)
  startedCmd := h.startedCmd
  window := h.window
  orphan j p hp hs hna := by
    obtain ⟨q, hq, rfl | rfl⟩ := getElem?_exitChild_eq hp
    · exact h.orphan j _ hq hs hna
    · exact absurd hs (Process.exit_serverState_ne_alive q)

/-- **Every event keeps the invariant.** -/
theorem step (trimSpace : GoString → GoString) (h : s.Inv) (e : Event) :
    (s.step trimSpace e).Inv := by
  cases e with
  | loop => exact h.stepLoop trimSpace
  | start canSudo current startErr output =>
    simp only [Supervisor.step]
    split
    · next hl =>
      split
      · exact h.start hl rfl
      · exact h.setLoop rfl id (h.alive_of_child_none (by simp [hl, LoopPc.child]))
    · exact h
  | closeLock =>
    simp only [Supervisor.step]
    split
    · exact h.closeLock ‹_›
    · exact h
  | closeKill =>
    simp only [Supervisor.step]
    split
    · exact h.closeKill ‹_›
    · exact h
  | exit k => exact h.exit k

end Supervisor.Inv

section
variable {trimSpace : GoString → GoString}

theorem Reachable.inv {s : Supervisor} (h : Reachable trimSpace s) : s.Inv := by
  induction h with
  | init => exact Supervisor.inv_init _ rfl rfl
  | step e _ ih => exact ih.step trimSpace e

/-- A live file server is one whose `cmd.Process` is alive, the child of the `run` in progress or
an abandoned one, or the one `sudo` forked for the child `Close` killed. -/
theorem Supervisor.Inv.server_alive {s : Supervisor} (h : s.Inv) {k : Nat} {p : Process}
    (hp : s.children[k]? = some p) (hs : p.serverState = .alive) :
    (p.state = .alive ∧ (k ∈ s.abandoned ∨ s.loop.child = some k)) ∨
      p.state = .killed ∧ s.lockedCmd = some k ∧ s.close = .done ∧
        (s.lockedAt.InWindow → k ∈ s.abandoned) := by
  by_cases hal : p.state = .alive
  · exact .inl ⟨hal, h.alive k p hp hal⟩
  · exact .inr (h.orphan k p hp hs hal)

/-- With no failed read, a live file server is the child of the `run` in progress, or the one
`sudo` forked for the child `Close` killed after taking `s.mu` outside the window. -/
theorem Supervisor.Inv.server_alive_of_abandoned_nil {s : Supervisor} (h : s.Inv)
    (hnone : s.abandoned = []) {k : Nat} {p : Process} (hp : s.children[k]? = some p)
    (hs : p.serverState = .alive) :
    s.loop.child = some k ∨ s.lockedCmd = some k ∧ s.close ≠ .idle ∧ ¬ s.lockedAt.InWindow := by
  rcases h.server_alive hp hs with ⟨-, hab | hk⟩ | ⟨-, hlocked, hdone, hwin⟩
  · simp [hnone] at hab
  · exact .inl hk
  · exact .inr ⟨hlocked, by simp [hdone], fun hw => by simpa [hnone] using hwin hw⟩

/-- **Live file servers.** Under every schedule, a file server that is alive belongs to the child
of the `run` in progress, to one a `run` left running when its address read failed, or to the
child whose `sudo` `Close` killed: the kill does not reach the file server `sudo` forked. With no
failed read, at most one file server is alive. -/
theorem reachable_alive {s : Supervisor} (h : Reachable trimSpace s) :
    (∀ k p, s.children[k]? = some p → p.serverState = .alive →
      k ∈ s.abandoned ∨ s.loop.child = some k ∨
        p.state = .killed ∧ s.lockedCmd = some k ∧ s.close = .done) ∧
    (s.abandoned = [] → ∀ (k k' : Nat) (p p' : Process), s.children[k]? = some p →
      s.children[k']? = some p' → p.serverState = .alive → p'.serverState = .alive → k = k') := by
  have hinv := h.inv
  refine ⟨fun k p hp hs => ?_, fun hnone k k' p p' hp hp' hs hs' => ?_⟩
  · rcases hinv.server_alive hp hs with ⟨-, hk⟩ | ⟨hkilled, hlocked, hdone, -⟩
    · exact hk.elim .inl (.inr ∘ .inl)
    · exact .inr (.inr ⟨hkilled, hlocked, hdone⟩)
  · have current : ∀ {j j'}, s.loop.child = some j →
        s.lockedCmd = some j' ∧ s.close ≠ .idle ∧ ¬ s.lockedAt.InWindow → j = j' :=
      fun hj ⟨hlocked, hne, hwin⟩ =>
        Option.some.inj (((hinv.outside hne hwin).2 _ hj).symm.trans hlocked)
    rcases hinv.server_alive_of_abandoned_nil hnone hp hs with hk | hk <;>
      rcases hinv.server_alive_of_abandoned_nil hnone hp' hs' with hk' | hk'
    · exact Option.some.inj (hk.symm.trans hk')
    · exact current hk hk'
    · exact (current hk' hk).symm
    · exact Option.some.inj (hk.1.symm.trans hk'.1)

/-- What `Close` leaves when it has returned after taking `s.mu` outside the window. -/
theorem Supervisor.Inv.closedOutside {s : Supervisor} (hinv : s.Inv) (hdone : s.close = .done)
    (hwin : ¬ s.lockedAt.InWindow) :
    ∀ k p, s.children[k]? = some p →
      (p.state = .alive → k ∈ s.abandoned) ∧
      (p.serverState = .alive → k ∈ s.abandoned ∨
        s.lockedCmd = some k ∧ p.state = .killed ∧ p.forked = some .alive) := by
  have processAlive : ∀ k p, s.children[k]? = some p → p.state = .alive → k ∈ s.abandoned :=
    fun k p hp hal => (hinv.alive k p hp hal).resolve_right fun hk =>
      hinv.killed hdone k p ((hinv.outside (by simp [hdone]) hwin).2 k hk) hp hal
  refine fun k p hp => ⟨processAlive k p hp, fun hs => ?_⟩
  rcases hinv.server_alive hp hs with ⟨hal, -⟩ | ⟨hkilled, hlocked, -⟩
  · exact .inl (processAlive k p hp hal)
  · refine .inr ⟨hlocked, hkilled, ?_⟩
    cases hf : p.forked with
    | none => simp [Process.serverState, hf, hkilled] at hs
    | some st => simpa [Process.serverState, hf] using hs

/-- **What `Close` leaves when it locks outside the window.** When `Close` takes `s.mu` while
`runLoop` is not between its closed check and `s.cmd = cmd`, then once `Close` returns every
`cmd.Process` still alive is one a failed address read left running, and so is every live file
server but one: the file server `sudo` forked for the child `Close` killed, which the kill of
`sudo` does not reach. -/
theorem reachable_closeKills {s : Supervisor} (h : Reachable trimSpace s) (hdone : s.close = .done)
    (hwin : ¬ s.lockedAt.InWindow) :
    ∀ k p, s.children[k]? = some p →
      (p.state = .alive → k ∈ s.abandoned) ∧
      (p.serverState = .alive → k ∈ s.abandoned ∨
        s.lockedCmd = some k ∧ p.state = .killed ∧ p.forked = some .alive) :=
  h.inv.closedOutside hdone hwin

end

/-- Bob, a current user who is not root. -/
def bob : CurrentUser := .user (GoString.ofString "1000") (GoString.ofString "bob")

/-- A fresh user server of bob with no shares. -/
def bobServer : Supervisor := .init { UserServer.new (GoString.ofString "bob") [] with shares := [] }

/-- Bob's user server: its first child runs directly, writes its address and exits; its second
runs through `sudo`, is published in `s.cmd`, and `Close` then runs to its end. -/
def sudoChildClosed : List Event :=
  [.loop, .start false bob none ⟨fun _ => 1, GoString.ofString "1:2\n", .eof⟩,
    .loop, .loop, .exit 0, .loop, .loop, .loop,
    .start true bob none ⟨fun _ => 1, [], .stalled⟩,
    .loop, .closeLock, .closeKill]

theorem reachable_alive_sudoChildClosed :
    let s := bobServer.run id sudoChildClosed
    Reachable id s ∧
      (∀ k p, s.children[k]? = some p → p.serverState = .alive →
        k ∈ s.abandoned ∨ s.loop.child = some k ∨
          p.state = .killed ∧ s.lockedCmd = some k ∧ s.close = .done) ∧
      (s.abandoned = [] → ∀ (k k' : Nat) (p p' : Process), s.children[k]? = some p →
        s.children[k']? = some p' → p.serverState = .alive → p'.serverState = .alive → k = k') :=
  ⟨(Reachable.init [] _ _).run id _, reachable_alive ((Reachable.init [] _ _).run id _)⟩

theorem reachable_closeKills_sudoChildClosed :
    let s := bobServer.run id sudoChildClosed
    Reachable id s ∧ s.close = .done ∧ ¬ s.lockedAt.InWindow ∧
      ∀ k p, s.children[k]? = some p →
        (p.state = .alive → k ∈ s.abandoned) ∧
        (p.serverState = .alive → k ∈ s.abandoned ∨
          s.lockedCmd = some k ∧ p.state = .killed ∧ p.forked = some .alive) :=
  ⟨(Reachable.init [] _ _).run id _, rfl, by decide,
    reachable_closeKills ((Reachable.init [] _ _).run id _) rfl (by decide)⟩

/-! ## Three ways a child outlives `Close` -/

theorem stepLoop_children (trimSpace : GoString → GoString) (s : Supervisor) :
    (s.stepLoop trimSpace).children = s.children ∧ (s.stepLoop trimSpace).close = s.close := by
  unfold Supervisor.stepLoop
  split <;> (try split) <;> (try split) <;> (try split) <;> exact ⟨rfl, rfl⟩

/-- The read of the address line stores what `addrAfterRead` gives, and leaves `s.addr` as it was
while the read blocks. -/
theorem stepLoop_addr (trimSpace : GoString → GoString) {s : Supervisor} {k : Nat} {p : Process}
    (hl : s.loop = .reading k) (hp : s.children[k]? = some p) :
    (s.stepLoop trimSpace).server.addr =
      (addrAfterRead trimSpace p.output.sizes p.output.data p.output.ending s.server.addr).getD
        s.server.addr := by
  simp only [Supervisor.stepLoop, hl, hp, addrAfterRead]
  cases firstScan p.output.sizes p.output.data p.output.ending with
  | none => rfl
  | some scanned =>
    simp only [Option.map_some', Option.getD_some]
    cases readAddr trimSpace scanned <;> rfl

/-- Once `Close` has returned, no event kills a child. -/
theorem step_killed (trimSpace : GoString → GoString) {s : Supervisor} (hdone : s.close = .done)
    (e : Event) (k : Nat) :
    (s.step trimSpace e).close = .done ∧
      (((s.step trimSpace e).children[k]?.map (·.state)) = some .killed →
        (s.children[k]?.map (·.state)) = some .killed) := by
  cases e with
  | loop =>
    obtain ⟨hchildren, hclose⟩ := stepLoop_children trimSpace s
    exact ⟨hclose.trans hdone, fun hk => by rwa [Supervisor.step, hchildren] at hk⟩
  | start canSudo current startErr output =>
    simp only [Supervisor.step]
    split
    · split
      · refine ⟨hdone, fun hk => ?_⟩
        rcases lt_or_ge k s.children.length with hlt | hge
        · rwa [List.getElem?_append_left hlt] at hk
        · rw [List.getElem?_append_right hge] at hk
          cases hj : k - s.children.length <;> simp [hj] at hk
      · exact ⟨hdone, id⟩
    · exact ⟨hdone, id⟩
  | closeLock => simp [Supervisor.step, hdone]
  | closeKill => simp [Supervisor.step, hdone]
  | exit j => exact ⟨hdone, killed_exitChild⟩

theorem run_killed (trimSpace : GoString → GoString) (es : List Event) :
    ∀ {s : Supervisor}, s.close = .done → ∀ k : Nat,
      ((s.run trimSpace es).children[k]?.map (·.state)) = some .killed →
        (s.children[k]?.map (·.state)) = some .killed := by
  induction es with
  | nil => exact fun _ _ hk => hk
  | cons e es ih =>
    intro s hdone k hk
    obtain ⟨hdone', hstep⟩ := step_killed trimSpace hdone e k
    exact hstep (ih hdone' k hk)

/-- **`Close` can return with a child alive, and two children can be alive.** On a fresh user
server, whatever the children write: if `runLoop` passes its closed check, then `Close` runs to
its end, then `run` starts its child, `Close` has returned, the child is alive, and no later step
kills it. And if the first child's stdout fails before a byte, `run` returns with that child
running and the next iteration starts a second one. -/
theorem closeRace_childSurvives (trimSpace : GoString → GoString) (shares : List Share)
    (username executable : GoString) (current : CurrentUser) (output : Output)
    (sizes : Nat → Nat) (err : Nat) :
    (let s := (Supervisor.init { UserServer.new username executable with shares }).run trimSpace
      [.loop, .closeLock, .closeKill, .start true current none output]
    Reachable trimSpace s ∧ s.close = .done ∧ s.children.map (·.state) = [.alive] ∧
      ∀ es, ((s.run trimSpace es).children[0]?.map (·.state)) ≠ some .killed) ∧
    (let s := (Supervisor.init { UserServer.new username executable with shares }).run trimSpace
      [.loop, .start true current none ⟨sizes, [], .error err⟩, .loop, .loop, .loop, .loop,
        .start true current none output]
    Reachable trimSpace s ∧ s.children.map (·.state) = [.alive, .alive]) := by
  refine ⟨⟨(Reachable.init _ _ _).run trimSpace _, rfl, rfl, fun es hk => ?_⟩,
    (Reachable.init _ _ _).run trimSpace _, ?_⟩
  · have := run_killed trimSpace es rfl 0 hk
    simp [Supervisor.run, Supervisor.step, Supervisor.stepLoop, Supervisor.init, kill,
      UserServer.new, UserServer.runCommand] at this
  · simp only [Supervisor.run, List.foldl_cons, List.foldl_nil, Supervisor.init, Supervisor.step,
      Supervisor.stepLoop, UserServer.new, UserServer.runCommand, if_true, if_false,
      Bool.false_eq_true]
    rfl

section
variable (trimSpace : GoString → GoString)

end

/-! ## Every child runs as its user -/

/-- The commands of the children: each runs the command of the user server through `sudo`, or
the executable itself, started by a user whose UID is not 0. -/
def Supervisor.CommandsOk (s : Supervisor) : Prop :=
  ∀ (k : Nat) (p : Process), s.children[k]? = some p →
    p.command = s.server.command true ∨
      p.command = s.server.command false ∧
        ∃ uid name, p.startedBy = .user uid name ∧ uid ≠ GoString.ofString "0"

theorem step_command (trimSpace : GoString → GoString) (s : Supervisor) (e : Event) (b : Bool) :
    (s.step trimSpace e).server.command b = s.server.command b := by
  cases e <;> simp only [Supervisor.step, Supervisor.stepLoop] <;> (repeat' split) <;> rfl

theorem Supervisor.CommandsOk.step (trimSpace : GoString → GoString) {s : Supervisor}
    (h : s.CommandsOk) (e : Event) : (s.step trimSpace e).CommandsOk := by
  intro k p hp
  rw [step_command, step_command]
  cases e with
  | loop => exact h k p (by rwa [Supervisor.step, (stepLoop_children trimSpace s).1] at hp)
  | start canSudo current startErr output =>
    simp only [Supervisor.step] at hp
    split at hp
    · split at hp
      · next command hcmd =>
        rcases lt_or_ge k s.children.length with hlt | hge
        · exact h k p (by rwa [List.getElem?_append_left hlt] at hp)
        · rw [List.getElem?_append_right hge] at hp
          cases hj : k - s.children.length with
          | succ n => simp [hj] at hp
          | zero =>
            simp only [hj, List.getElem?_cons_zero, Option.some.injEq] at hp
            subst hp
            rcases UserServer.runCommand_ok hcmd with ⟨-, hc⟩ | ⟨-, hc, huser⟩
            · exact .inl hc
            · exact .inr ⟨hc, huser⟩
      · exact h k p hp
    · exact h k p hp
  | closeLock =>
    simp only [Supervisor.step] at hp
    split at hp <;> exact h k p hp
  | closeKill =>
    simp only [Supervisor.step] at hp
    split at hp
    · next cmd _ =>
      obtain ⟨g, hg⟩ := getElem?_kill_frame s.children cmd k
      obtain ⟨q, hq, rfl⟩ := Option.map_eq_some'.1 (hg ▸ hp)
      exact h k q hq
    · exact h k p hp
  | exit j =>
    obtain ⟨g, hg⟩ := getElem?_exitChild_frame s.children j k
    obtain ⟨q, hq, rfl⟩ := Option.map_eq_some'.1 (hg ▸ hp)
    exact h k q hq

theorem Reachable.commandsOk {trimSpace : GoString → GoString} {s : Supervisor}
    (h : Reachable trimSpace s) : s.CommandsOk := by
  induction h with
  | init => exact fun _ _ h => nomatch h
  | step e _ ih => exact ih.step trimSpace e


/-! ## Where an address comes from -/

/-- The address `run` stores from the stdout of the child `p`: the trimmed first line, when the
first `Scan` returns and `Err()` reports no error. -/
def Process.address (trimSpace : GoString → GoString) (p : Process) : Option GoString :=
  (firstScan p.output.sizes p.output.data p.output.ending).bind fun scanned =>
    (readAddr trimSpace scanned).toOption

/-- The address of a user server is the empty one it starts with, or one it read from a child. -/
def Supervisor.AddrFrom (trimSpace : GoString → GoString) (s : Supervisor) : Prop :=
  s.server.addr = [] ∨
    ∃ (k : Nat) (p : Process), s.children[k]? = some p ∧ p.address trimSpace = some s.server.addr

section
variable (trimSpace : GoString → GoString)

/-- No event removes a child, or changes anything of it but the states of its processes. -/
theorem step_getElem?_children {s : Supervisor} (e : Event) {k : Nat} {p : Process}
    (hp : s.children[k]? = some p) :
    ∃ st fk, (s.step trimSpace e).children[k]? = some { p with state := st, forked := fk } := by
  cases e with
  | loop => exact ⟨p.state, p.forked, by rw [Supervisor.step, (stepLoop_children trimSpace s).1, hp]⟩
  | start canSudo current startErr output =>
    simp only [Supervisor.step]
    split
    · split
      · exact ⟨p.state, p.forked,
          by rw [List.getElem?_append_left (List.getElem?_eq_some_iff.1 hp).1, hp]⟩
      · exact ⟨p.state, p.forked, hp⟩
    · exact ⟨p.state, p.forked, hp⟩
  | closeLock =>
    simp only [Supervisor.step]
    split <;> exact ⟨p.state, p.forked, hp⟩
  | closeKill =>
    simp only [Supervisor.step]
    split
    · next cmd _ =>
      obtain ⟨g, hg⟩ := getElem?_kill_frame s.children cmd k
      exact ⟨(g p).state, (g p).forked, by rw [hg, hp]; rfl⟩
    · exact ⟨p.state, p.forked, hp⟩
  | exit j =>
    obtain ⟨g, hg⟩ := getElem?_exitChild_frame s.children j k
    exact ⟨(g p).state, (g p).forked, by rw [Supervisor.step, hg, hp]; rfl⟩

/-- A step keeps the address, or is the read of the address line, which stores the address of
the child of the `run`. -/
theorem step_addr (s : Supervisor) (e : Event) :
    (s.step trimSpace e).server.addr = s.server.addr ∨
      ∃ (k : Nat) (p : Process), s.children[k]? = some p ∧
        p.address trimSpace = some (s.step trimSpace e).server.addr := by
  cases e with
  | loop =>
    cases hl : s.loop with
    | reading k =>
      cases hp : s.children[k]? with
      | none => exact .inl (by simp [Supervisor.step, Supervisor.stepLoop, hl, hp])
      | some p =>
        cases hscan : firstScan p.output.sizes p.output.data p.output.ending with
        | none => exact .inl (by simp [Supervisor.step, Supervisor.stepLoop, hl, hp, hscan])
        | some scanned =>
          cases hread : readAddr trimSpace scanned with
          | error => exact .inl (by simp [Supervisor.step, Supervisor.stepLoop, hl, hp, hscan, hread])
          | ok addr =>
            refine .inr ⟨k, p, hp, ?_⟩
            simp [Supervisor.step, Supervisor.stepLoop, Process.address, hl, hp, hscan, hread,
              Except.toOption]
    | _ => exact .inl (by simp only [Supervisor.step, Supervisor.stepLoop, hl] <;> (try split) <;> rfl)
  | _ => exact .inl (by simp only [Supervisor.step] <;> (repeat' split) <;> rfl)

theorem Supervisor.AddrFrom.step {s : Supervisor} (h : s.AddrFrom trimSpace) (e : Event) :
    (s.step trimSpace e).AddrFrom trimSpace := by
  rcases step_addr trimSpace s e with heq | ⟨k, p, hp, haddr⟩
  · rcases h with hnil | ⟨k, p, hp, haddr⟩
    · exact .inl (heq.trans hnil)
    · obtain ⟨st, fk, hst⟩ := step_getElem?_children trimSpace e hp
      exact .inr ⟨k, _, hst, heq ▸ haddr⟩
  · obtain ⟨st, fk, hst⟩ := step_getElem?_children trimSpace e hp
    exact .inr ⟨k, _, hst, haddr⟩

variable {trimSpace}

/-- Under every schedule, the address a user server holds is empty, as it starts, or the trimmed
first line of the stdout of one of its own children. -/
theorem Reachable.addrFrom {s : Supervisor} (h : Reachable trimSpace s) : s.AddrFrom trimSpace := by
  induction h with
  | init => exact .inl rfl
  | step e _ ih => exact ih.step trimSpace e

end

/-! ## After `closed` is set -/

/-- The children started, and one more while `runLoop` is between its closed check and
`cmd.Start()`. -/
def Supervisor.startBound (s : Supervisor) : Nat :=
  s.children.length + if s.loop = .checked then 1 else 0

section
variable (trimSpace : GoString → GoString)

/-- `runLoop` passes its closed check only when `closed` is false, and sets nothing but `cmd` and
`addr`. -/
theorem stepLoop_checked (s : Supervisor) :
    (s.stepLoop trimSpace).server.closed = s.server.closed ∧
      ((s.stepLoop trimSpace).loop = .checked →
        s.loop = .checked ∨ s.loop = .top ∧ s.server.closed = false) := by
  unfold Supervisor.stepLoop
  split <;> (repeat' split) <;> simp_all

theorem length_step_children (s : Supervisor) (e : Event) :
    s.children.length ≤ (s.step trimSpace e).children.length := by
  cases e with
  | loop => rw [Supervisor.step, (stepLoop_children trimSpace s).1]
  | _ => simp only [Supervisor.step]; (repeat' split) <;> simp [length_kill, length_exitChild]

/-- Once `closed` is set, it stays set and no event raises the bound. -/
theorem step_startBound {s : Supervisor} (hclosed : s.server.closed = true) (e : Event) :
    (s.step trimSpace e).server.closed = true ∧
      (s.step trimSpace e).startBound ≤ s.startBound := by
  cases e with
  | loop =>
    obtain ⟨hc, hchecked⟩ := stepLoop_checked trimSpace s
    refine ⟨hc.trans hclosed, ?_⟩
    simp only [Supervisor.step, Supervisor.startBound, (stepLoop_children trimSpace s).1]
    split_ifs with h₁ h₂ <;> simp_all
  | start canSudo current startErr output =>
    simp only [Supervisor.step]
    split
    · next hl => split <;> simp [Supervisor.startBound, hl, hclosed]
    · exact ⟨hclosed, le_rfl⟩
  | closeLock =>
    simp only [Supervisor.step]
    split
    · exact ⟨rfl, le_rfl⟩
    · exact ⟨hclosed, le_rfl⟩
  | closeKill =>
    simp only [Supervisor.step]
    split
    · exact ⟨hclosed, by simp [Supervisor.startBound, length_kill]⟩
    · exact ⟨hclosed, le_rfl⟩
  | exit k => exact ⟨hclosed, by simp [Supervisor.step, Supervisor.startBound, length_exitChild]⟩

theorem run_startBound (es : List Event) : ∀ {s : Supervisor}, s.server.closed = true →
    (s.run trimSpace es).server.closed = true ∧ (s.run trimSpace es).startBound ≤ s.startBound ∧
      s.children.length ≤ (s.run trimSpace es).children.length := by
  induction es with
  | nil => exact fun hclosed => ⟨hclosed, le_rfl, le_rfl⟩
  | cons e es ih =>
    intro s hclosed
    obtain ⟨hclosed', hbound⟩ := step_startBound trimSpace hclosed e
    obtain ⟨hclosed'', hbound', hlen⟩ := ih hclosed'
    exact ⟨hclosed'', hbound'.trans hbound, (length_step_children trimSpace s e).trans hlen⟩

/-- `runLoop` returns only from a closed check that finds `closed` set. -/
theorem step_loop_returned (s : Supervisor) (e : Event)
    (hret : (s.step trimSpace e).loop = .returned) :
    s.loop = .returned ∨ s.loop = .top ∧ s.server.closed = true := by
  cases e <;> simp only [Supervisor.step, Supervisor.stepLoop] at hret <;> (repeat' split at hret) <;>
    simp_all

variable {trimSpace}

/-- A `runLoop` that has returned belongs to a closed server. -/
theorem Reachable.returned_closed {s : Supervisor} (h : Reachable trimSpace s)
    (hret : s.loop = .returned) : s.server.closed = true := by
  induction h with
  | init => cases hret
  | step e _ ih =>
    rcases step_loop_returned trimSpace _ e hret with hl | ⟨-, hc⟩
    · exact (step_startBound trimSpace (ih hl) e).1
    · exact (step_startBound trimSpace hc e).1

/-- **`closed` stops the restarts.** Once `closed` is set, whatever happens next, `runLoop`
starts at most one more child, and that one only when it is already between its closed check and
`cmd.Start()`; it never passes the check again. -/
theorem closed_startsAtMostOne {s : Supervisor} (hclosed : s.server.closed = true)
    (es : List Event) :
    (s.run trimSpace es).children.length ≤ s.children.length + (if s.loop = .checked then 1 else 0) ∧
      ((s.run trimSpace es).loop = .checked →
        s.loop = .checked ∧ (s.run trimSpace es).children.length = s.children.length) := by
  obtain ⟨-, hbound, hlen⟩ := run_startBound trimSpace es hclosed
  simp only [Supervisor.startBound] at hbound
  refine ⟨by split_ifs at hbound ⊢ <;> omega, fun hchecked => ?_⟩
  simp only [hchecked, if_true] at hbound
  split_ifs at hbound with hl
  · exact ⟨hl, by omega⟩
  · omega

end

theorem closed_startsAtMostOne_race :
    let s := (Supervisor.init { UserServer.new [] [] with shares := [] }).run id [.loop, .closeLock]
    let es := [Event.start true (.user [49] []) none ⟨fun _ => 1, [], .eof⟩]
    s.server.closed = true ∧
      (s.run id es).children.length ≤ s.children.length + (if s.loop = .checked then 1 else 0) ∧
      ((s.run id es).loop = .checked →
        s.loop = .checked ∧ (s.run id es).children.length = s.children.length) :=
  ⟨rfl, closed_startsAtMostOne rfl _⟩


/-! ## What each event sets -/

/-- The events of `runLoop` and of the children; `Close` is called from outside the user server. -/
def Event.Own : Event → Prop
  | .closeLock | .closeKill => False
  | _ => True

instance : DecidablePred Event.Own
  | .closeLock | .closeKill => isFalse id
  | .loop | .start .. | .exit _ => isTrue trivial

section
variable (trimSpace : GoString → GoString)

/-- The steps of `runLoop` and of the children leave `Close` where it is, and set no field of the
server but `cmd` and `addr`. -/
theorem step_own (s : Supervisor) {e : Event} (he : e.Own) :
    (s.step trimSpace e).close = s.close ∧
      ∃ cmd addr, (s.step trimSpace e).server = { s.server with cmd, addr } := by
  cases e with
  | closeLock | closeKill => exact he.elim
  | loop =>
    refine ⟨(stepLoop_children trimSpace s).2, ?_⟩
    simp only [Supervisor.step]
    unfold Supervisor.stepLoop
    split <;> (repeat' split) <;> exact ⟨_, _, rfl⟩
  | start canSudo current startErr output =>
    simp only [Supervisor.step]
    split <;> (repeat' split) <;> exact ⟨rfl, _, _, rfl⟩
  | exit k => exact ⟨rfl, _, _, rfl⟩

/-- The critical section of `Close` sets `closed`, and leaves `Close` past its lock. -/
theorem step_closeLock {s : Supervisor} (h : s.Inv) :
    (s.step trimSpace .closeLock).server = { s.server with closed := true } ∧
      (s.step trimSpace .closeLock).close ≠ .idle := by
  simp only [Supervisor.step]
  split
  · exact ⟨rfl, nofun⟩
  · next hne =>
    refine ⟨?_, hne⟩
    calc s.server = { s.server with closed := s.server.closed } := rfl
      _ = { s.server with closed := true } := by rw [h.closed.2 hne]

/-- The kill of `Close` sets no field of the server, and returns from `Close` if it was past its
lock. -/
theorem step_closeKill (s : Supervisor) :
    (s.step trimSpace .closeKill).server = s.server ∧
      ((s.step trimSpace .closeKill).close = .idle ↔ s.close = .idle) ∧
      ∀ cmd, (s.step trimSpace .closeKill).close ≠ .killing cmd := by
  simp only [Supervisor.step]
  split
  · next hc => simp [hc]
  · next hne => exact ⟨rfl, Iff.rfl, hne⟩

end

end UserServer
end TailFS
