import TailFS.Remote.Routing
import TailFS.UserServer.Lifecycle

/-!
# The file system with its user servers

`SetShares` starts a `runLoop` goroutine for every user server it makes, and the teardown loops of
`SetShares` and `Close` call `Close` on every user server they swap out. A `World` puts the two
models together: the file system with the calls in progress on it
(`TailFS.Remote.Interleaving`), and, for each user server on its heap, by heap index, its
`runLoop`, its `Close` and its children (`TailFS.UserServer.Lifecycle`). The teardown step of a
call on a user server is the critical section of that server's `Close`, and the call goes on only
once that `Close` has killed the child it read: `stopUserServers` waits for `server.Close()` to
return. The `runLoop`s and the children move at any time, and the file system sees the address a
`runLoop` stores.

* `step_toConfig`: a step of the world is no step or one allowed step of the file-system model, so
  the file system of a reachable world, with the calls in progress, is reached there by allowed
  events (`Reachable.toConfig`).
* `Inv`: the file system's heap is the supervisors' servers without `cmd`, which it never reads;
  each supervisor is reached in the model of one user server; the `Close` of a user server has
  taken its lock exactly when a teardown loop has called it, and has returned unless a call is
  inside it.
-/

namespace TailFS

open FileSystemForRemote
open UserServer (Supervisor step_own step_closeLock step_closeKill)

/-- A call in progress: its phase, and the user server whose `Close` it is inside, past the
critical section of that `Close` and before its kill. -/
structure Caller where
  call : Call
  closing : Option Nat

/-- The file system for remote, the calls in progress on it, and the `runLoop` and `Close` of every
user server on its heap, by heap index. -/
structure World where
  fs : FileSystemForRemote
  callers : List Caller
  supervisors : List Supervisor

namespace World

/-- What happens next: a caller starts a `SetShares` or a `Close`, the call at position `i` takes
a step, `SetFileServerAddr` runs, or the `runLoop` of the user server at `id`, or a child of it,
takes a step. -/
inductive Event
  | setShares (shares : GoMap GoString Share) (executable : Option GoString)
  | close
  | call (i : Nat)
  | setFileServerAddr (addr : GoString)
  | server (id : Nat) (e : UserServer.Event)

/-- The events that happen: `SetShares` is passed maps keyed by share name, and `userServer.Close`
runs only inside the teardown loops. -/
def Event.Allowed : Event → Prop
  | .setShares shares _ => Keyed shares
  | .server _ e => e.Own
  | _ => True

instance : DecidablePred Event.Allowed
  | .setShares shares _ => inferInstanceAs (Decidable (Keyed shares))
  | .server _ e => inferInstanceAs (Decidable e.Own)
  | .close | .call _ | .setFileServerAddr _ => isTrue trivial

section
variable (allowShareAs : Bool) (trimSpace : GoString → GoString)

/-- A step of the call at position `i`, outside any `userServer.Close`: the step of the file-system
model, with `go p.runLoop()` for every user server `SetShares` allocates, and in `stopUserServers`
the critical section of `server.Close()`. -/
def stepCall (w : World) (i : Nat) (call : Call) : World :=
  let r := FileSystemForRemote.stepCall allowShareAs w.fs call
  match call with
  | .setShares _ _ =>
    ⟨r.1, w.callers.set i ⟨r.2, none⟩,
      w.supervisors ++ (r.1.servers.drop w.fs.servers.length).map Supervisor.init⟩
  | .tearingDown (id :: _) _ =>
    ⟨r.1, w.callers.set i ⟨r.2, some id⟩,
      w.supervisors.modify (fun s => s.step trimSpace .closeLock) id⟩
  | _ => ⟨r.1, w.callers.set i ⟨r.2, none⟩, w.supervisors⟩

/-- One event. A position with no call does nothing, and a call inside a `userServer.Close` first
completes its kill. The file system's copy of a user server holds the address its `runLoop`
leaves. -/
def step (w : World) : Event → World
  | .setShares shares executable =>
    { w with callers := w.callers ++ [⟨.setShares shares executable, none⟩] }
  | .close => { w with callers := w.callers ++ [⟨.close, none⟩] }
  | .call i =>
    match w.callers[i]? with
    | none => w
    | some ⟨call, some id⟩ =>
      { w with callers := w.callers.set i ⟨call, none⟩
               supervisors := w.supervisors.modify (fun s => s.step trimSpace .closeKill) id }
    | some ⟨call, none⟩ => w.stepCall allowShareAs trimSpace i call
  | .setFileServerAddr addr => { w with fs := w.fs.setFileServerAddr addr }
  | .server id e =>
    { w with
      fs := w.fs.publish id
        ((w.supervisors[id]?.map fun s => (s.step trimSpace e).server.addr).getD [])
      supervisors := w.supervisors.modify (fun s => s.step trimSpace e) id }

/-- The events `es`, in order. -/
def run (w : World) (es : List Event) : World :=
  es.foldl (step allowShareAs trimSpace) w

/-- The worlds reachable from `NewFileSystemForRemote` under any schedule of the events that
happen. -/
inductive Reachable : World → Prop
  | new : Reachable ⟨FileSystemForRemote.new, [], []⟩
  | step {w : World} {e : Event} : Reachable w → e.Allowed →
    Reachable (w.step allowShareAs trimSpace e)

end

/-- What the file-system model sees of a world: the file system and the phases of the calls. -/
def toConfig (w : World) : Config := ⟨w.fs, w.callers.map Caller.call⟩

/-- A user server as the file system's heap holds it: the file system never reads `cmd`. -/
def heapServer (s : Supervisor) : UserServer := { s.server with cmd := none }

/-! ## Lists -/

section
variable {α β : Type}

theorem set_eq_self_of_getElem? {l : List α} {i : Nat} {a : α} (h : l[i]? = some a) :
    l.set i a = l := by
  apply List.ext_getElem?
  intro j
  rw [List.getElem?_set]
  split
  · next hij =>
    subst hij
    rw [if_pos (List.getElem?_eq_some_iff.1 h).1, h]
  · rfl

theorem getElem?_append_of_getElem? {l l' : List α} {i : Nat} {a : α} (h : l[i]? = some a) :
    (l ++ l')[i]? = some a := by
  rw [List.getElem?_append_left (List.getElem?_eq_some_iff.1 h).1, h]

/-- Changing one position commutes with a map that turns the change there into `f'`. -/
theorem map_modify_of {l : List α} {n : Nat} {f : α → α} {g : α → β} (f' : β → β)
    (h : ∀ a, l[n]? = some a → g (f a) = f' (g a)) :
    (l.modify f n).map g = (l.map g).modify f' n := by
  apply List.ext_getElem?
  intro i
  simp only [List.getElem?_map, List.getElem?_modify]
  rcases eq_or_ne n i with rfl | hi
  · cases hl : l[n]? with
    | none => simp [hl]
    | some a => simp [hl, h a hl]
  · simp [hi]

/-- Changing one position so that the map does not see it changes nothing under the map. -/
theorem map_modify_eq_self {l : List α} {n : Nat} {f : α → α} {g : α → β}
    (h : ∀ a, l[n]? = some a → g (f a) = g a) : (l.modify f n).map g = l.map g := by
  rw [map_modify_of id h, List.modify_id]

/-- What a position of a list changed at `n` holds. -/
theorem getElem?_modify_eq_some {l : List α} {f : α → α} {n j : Nat} {b : α}
    (h : (l.modify f n)[j]? = some b) : ∃ a, l[j]? = some a ∧ b = if n = j then f a else a := by
  rw [List.getElem?_modify] at h
  obtain ⟨a, ha, rfl⟩ := Option.map_eq_some'.1 h
  exact ⟨a, ha, rfl⟩

theorem mem_modify_of {l : List α} {n : Nat} {f : α → α} {b : α} (hb : b ∈ l.modify f n) :
    b ∈ l ∨ ∃ a ∈ l, b = f a := by
  obtain ⟨i, hi⟩ := List.getElem?_of_mem hb
  obtain ⟨a, ha, rfl⟩ := getElem?_modify_eq_some hi
  split
  · exact .inr ⟨a, List.getElem?_mem ha, rfl⟩
  · exact .inl (List.getElem?_mem ha)

end

/-! ## The file-system model sees a run of its own -/

section
variable (allowShareAs : Bool) (trimSpace : GoString → GoString)

theorem stepCall_toConfig (w : World) (i : Nat) (call : Call) :
    (w.stepCall allowShareAs trimSpace i call).toConfig =
      ⟨(FileSystemForRemote.stepCall allowShareAs w.fs call).1,
        (w.callers.map Caller.call).set i (FileSystemForRemote.stepCall allowShareAs w.fs call).2⟩ := by
  unfold stepCall
  split <;> simp [toConfig]

/-- **A step of the world is no step, or one allowed step, of the file-system model.** The kill
inside a `userServer.Close` and the steps of a `runLoop` that store no address leave what the
file-system model sees as it was; a stored address is a publication. -/
theorem step_toConfig (w : World) {e : Event} (he : e.Allowed) :
    (w.step allowShareAs trimSpace e).toConfig = w.toConfig ∨
      ∃ e' : FileSystemForRemote.Event, e'.Allowed ∧
        (w.step allowShareAs trimSpace e).toConfig = w.toConfig.step allowShareAs e' := by
  cases e with
  | setShares shares executable =>
    exact .inr ⟨.setShares shares executable, he, by simp [step, toConfig, Config.step]⟩
  | close => exact .inr ⟨.close, trivial, by simp [step, toConfig, Config.step]⟩
  | call i =>
    cases hi : w.callers[i]? with
    | none => exact .inl (by simp only [step, hi])
    | some c =>
      obtain ⟨call, closing⟩ := c
      cases closing with
      | some id =>
        refine .inl ?_
        simp only [step, hi, toConfig, List.map_set]
        rw [set_eq_self_of_getElem? (by simp [hi])]
      | none =>
        refine .inr ⟨.call i, trivial, ?_⟩
        simp only [step, hi]
        rw [stepCall_toConfig]
        simp [toConfig, Config.step, hi]
  | setFileServerAddr addr => exact .inr ⟨.setFileServerAddr addr, trivial, rfl⟩
  | server id e => exact .inr ⟨.publish id _, trivial, rfl⟩

variable {allowShareAs trimSpace}

/-- The file system of a reachable world, with its calls in progress, is reached by allowed events
in the file-system model. -/
theorem Reachable.toConfig {w : World} (h : Reachable allowShareAs trimSpace w) :
    ∃ es : List FileSystemForRemote.Event, (∀ e ∈ es, e.Allowed) ∧
      (⟨FileSystemForRemote.new, []⟩ : Config).run allowShareAs es = w.toConfig := by
  induction h with
  | new => exact ⟨[], (fun _ h => nomatch h), rfl⟩
  | @step w e _ he ih =>
    obtain ⟨es, hes, hrun⟩ := ih
    rcases w.step_toConfig allowShareAs trimSpace he with heq | ⟨e', he', heq⟩
    · exact ⟨es, hes, hrun.trans heq.symm⟩
    · refine ⟨es ++ [e'], fun e'' h'' => ?_, ?_⟩
      · rcases List.mem_append.1 h'' with h'' | h''
        · exact hes e'' h''
        · exact List.mem_singleton.1 h'' ▸ he'
      · rw [heq, ← hrun, Config.run, List.foldl_append]
        rfl

theorem Reachable.config {w : World} (h : Reachable allowShareAs trimSpace w) :
    Config.Reachable allowShareAs w.toConfig := by
  obtain ⟨es, -, hrun⟩ := h.toConfig
  exact hrun ▸ Config.Reachable.new.run es

theorem Reachable.configInv {w : World} (h : Reachable allowShareAs trimSpace w) :
    w.toConfig.Inv allowShareAs := by
  obtain ⟨es, hes, hrun⟩ := h.toConfig
  exact hrun ▸ (Config.inv_new allowShareAs).run hes

end

/-! ## The invariant of the world -/

/-- **The invariant of the world.** The heap of the file system is the servers of the supervisors
without `cmd`; every supervisor is a state of the model of one user server; the `Close` of a user
server has taken its lock exactly when a teardown loop has called it; a `Close` that has not
returned is one a call is inside; and a call that has returned is inside none. -/
structure Inv (trimSpace : GoString → GoString) (w : World) : Prop where
  heap : w.fs.servers = w.supervisors.map heapServer
  supervisors : ∀ s ∈ w.supervisors, UserServer.Reachable trimSpace s
  closeCalls : ∀ (id : Nat) (s : Supervisor), w.supervisors[id]? = some s →
    (s.close = .idle ↔ id ∉ w.fs.closeCalls)
  killing : ∀ (id : Nat) (s : Supervisor) (cmd : Option Nat), w.supervisors[id]? = some s →
    s.close = .killing cmd → ∃ (i : Nat) (c : Caller), w.callers[i]? = some c ∧ c.closing = some id
  returned : ∀ c ∈ w.callers, c.call = .done → c.closing = none

/-- The call at `i` moves, and it was not inside the `Close` of the user server `id`: whoever is
inside that `Close` still is. -/
theorem closing_set {callers : List Caller} {i id : Nat} {c₀ : Caller}
    (hi : callers[i]? = some c₀) (hne : c₀.closing ≠ some id) (c : Caller)
    (h : ∃ (j : Nat) (c' : Caller), callers[j]? = some c' ∧ c'.closing = some id) :
    ∃ (j : Nat) (c' : Caller), (callers.set i c)[j]? = some c' ∧ c'.closing = some id := by
  obtain ⟨j, c', hj, hcl⟩ := h
  have hij : i ≠ j := by
    rintro rfl
    exact hne (Option.some.inj (hi.symm.trans hj) ▸ hcl)
  exact ⟨j, c', by rw [List.getElem?_set, if_neg hij]; exact hj, hcl⟩

theorem returned_set {callers : List Caller} (h : ∀ c ∈ callers, c.call = .done → c.closing = none)
    {i : Nat} {c₁ : Caller} (h₁ : c₁.call = .done → c₁.closing = none) :
    ∀ c ∈ callers.set i c₁, c.call = .done → c.closing = none := fun c hc =>
  (List.mem_or_eq_of_mem_set hc).elim (h c) fun heq => heq ▸ h₁

namespace Inv

variable {trimSpace : GoString → GoString} {w : World}

/-- A caller starts a call. -/
theorem addCaller (h : w.Inv trimSpace) (call : Call) :
    ({ w with callers := w.callers ++ [⟨call, none⟩] } : World).Inv trimSpace where
  heap := h.heap
  supervisors := h.supervisors
  closeCalls := h.closeCalls
  killing id s cmd hs hk := by
    obtain ⟨i, c, hc, hclosing⟩ := h.killing id s cmd hs hk
    exact ⟨i, c, getElem?_append_of_getElem? hc, hclosing⟩
  returned c hc := (List.mem_append.1 hc).elim (h.returned c) fun hc =>
    (List.mem_singleton.1 hc) ▸ fun _ => rfl

/-- A step of a call, outside any `Close`, that changes neither the heap of user servers nor the
`Close` calls. -/
theorem quiet (h : w.Inv trimSpace) {i : Nat} {c₀ : Caller} (hi : w.callers[i]? = some c₀)
    (hnone : c₀.closing = none) {fs : FileSystemForRemote} (hservers : fs.servers = w.fs.servers)
    (hcalls : fs.closeCalls = w.fs.closeCalls) (call : Call) :
    (⟨fs, w.callers.set i ⟨call, none⟩, w.supervisors⟩ : World).Inv trimSpace where
  heap := hservers.trans h.heap
  supervisors := h.supervisors
  closeCalls j s hs := by
    rw [hcalls]
    exact h.closeCalls j s hs
  killing j s cmd hs hk := closing_set hi (by simp [hnone]) _ (h.killing j s cmd hs hk)
  returned := returned_set h.returned fun _ => rfl

/-- `SetShares` allocates fresh user servers, and starts a `runLoop` for each. -/
theorem grow (h : w.Inv trimSpace) {i : Nat} {c₀ : Caller} (hi : w.callers[i]? = some c₀)
    (hnone : c₀.closing = none) {fs : FileSystemForRemote} {fresh : List UserServer}
    (hservers : fs.servers = w.fs.servers ++ fresh)
    (hfresh : ∀ u ∈ fresh, ∃ a e sh, u = { UserServer.new a e with shares := sh })
    (hcalls : fs.closeCalls = w.fs.closeCalls)
    (hlt : ∀ id ∈ w.fs.closeCalls, id < w.fs.servers.length) (call : Call) :
    (⟨fs, w.callers.set i ⟨call, none⟩, w.supervisors ++ fresh.map Supervisor.init⟩ : World).Inv
      trimSpace where
  heap := by
    rw [hservers, h.heap, List.map_append, List.map_map]
    congr 1
    conv_lhs => rw [← List.map_id fresh]
    refine List.map_congr_left fun u hu => ?_
    obtain ⟨a, e, sh, rfl⟩ := hfresh u hu
    rfl
  supervisors s hs := by
    rcases List.mem_append.1 hs with hs | hs
    · exact h.supervisors s hs
    · obtain ⟨u, hu, rfl⟩ := List.mem_map.1 hs
      obtain ⟨a, e, sh, rfl⟩ := hfresh u hu
      exact .init sh a e
  closeCalls j s hs := by
    rw [hcalls]
    rcases lt_or_ge j w.supervisors.length with hj | hj
    · rw [List.getElem?_append_left hj] at hs
      exact h.closeCalls j s hs
    · rw [List.getElem?_append_right hj, List.getElem?_map] at hs
      obtain ⟨u, -, rfl⟩ := Option.map_eq_some'.1 hs
      have hlen : w.fs.servers.length = w.supervisors.length := by rw [h.heap, List.length_map]
      exact iff_of_true rfl fun hj' => absurd (hlt j hj') (by omega)
  killing j s cmd hs hk := by
    rcases lt_or_ge j w.supervisors.length with hj | hj
    · rw [List.getElem?_append_left hj] at hs
      exact closing_set hi (by simp [hnone]) _ (h.killing j s cmd hs hk)
    · rw [List.getElem?_append_right hj, List.getElem?_map] at hs
      obtain ⟨u, -, rfl⟩ := Option.map_eq_some'.1 hs
      cases hk
  returned := returned_set h.returned fun _ => rfl

/-- `stopUserServers` calls `server.Close()`, which takes the server's lock. -/
theorem closeLock (h : w.Inv trimSpace) {i id : Nat} {c₀ : Caller} (hi : w.callers[i]? = some c₀)
    (hnone : c₀.closing = none) {call : Call} (hcall : call ≠ .done) :
    (⟨w.fs.closeServer id, w.callers.set i ⟨call, some id⟩,
      w.supervisors.modify (fun s => s.step trimSpace .closeLock) id⟩ : World).Inv trimSpace where
  heap := by
    have hcomm : ∀ a, w.supervisors[id]? = some a →
        heapServer (a.step trimSpace .closeLock) = { heapServer a with closed := true } :=
      fun a ha => by
        rw [heapServer, (step_closeLock trimSpace (h.supervisors a (List.getElem?_mem ha)).inv).1]
        rfl
    simp only [closeServer, h.heap, @map_modify_of _ _ w.supervisors id
      (fun s => s.step trimSpace .closeLock) heapServer (fun u => { u with closed := true }) hcomm]
  supervisors s hs := (mem_modify_of hs).elim (h.supervisors s) fun ⟨a, ha, heq⟩ =>
    heq ▸ (h.supervisors a ha).step .closeLock
  closeCalls j s hs := by
    obtain ⟨a, ha, rfl⟩ := getElem?_modify_eq_some hs
    simp only [closeServer, List.mem_append, List.mem_singleton]
    split
    · next hj =>
      exact iff_of_false (step_closeLock trimSpace (h.supervisors a (List.getElem?_mem ha)).inv).2
        fun hj' => hj' (.inr hj.symm)
    · next hj =>
      have hj' : j ≠ id := fun e => hj e.symm
      simp only [h.closeCalls j a ha, hj', or_false]
  killing j s cmd hs hk := by
    obtain ⟨a, ha, rfl⟩ := getElem?_modify_eq_some hs
    split at hk
    · next hj =>
      exact ⟨i, _, List.getElem?_set_self (List.getElem?_eq_some_iff.1 hi).1, hj ▸ rfl⟩
    · exact closing_set hi (by simp [hnone]) _ (h.killing j a cmd ha hk)
  returned := returned_set h.returned fun hdone => absurd hdone hcall

/-- `server.Close()` kills the child it read, and returns. -/
theorem kill (h : w.Inv trimSpace) {i id : Nat} {call : Call}
    (hi : w.callers[i]? = some ⟨call, some id⟩) :
    ({ w with callers := w.callers.set i ⟨call, none⟩
              supervisors := w.supervisors.modify (fun s => s.step trimSpace .closeKill) id } :
      World).Inv trimSpace where
  heap := by
    rw [map_modify_eq_self fun a _ => by rw [heapServer, heapServer, (step_closeKill trimSpace a).1]]
    exact h.heap
  supervisors s hs := (mem_modify_of hs).elim (h.supervisors s) fun ⟨a, ha, heq⟩ =>
    heq ▸ (h.supervisors a ha).step .closeKill
  closeCalls j s hs := by
    obtain ⟨a, ha, rfl⟩ := getElem?_modify_eq_some hs
    split
    · exact (step_closeKill trimSpace a).2.1.trans (h.closeCalls j a ha)
    · exact h.closeCalls j a ha
  killing j s cmd hs hk := by
    obtain ⟨a, ha, rfl⟩ := getElem?_modify_eq_some hs
    split at hk
    · exact absurd hk ((step_closeKill trimSpace a).2.2 cmd)
    · next hj => exact closing_set hi (by simpa using hj) _ (h.killing j a cmd ha hk)
  returned := returned_set h.returned fun _ => rfl

/-- A step of a `runLoop` or of a child: the file system sees the address it leaves. -/
theorem server (h : w.Inv trimSpace) (id : Nat) {e : UserServer.Event} (he : e.Own) :
    ({ w with
      fs := w.fs.publish id
        ((w.supervisors[id]?.map fun s => (s.step trimSpace e).server.addr).getD [])
      supervisors := w.supervisors.modify (fun s => s.step trimSpace e) id } : World).Inv
        trimSpace where
  heap := by
    have hcomm : ∀ a, w.supervisors[id]? = some a → heapServer (a.step trimSpace e) =
        { heapServer a with
          addr := (w.supervisors[id]?.map fun s => (s.step trimSpace e).server.addr).getD [] } :=
      fun a ha => by
        obtain ⟨cmd, addr, hs⟩ := (step_own trimSpace a he).2
        simp only [ha, Option.map_some', Option.getD_some, heapServer, hs]
    simp only [publish, h.heap, @map_modify_of _ _ w.supervisors id (fun s => s.step trimSpace e)
      heapServer (fun u => { u with
        addr := (w.supervisors[id]?.map fun s => (s.step trimSpace e).server.addr).getD [] }) hcomm]
  supervisors s hs := (mem_modify_of hs).elim (h.supervisors s) fun ⟨a, ha, heq⟩ =>
    heq ▸ (h.supervisors a ha).step e
  closeCalls j s hs := by
    obtain ⟨a, ha, rfl⟩ := getElem?_modify_eq_some hs
    split
    · exact (step_own trimSpace a he).1 ▸ h.closeCalls j a ha
    · exact h.closeCalls j a ha
  killing j s cmd hs hk := by
    obtain ⟨a, ha, rfl⟩ := getElem?_modify_eq_some hs
    split at hk
    · exact h.killing j a cmd ha ((step_own trimSpace a he).1 ▸ hk)
    · exact h.killing j a cmd ha hk
  returned := h.returned

/-- Once every call has returned, no `Close` of a user server is between its lock and its kill. -/
theorem not_killing (h : w.Inv trimSpace) (hdone : ∀ c ∈ w.callers, c.call = .done) {id : Nat}
    {s : Supervisor} (hs : w.supervisors[id]? = some s) (cmd : Option Nat) :
    s.close ≠ .killing cmd := fun hk => by
  obtain ⟨i, c, hci, hcl⟩ := h.killing id s cmd hs hk
  have hc := List.getElem?_mem hci
  rw [h.returned c hc (hdone c hc)] at hcl
  cases hcl

variable (allowShareAs : Bool)

/-- A call, outside any `Close`, takes a step. -/
theorem stepCall (h : w.Inv trimSpace) (hl : Ledger w.fs (w.callers.map Caller.call)) {i : Nat}
    {call : Call} (hi : w.callers[i]? = some ⟨call, none⟩) :
    (w.stepCall allowShareAs trimSpace i call).Inv trimSpace := by
  match call with
  | .setShares shares executable =>
    rcases hb : w.fs.build allowShareAs shares executable with _ | ⟨fs₁, g⟩
    · simp only [World.stepCall, FileSystemForRemote.stepCall, hb, List.drop_length, List.map_nil,
        List.append_nil]
      exact h.quiet hi rfl rfl rfl _
    · obtain ⟨fresh, hservers, hfresh, hcalls⟩ := build_servers hb
      simp only [World.stepCall, FileSystemForRemote.stepCall, hb, hservers, List.drop_left]
      exact h.grow hi rfl hservers hfresh hcalls hl.closeCalls_lt _
  | .tearingDown (id :: servers) children => exact h.closeLock hi rfl nofun
  | .close | .built _ | .tearingDown [] (_ :: _) | .tearingDown [] [] | .done =>
    refine h.quiet hi rfl ?_ ?_ _ <;> rfl

/-- **Every event that happens keeps the invariant of the world**, given the ledger of the
file-system model. -/
theorem step (h : w.Inv trimSpace) (hl : Ledger w.fs (w.callers.map Caller.call)) {e : Event}
    (he : e.Allowed) : (w.step allowShareAs trimSpace e).Inv trimSpace := by
  cases e with
  | setShares shares executable => exact h.addCaller _
  | close => exact h.addCaller _
  | call i =>
    cases hi : w.callers[i]? with
    | none => simpa only [World.step, hi] using h
    | some c =>
      obtain ⟨call, closing⟩ := c
      cases closing with
      | some id => simpa only [World.step, hi] using h.kill hi
      | none => simpa only [World.step, hi] using h.stepCall allowShareAs hl hi
  | setFileServerAddr addr => exact ⟨h.heap, h.supervisors, h.closeCalls, h.killing, h.returned⟩
  | server id e => exact h.server id he

end Inv

theorem Reachable.inv {allowShareAs : Bool} {trimSpace : GoString → GoString} {w : World}
    (h : Reachable allowShareAs trimSpace w) : w.Inv trimSpace := by
  induction h with
  | new =>
    exact ⟨rfl, (fun _ h => nomatch h), (fun _ _ h => nomatch h), (fun _ _ _ h => nomatch h),
      (fun _ h => nomatch h)⟩
  | step hw he ih => exact ih.step allowShareAs hw.config.ledger he

end World
end TailFS
