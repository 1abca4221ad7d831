import TailFS.Remote.Generation

/-!
# Concurrent `SetShares` and `Close`

Calls to `SetShares` and `Close` run in goroutines of their own. Each goes through the phases of
`FileSystemForRemote.setShares` and `FileSystemForRemote.close`: it builds a generation (only
`SetShares`), swaps it in under `s.mu`, then closes the user servers and releases the children of
the generation it swapped out, one at a time. A `Config` is the file system with the phase of
every call, and `Config.step` lets a caller start a call, or one call take one step; the scheduler
picks any of these at any time (`Config.Reachable`). Dials only read the state: they are taken up
in `TailFS.Remote.Routing`.
The teardown loops visit a map in the order of its entries; what is proved here does not depend
on that order.

* `Ledger` is the invariant: every user server ever allocated is installed, or built by a call in
  progress; every installed user server is current, awaiting its `Close` from the call that
  swapped it out, or closed, and exactly one of these; the same for children and
  `CloseIdleConnections`.
* `reachable_teardownOnce` reads off it that no current object is ever torn down, that none is
  torn down twice, and that once every call has returned every object swapped out has been torn
  down exactly once.
* `reachable_of_sequential` ties the model to the sequential one of `TailFS.Remote.State`: a call
  run alone is the sequential `setShares` or `close`, so every state of the sequential model is
  reached here too, with every call returned.
-/

namespace TailFS
namespace FileSystemForRemote

/-- The phase of a call to `SetShares` or `Close`. -/
inductive Call
  /-- `SetShares(shares)` before its first step; `os.Executable` returns `executable`. -/
  | setShares (shares : GoMap GoString Share) (executable : Option GoString)
  /-- `Close()` before its first step. -/
  | close
  /-- `SetShares` with its generation built, before `s.mu.Lock()`. -/
  | built (g : Generation)
  /-- After the critical section: the user servers still to close and the children still to
  release, of the generation it swapped out. -/
  | tearingDown (servers children : List Nat)
  /-- Returned. -/
  | done

/-- The user servers a call has built and not yet installed. -/
def Call.builtServers : Call → List Nat
  | .built g => GoMap.values g.userServers
  | _ => []

/-- The children a call has built and not yet installed. -/
def Call.builtChildren : Call → List Nat
  | .built g => GoMap.values g.children
  | _ => []

/-- The user servers a call has swapped out and not yet closed. -/
def Call.pendingServers : Call → List Nat
  | .tearingDown servers _ => servers
  | _ => []

/-- The children a call has swapped out and not yet released. -/
def Call.pendingChildren : Call → List Nat
  | .tearingDown _ children => children
  | _ => []

/-- A call leaving its critical section, with the maps it replaced to tear down. -/
def swapOut (r : FileSystemForRemote × GoMap GoString Nat × GoMap GoString Nat) :
    FileSystemForRemote × Call :=
  (r.1, .tearingDown (GoMap.values r.2.1) (GoMap.values r.2.2))

section
variable (allowShareAs : Bool)

/-- One step of a call. -/
def stepCall (fs : FileSystemForRemote) : Call → FileSystemForRemote × Call
  | .setShares shares executable =>
    match fs.build allowShareAs shares executable with
    | none => (fs, .done)
    | some (fs, g) => (fs, .built g)
  | .close => swapOut fs.clear
  | .built g => swapOut (fs.install g)
  | .tearingDown (id :: servers) children => (fs.closeServer id, .tearingDown servers children)
  | .tearingDown [] (id :: children) => (fs.closeIdle id, .tearingDown [] children)
  | .tearingDown [] [] => (fs, .done)
  | .done => (fs, .done)

/-- The file system and the calls made to it. -/
structure Config where
  fs : FileSystemForRemote
  calls : List Call

/-- What happens next: a caller starts a call, the call at position `i` takes a step, or a call
outside this model runs (`SetFileServerAddr`, or an address published by a user server). -/
inductive Event
  | setShares (shares : GoMap GoString Share) (executable : Option GoString)
  | close
  | call (i : Nat)
  | setFileServerAddr (addr : GoString)
  | publish (id : Nat) (addr : GoString)

/-- One event. A position with no call does nothing. -/
def Config.step (c : Config) : Event → Config
  | .setShares shares executable => { c with calls := c.calls ++ [.setShares shares executable] }
  | .close => { c with calls := c.calls ++ [.close] }
  | .call i =>
    match c.calls[i]? with
    | none => c
    | some call =>
      ⟨(stepCall allowShareAs c.fs call).1, c.calls.set i (stepCall allowShareAs c.fs call).2⟩
  | .setFileServerAddr addr => { c with fs := c.fs.setFileServerAddr addr }
  | .publish id addr => { c with fs := c.fs.publish id addr }

/-- The configurations reachable from `NewFileSystemForRemote`, under any schedule. -/
inductive Config.Reachable : Config → Prop
  | new : Config.Reachable ⟨new, []⟩
  | step {c : Config} (e : Event) : Config.Reachable c → Config.Reachable (c.step allowShareAs e)

/-- The configuration after the events `es`, one after another. -/
def Config.run (c : Config) (es : List Event) : Config :=
  es.foldl (Config.step allowShareAs) c

variable {allowShareAs}

theorem Config.Reachable.run {c : Config} (h : Config.Reachable allowShareAs c) (es : List Event) :
    Config.Reachable allowShareAs (c.run allowShareAs es) := by
  induction es generalizing c with
  | nil => exact h
  | cons e es ih => exact ih (h.step e)

end

/-! ## The ledger -/

/-- **The ledger** of the file system `fs` with the calls `calls` in progress. Every user server
on the heap was installed by a critical section, or is held built by a call; every installed
server is current, held for teardown, or closed; children the same way, except that a `SetShares`
whose shares are not keyed by name may build children no map keeps. -/
structure Ledger (fs : FileSystemForRemote) (calls : List Call) : Prop where
  allocated : (fs.installedServers ++ calls.flatMap Call.builtServers).Perm
    (List.range fs.servers.length)
  servers : (fs.closeCalls ++ GoMap.values fs.userServers ++ calls.flatMap Call.pendingServers).Perm
    fs.installedServers
  childrenFresh : (fs.installedChildren ++ calls.flatMap Call.builtChildren).Nodup
  childrenAllocated : ∀ id ∈ fs.installedChildren ++ calls.flatMap Call.builtChildren,
    id < fs.childObjects.length
  children : (fs.idleCalls ++ GoMap.values fs.children ++ calls.flatMap Call.pendingChildren).Perm
    fs.installedChildren

theorem ledger_new : Ledger new [] :=
  ⟨.nil, .nil, List.nodup_nil, (fun _ h => nomatch h), .nil⟩

/-- Swapping a map in moves its values to the installed ones, and those it replaces to the
pending ones. -/
private theorem perm_swapIn {done old pending installed : List Nat} (new : List Nat)
    (h : (done ++ old ++ pending).Perm installed) :
    (done ++ new ++ (old ++ pending)).Perm (installed ++ new) := by
  rw [List.perm_iff_count] at h ⊢
  intro a
  have := h a
  simp only [List.count_append] at this ⊢
  omega

/-- A teardown step moves one object from the pending ones to the torn down ones. -/
private theorem perm_tearDownOne {done current pending installed : List Nat} {id : Nat}
    (h : (done ++ current ++ (id :: pending)).Perm installed) :
    (done ++ [id] ++ current ++ pending).Perm installed := by
  rw [List.perm_iff_count] at h ⊢
  intro a
  have := h a
  simp only [List.count_append, List.count_cons, List.count_nil] at this ⊢
  omega

/-- The call at position `i` and the others, before and after it moves. -/
private theorem perm_set_cons {α : Type} {l : List α} {i : Nat} {a : α} (h : l[i]? = some a) (b : α) :
    l.Perm (a :: (l.take i ++ l.drop (i + 1))) ∧
      (l.set i b).Perm (b :: (l.take i ++ l.drop (i + 1))) := by
  obtain ⟨hi, rfl⟩ := List.getElem?_eq_some_iff.1 h
  refine ⟨?_, ?_⟩
  · conv_lhs => rw [← List.take_append_drop i l, List.drop_eq_getElem_cons hi]
    exact List.perm_middle
  · rw [List.set_eq_take_append_cons_drop, if_pos hi]
    exact List.perm_middle

namespace Ledger

variable {fs : FileSystemForRemote} {others : List Call}

/-- The ledger reads the calls only through what they hold. -/
theorem of_perm {calls calls' : List Call} (h : Ledger fs calls)
    (hb : (calls.flatMap Call.builtServers).Perm (calls'.flatMap Call.builtServers))
    (hp : (calls.flatMap Call.pendingServers).Perm (calls'.flatMap Call.pendingServers))
    (hbc : (calls.flatMap Call.builtChildren).Perm (calls'.flatMap Call.builtChildren))
    (hpc : (calls.flatMap Call.pendingChildren).Perm (calls'.flatMap Call.pendingChildren)) :
    Ledger fs calls' where
  allocated := (hb.append_left _).symm.trans h.allocated
  servers := (hp.append_left _).symm.trans h.servers
  childrenFresh := (hbc.append_left _).nodup_iff.1 h.childrenFresh
  childrenAllocated id hid := h.childrenAllocated id ((hbc.append_left _).symm.subset hid)
  children := (hpc.append_left _).symm.trans h.children

theorem perm {calls calls' : List Call} (h : Ledger fs calls) (hp : calls.Perm calls') :
    Ledger fs calls' :=
  h.of_perm (hp.flatMap_right _) (hp.flatMap_right _) (hp.flatMap_right _) (hp.flatMap_right _)

/-- A call that holds nothing, not started or returned, does not count. -/
theorem cons_idle {call : Call} (h : Ledger fs others) (hb : call.builtServers = [])
    (hp : call.pendingServers = []) (hbc : call.builtChildren = [])
    (hpc : call.pendingChildren = []) : Ledger fs (call :: others) :=
  h.of_perm (by simp [hb]) (by simp [hp]) (by simp [hbc]) (by simp [hpc])

section
variable (allowShareAs : Bool)

/-- Building a generation allocates fresh user servers and children, all held by the call. -/
theorem build {shares : GoMap GoString Share} {executable : Option GoString}
    {fs' : FileSystemForRemote} {g : Generation}
    (hb : fs.build allowShareAs shares executable = some (fs', g)) (h : Ledger fs others) :
    Ledger fs' (.built g :: others) := by
  obtain ⟨us, ⟨⟨fresh, hheap, hvalues⟩, -, -⟩, heq⟩ := build_eq_some allowShareAs hb
  simp only [buildWith, Prod.mk.injEq] at heq
  obtain ⟨rfl, rfl⟩ := heq
  obtain ⟨hnodup, hbound⟩ := values_allocateAll Share.name buildChild fs.childObjects ∅
    (GoMap.values shares) List.nodup_nil (fun _ h => nomatch h)
  have hold := h.childrenAllocated
  simp only [GoMap.values_empty, List.not_mem_nil, false_or] at hbound
  refine ⟨?_, h.servers, ?_, ?_, h.children⟩
  · have hrange : List.range (fs.servers.length + fresh.length) =
        List.range fs.servers.length ++ List.range' fs.servers.length fresh.length := by
      have := List.range'_append_1 0 fs.servers.length fresh.length
      rw [Nat.zero_add, Nat.add_comm] at this
      rw [List.range_eq_range', List.range_eq_range', this]
    simp only [List.flatMap_cons, Call.builtServers, hheap, List.length_append, hrange]
    refine (List.perm_append_comm.append_left _).trans ?_
    rw [← List.append_assoc]
    exact h.allocated.append hvalues
  · simp only [List.flatMap_cons, Call.builtChildren]
    refine (List.perm_append_comm.append_left _).nodup_iff.2 ?_
    rw [← List.append_assoc]
    exact h.childrenFresh.append hnodup fun id hid hnew =>
      absurd (hold id hid) (Nat.not_lt.2 (hbound id hnew).2)
  · intro id hid
    simp only [List.flatMap_cons, Call.builtChildren, List.mem_append] at hid
    simp only [allocateAll_heap, List.length_append, List.length_map]
    rcases hid with hid | hid | hid
    · exact Nat.lt_add_right _ (hold id (List.mem_append_left _ hid))
    · exact (hbound id hid).1
    · exact Nat.lt_add_right _ (hold id (List.mem_append_right _ hid))

/-- The critical section of `SetShares` installs the call's generation and hands it the maps it
replaces. -/
theorem install {g : Generation} (h : Ledger fs (.built g :: others)) :
    Ledger (fs.install g).1
      (.tearingDown (GoMap.values fs.userServers) (GoMap.values fs.children) :: others) where
  allocated := by simpa [FileSystemForRemote.install, Call.builtServers] using h.allocated
  servers := perm_swapIn _ h.servers
  childrenFresh := by simpa [FileSystemForRemote.install, Call.builtChildren] using h.childrenFresh
  childrenAllocated := by
    simpa [FileSystemForRemote.install, Call.builtChildren] using h.childrenAllocated
  children := perm_swapIn _ h.children

/-- The critical section of `Close` hands the call the maps it empties. -/
theorem clear (h : Ledger fs (.close :: others)) :
    Ledger fs.clear.1
      (.tearingDown (GoMap.values fs.userServers) (GoMap.values fs.children) :: others) where
  allocated := h.allocated
  servers := by simpa [FileSystemForRemote.clear, Call.pendingServers] using perm_swapIn [] h.servers
  childrenFresh := h.childrenFresh
  childrenAllocated := h.childrenAllocated
  children := by
    simpa [FileSystemForRemote.clear, Call.pendingChildren] using perm_swapIn [] h.children

theorem closeServer {id : Nat} {servers children : List Nat}
    (h : Ledger fs (.tearingDown (id :: servers) children :: others)) :
    Ledger (fs.closeServer id) (.tearingDown servers children :: others) where
  allocated := by simpa [FileSystemForRemote.closeServer] using h.allocated
  servers := perm_tearDownOne h.servers
  childrenFresh := h.childrenFresh
  childrenAllocated := h.childrenAllocated
  children := h.children

theorem closeIdle {id : Nat} {children : List Nat}
    (h : Ledger fs (.tearingDown [] (id :: children) :: others)) :
    Ledger (fs.closeIdle id) (.tearingDown [] children :: others) where
  allocated := h.allocated
  servers := h.servers
  childrenFresh := h.childrenFresh
  childrenAllocated := h.childrenAllocated
  children := perm_tearDownOne h.children

/-- **One step of a call keeps the ledger**, whatever the other calls hold. -/
theorem stepCall (call : Call) (h : Ledger fs (call :: others)) :
    Ledger (FileSystemForRemote.stepCall allowShareAs fs call).1
      ((FileSystemForRemote.stepCall allowShareAs fs call).2 :: others) := by
  match call with
  | .setShares shares executable =>
    simp only [FileSystemForRemote.stepCall]
    have hidle : Ledger fs others := h.of_perm (.refl _) (.refl _) (.refl _) (.refl _)
    split
    · exact hidle.cons_idle rfl rfl rfl rfl
    · exact build allowShareAs ‹_› hidle
  | .close => exact clear h
  | .built g => exact install h
  | .tearingDown (id :: servers) children => exact closeServer h
  | .tearingDown [] (id :: children) => exact closeIdle h
  | .tearingDown [] [] => exact h.of_perm (.refl _) (.refl _) (.refl _) (.refl _)
  | .done => exact h

theorem step {c : Config} (h : Ledger c.fs c.calls) (e : Event) :
    Ledger (c.step allowShareAs e).fs (c.step allowShareAs e).calls := by
  cases e with
  | setShares shares executable =>
    exact (show Ledger c.fs (.setShares shares executable :: c.calls) from
      h.cons_idle rfl rfl rfl rfl).perm (List.perm_append_singleton _ _).symm
  | close =>
    exact (show Ledger c.fs (.close :: c.calls) from h.cons_idle rfl rfl rfl rfl).perm
      (List.perm_append_singleton _ _).symm
  | call i =>
    cases hi : c.calls[i]? with
    | none => simpa [Config.step, hi] using h
    | some call =>
      obtain ⟨hbefore, hafter⟩ := perm_set_cons hi (FileSystemForRemote.stepCall allowShareAs c.fs call).2
      simpa only [Config.step, hi] using ((h.perm hbefore).stepCall allowShareAs call).perm hafter.symm
  | setFileServerAddr addr => exact ⟨h.1, h.2, h.3, h.4, h.5⟩
  | publish id addr =>
    exact ⟨by simpa [Config.step, publish] using h.allocated, h.2, h.3, h.4, h.5⟩

end

end Ledger

theorem Config.Reachable.ledger {allowShareAs : Bool} {c : Config}
    (h : Config.Reachable allowShareAs c) : Ledger c.fs c.calls := by
  induction h with
  | new => exact ledger_new
  | step e _ ih => exact ih.step allowShareAs e

/-! ## Each object torn down once -/

namespace Ledger

variable {fs : FileSystemForRemote} {calls : List Call}

theorem installedServers_nodup (h : Ledger fs calls) : fs.installedServers.Nodup :=
  (List.nodup_append.1 (h.allocated.nodup_iff.2 (List.nodup_range _))).1

theorem installedChildren_nodup (h : Ledger fs calls) : fs.installedChildren.Nodup :=
  (List.nodup_append.1 h.childrenFresh).1

/-- The torn down servers, the current ones and the pending ones are distinct. -/
theorem servers_nodup (h : Ledger fs calls) :
    (fs.closeCalls ++ GoMap.values fs.userServers ++ calls.flatMap Call.pendingServers).Nodup :=
  h.servers.nodup_iff.2 h.installedServers_nodup

theorem children_nodup (h : Ledger fs calls) :
    (fs.idleCalls ++ GoMap.values fs.children ++ calls.flatMap Call.pendingChildren).Nodup :=
  h.children.nodup_iff.2 h.installedChildren_nodup

/-- Every user server whose `Close` has been called is on the heap. -/
theorem closeCalls_lt (h : Ledger fs calls) : ∀ id ∈ fs.closeCalls, id < fs.servers.length :=
  fun _ hid => List.mem_range.1 (h.allocated.subset (List.mem_append_left _
    (h.servers.subset (List.mem_append_left _ (List.mem_append_left _ hid)))))

/-- When no call holds a user server, built or swapped out, each server on the heap has had its
`Close` called exactly when no map holds it. -/
theorem closed_iff_not_current (h : Ledger fs calls) (hb : calls.flatMap Call.builtServers = [])
    (hp : calls.flatMap Call.pendingServers = []) {id : Nat} (hid : id < fs.servers.length) :
    id ∈ fs.closeCalls ↔ id ∉ GoMap.values fs.userServers := by
  have hnodup := h.servers_nodup
  rw [hp, List.append_nil] at hnodup
  have hinstalled : id ∈ fs.installedServers := by
    simpa [hb] using h.allocated.symm.subset (List.mem_range.2 hid)
  have hmem := h.servers.symm.subset hinstalled
  rw [hp, List.append_nil, List.mem_append] at hmem
  exact ⟨fun hc hv => (List.nodup_append.1 hnodup).2.2 hc hv, hmem.resolve_right⟩

/-- The count of `id` in `done`, when `done ++ current` are the distinct elements of `all`. -/
private theorem count_done {done current all : List Nat} (hall : all.Nodup)
    (h : (done ++ current).Perm all) (id : Nat) :
    done.count id = if id ∈ all ∧ id ∉ current then 1 else 0 := by
  have hcount := h.count_eq id
  have hnodup := h.nodup_iff.2 hall
  rw [List.count_append, List.count_eq_of_nodup hall,
    List.count_eq_of_nodup (List.nodup_append.1 hnodup).2.1] at hcount
  by_cases hc : id ∈ current <;> by_cases ha : id ∈ all <;> simp [hc, ha] at hcount ⊢ <;> omega

end Ledger

/-- What `SetShares` and `Close` guarantee about teardown, in a configuration `c`. -/
structure TeardownOnce (c : Config) : Prop where
  /-- No current user server has been closed. -/
  serversCurrent : ∀ id ∈ GoMap.values c.fs.userServers, id ∉ c.fs.closeCalls
  /-- No user server has been closed twice. -/
  serversOnce : c.fs.closeCalls.Nodup
  /-- No current child has been released. -/
  childrenCurrent : ∀ id ∈ GoMap.values c.fs.children, id ∉ c.fs.idleCalls
  /-- No child has been released twice. -/
  childrenOnce : c.fs.idleCalls.Nodup
  /-- Once every call has returned: every user server ever made has been closed once if it is no
  longer current and never if it is, and every child ever installed has been released once if it
  is no longer current and never if it is. -/
  returned : (∀ call ∈ c.calls, call = .done) →
    (∀ id, c.fs.closeCalls.count id =
      if id < c.fs.servers.length ∧ id ∉ GoMap.values c.fs.userServers then 1 else 0) ∧
    ∀ id, c.fs.idleCalls.count id =
      if id ∈ c.fs.installedChildren ∧ id ∉ GoMap.values c.fs.children then 1 else 0

/-- **Teardown happens exactly once.** Under every schedule of `SetShares`, `Close` and the other
calls: no current user server is ever closed and no current child released, none is closed or
released twice, and once every call has returned each user server ever made and each child ever
installed has been torn down exactly once if it was swapped out, and never otherwise. -/
theorem reachable_teardownOnce {allowShareAs : Bool} {c : Config}
    (h : Config.Reachable allowShareAs c) : TeardownOnce c := by
  have hl := h.ledger
  have hs := List.nodup_append.1 (List.nodup_append.1 hl.servers_nodup).1
  have hc := List.nodup_append.1 (List.nodup_append.1 hl.children_nodup).1
  refine ⟨fun id hid hclosed => hs.2.2 hclosed hid, hs.1, fun id hid hidle => hc.2.2 hidle hid,
    hc.1, fun hdone => ?_⟩
  have hnil : ∀ f : Call → List Nat, f .done = [] → c.calls.flatMap f = [] := fun f hf =>
    List.flatMap_eq_nil_iff.2 fun call hcall => hdone call hcall ▸ hf
  have hservers := hl.servers
  have hchildren := hl.children
  have hallocated := hl.allocated
  rw [hnil Call.pendingServers rfl, List.append_nil] at hservers
  rw [hnil Call.pendingChildren rfl, List.append_nil] at hchildren
  rw [hnil Call.builtServers rfl, List.append_nil] at hallocated
  refine ⟨fun id => ?_, Ledger.count_done hl.installedChildren_nodup hchildren⟩
  simpa only [List.mem_range] using
    Ledger.count_done (List.nodup_range _) (hservers.trans hallocated) id

/-- A `SetShares` of `sharesA` run alone to its end: it builds, swaps in, and finds nothing to
tear down. -/
def setSharesA : List Event := [.setShares sharesA (some tailscaled), .call 0, .call 0, .call 0]

/-- Alice's share installed, then a `Close` run alone to its end: every call has returned, and the
user server and the child `Close` swapped out have each been torn down once. -/
theorem reachable_teardownOnce_setSharesClose :
    let c := (⟨new, []⟩ : Config).run true
      (setSharesA ++ [.close, .call 1, .call 1, .call 1, .call 1])
    Config.Reachable true c ∧ (∀ call ∈ c.calls, call = .done) ∧ c.fs.closeCalls = [0] ∧
      c.fs.idleCalls = [0] ∧ TeardownOnce c := by
  intro c
  have hc : Config.Reachable true c := Config.Reachable.new.run _
  have hcalls : c.calls = [.done, .done] := rfl
  exact ⟨hc, by simp [hcalls], rfl, rfl, reachable_teardownOnce hc⟩

/-! ## A call alone: the sequential model -/

section
variable {allowShareAs : Bool}

/-- The last call takes a step. -/
theorem Config.step_last (fs : FileSystemForRemote) (calls : List Call) (call : Call) :
    (⟨fs, calls ++ [call]⟩ : Config).step allowShareAs (.call calls.length) =
      ⟨(stepCall allowShareAs fs call).1, calls ++ [(stepCall allowShareAs fs call).2]⟩ := by
  simp [Config.step, List.set_append_right]

theorem Config.Reachable.stepLast {fs : FileSystemForRemote} {calls : List Call} {call : Call}
    (h : Config.Reachable allowShareAs ⟨fs, calls ++ [call]⟩) :
    Config.Reachable allowShareAs
      ⟨(stepCall allowShareAs fs call).1, calls ++ [(stepCall allowShareAs fs call).2]⟩ :=
  Config.step_last fs calls call ▸ h.step (.call calls.length)

/-- The teardown of the last call, run alone, is the loops of `stopUserServers` and
`closeChildren`. -/
theorem Config.Reachable.tearDown {fs : FileSystemForRemote} {calls : List Call}
    {servers children : List Nat}
    (h : Config.Reachable allowShareAs ⟨fs, calls ++ [.tearingDown servers children]⟩) :
    Config.Reachable allowShareAs
      ⟨children.foldl closeIdle (servers.foldl closeServer fs), calls ++ [.done]⟩ := by
  induction servers generalizing fs with
  | cons id servers ih => exact ih h.stepLast
  | nil =>
    induction children generalizing fs with
    | cons id children ih => exact ih h.stepLast
    | nil => exact h.stepLast

/-- A `SetShares` run alone is the sequential `setShares`. -/
theorem Config.Reachable.setShares {fs : FileSystemForRemote} {calls : List Call}
    (h : Config.Reachable allowShareAs ⟨fs, calls⟩) (shares : GoMap GoString Share)
    (executable : Option GoString) :
    Config.Reachable allowShareAs ⟨fs.setShares allowShareAs shares executable, calls ++ [.done]⟩ := by
  have hstart : Config.Reachable allowShareAs ⟨fs, calls ++ [.setShares shares executable]⟩ :=
    h.step (.setShares shares executable)
  cases hb : fs.build allowShareAs shares executable with
  | none => simpa [stepCall, FileSystemForRemote.setShares, hb] using hstart.stepLast
  | some r =>
    obtain ⟨fs', g⟩ := r
    have hbuilt := hstart.stepLast
    simp only [stepCall, hb] at hbuilt
    rw [setShares_of_build allowShareAs hb]
    exact hbuilt.stepLast.tearDown

/-- A `Close` run alone is the sequential `close`. -/
theorem Config.Reachable.close {fs : FileSystemForRemote} {calls : List Call}
    (h : Config.Reachable allowShareAs ⟨fs, calls⟩) :
    Config.Reachable allowShareAs ⟨fs.close, calls ++ [.done]⟩ :=
  (show Config.Reachable allowShareAs ⟨fs, calls ++ [.close]⟩ from h.step .close).stepLast.tearDown

private theorem done_append {calls : List Call} (h : ∀ call ∈ calls, call = .done) :
    ∀ call ∈ calls ++ [.done], call = .done :=
  fun call hcall => (List.mem_append.1 hcall).elim (h call) List.mem_singleton.1

/-- **The sequential model is the interleaved one with each call run alone**: every state it
reaches is reached here, once every call has returned. -/
theorem reachable_of_sequential {σ : FileSystemForRemote} (h : Reachable allowShareAs σ) :
    ∃ calls : List Call, (∀ call ∈ calls, call = .done) ∧
      Config.Reachable allowShareAs ⟨σ, calls⟩ := by
  induction h with
  | new => exact ⟨[], (fun _ h => nomatch h), .new⟩
  | @step σ op _ _ ih =>
    obtain ⟨calls, hdone, hc⟩ := ih
    cases op with
    | setShares shares executable => exact ⟨_, done_append hdone, hc.setShares shares executable⟩
    | close => exact ⟨_, done_append hdone, hc.close⟩
    | setFileServerAddr addr => exact ⟨calls, hdone, hc.step (.setFileServerAddr addr)⟩
    | publish id addr => exact ⟨calls, hdone, hc.step (.publish id addr)⟩

end

end FileSystemForRemote
end TailFS
