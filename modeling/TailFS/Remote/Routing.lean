import TailFS.Remote.Dial
import TailFS.Remote.Interleaving

/-!
# Dials while `SetShares` and `Close` run

A child's `Dial` runs at any time: its lookups read the state the calls in progress have left,
and its address read a later one. Callers pass `SetShares` maps keyed by share name
(`Event.Allowed`); under any schedule of such calls, of `Close`, of `SetFileServerAddr` and of
address publications, every dial routes as in the sequential model (`run_dialRoutes`).

A critical section installs a whole generation or none, and what a `SetShares` has built stays
good while it waits for `s.mu`: the heaps only grow, and a user server's user and shares never
change (`HeapExtends`, `Config.run_heapExtends`).

* `BuiltFor`: a generation built in a state, ready to be installed as a whole.
* `Config.Inv`: the generation invariant of the state, with every call in progress able to take
  its next step (`Call.Allowed`); one step keeps it (`Config.Inv.step`), and so does every run of
  allowed events (`Config.Inv.run`).
* `reachable_dialClosedServer`: the lookups of a dial find only open user servers (only the
  teardown loops close one, `ClosedLogged`, and the ledger keeps current servers out of them),
  but `Dial` reads the address without looking at `closed`, so a `Close` that runs between its
  two reads leaves the dial connecting to a server it has closed.
-/

namespace TailFS
namespace FileSystemForRemote

/-! ## A built generation -/

section
variable (allowShareAs : Bool)

/-- A generation `g` a `SetShares` has built, as the heaps of `σ` hold it: installing it installs
a whole generation. -/
structure BuiltFor (σ : FileSystemForRemote) (g : Generation) : Prop where
  keyed : Keyed g.shares
  serves : Serves g.shares σ.servers g.userServers
  owners : Owners allowShareAs g.shares g.userServers
  children : ChildrenFor g.shares σ.childObjects g.children

/-- What a call in progress needs of the state for its next steps to keep the generation
invariant: a `SetShares` was passed a keyed map, and a built generation is built for the state. -/
def Call.Allowed (fs : FileSystemForRemote) : Call → Prop
  | .setShares shares _ => Keyed shares
  | .built g => BuiltFor allowShareAs fs g
  | _ => True

/-- **The invariant of the interleaved model**: the generation invariant, and every call in
progress able to take its next step. -/
structure Config.Inv (c : Config) : Prop where
  generation : GenerationInv allowShareAs c.fs
  calls : ∀ call ∈ c.calls, call.Allowed allowShareAs c.fs

end

/-- The events callers make: `SetShares` is passed a map keyed by share names. -/
def Event.Allowed : Event → Prop
  | .setShares shares _ => Keyed shares
  | _ => True

instance : DecidablePred Event.Allowed
  | .setShares shares _ => inferInstanceAs (Decidable (Keyed shares))
  | .close | .call _ | .setFileServerAddr _ | .publish _ _ => isTrue trivial

section
variable {allowShareAs : Bool} {σ σ' σ₁ : FileSystemForRemote}

theorem BuiltFor.mono {g : Generation} (h : BuiltFor allowShareAs σ g) (hext : HeapExtends σ σ') :
    BuiltFor allowShareAs σ' g :=
  ⟨h.keyed, h.serves.mono hext, h.owners, h.children.mono hext⟩

/-- The critical section of `SetShares` installs a whole generation. -/
theorem BuiltFor.install {g : Generation} (h : BuiltFor allowShareAs σ g) :
    GenerationInv allowShareAs (σ.install g).1 :=
  ⟨h.keyed, h.serves, .inr ⟨h.owners, h.children⟩⟩

/-- The critical section of `Close` leaves no generation. -/
theorem GenerationInv.clear (h : GenerationInv allowShareAs σ) :
    GenerationInv allowShareAs σ.clear.1 :=
  ⟨h.keyed, fun _ _ hid => by simp [FileSystemForRemote.clear] at hid, .inl ⟨rfl, rfl⟩⟩

theorem Call.Allowed.mono {call : Call} (h : call.Allowed allowShareAs σ)
    (hext : HeapExtends σ σ') : call.Allowed allowShareAs σ' := by
  cases call with
  | built g => exact BuiltFor.mono h hext
  | _ => exact h

/-- What building a generation does: the heaps grow, the maps stay, and for a keyed map the
generation is built for the new state. -/
theorem build_spec {shares : GoMap GoString Share} {executable : Option GoString}
    {g : Generation} (hb : σ.build allowShareAs shares executable = some (σ₁, g)) :
    HeapExtends σ σ₁ ∧ σ₁.shares = σ.shares ∧ σ₁.userServers = σ.userServers ∧
      σ₁.children = σ.children ∧ (Keyed shares → BuiltFor allowShareAs σ₁ g) := by
  obtain ⟨us, hus, heq⟩ := build_eq_some allowShareAs hb
  simp only [buildWith, Prod.mk.injEq] at heq
  obtain ⟨rfl, rfl⟩ := heq
  obtain ⟨fresh, hheap, -⟩ := hus.alloc
  exact ⟨.of_grow (hheap ▸ List.prefix_append _ _) (by simp), rfl, rfl, rfl,
    fun hkeyed => ⟨hkeyed, hus.serves, hus.owners, childrenFor_allocateAll hkeyed _⟩⟩

end

/-! ## Every step -/

section
variable {allowShareAs : Bool}

/-- No step of a call shrinks the heaps. -/
theorem stepCall_heapExtends (fs : FileSystemForRemote) (call : Call) :
    HeapExtends fs (stepCall allowShareAs fs call).1 := by
  match call with
  | .setShares shares executable =>
    rcases hb : fs.build allowShareAs shares executable with _ | ⟨fs₁, g⟩
    · simp only [stepCall, hb]
      exact .refl fs
    · simp only [stepCall, hb]
      exact (build_spec hb).1
  | .close | .built _ | .tearingDown [] (_ :: _) => exact .of_eq rfl rfl
  | .tearingDown (id :: _) _ => exact .closeServer fs id
  | .tearingDown [] [] | .done => exact .refl fs

/-- **One step of a call keeps the generation invariant**, and leaves the call able to take its
next step. -/
theorem stepCall_inv {fs : FileSystemForRemote} {call : Call} (hinv : GenerationInv allowShareAs fs)
    (hcall : call.Allowed allowShareAs fs) :
    GenerationInv allowShareAs (stepCall allowShareAs fs call).1 ∧
      (stepCall allowShareAs fs call).2.Allowed allowShareAs (stepCall allowShareAs fs call).1 := by
  match call with
  | .setShares shares executable =>
    rcases hb : fs.build allowShareAs shares executable with _ | ⟨fs₁, g⟩
    · simp only [stepCall, hb]
      exact ⟨hinv, trivial⟩
    · obtain ⟨hext, hshares, husers, hchildren, hbuilt⟩ := build_spec hb
      simp only [stepCall, hb]
      exact ⟨hinv.mono hext hshares husers hchildren, hbuilt hcall⟩
  | .close => exact ⟨hinv.clear, trivial⟩
  | .built _ => exact ⟨hcall.install, trivial⟩
  | .tearingDown (id :: _) _ => exact ⟨hinv.mono (.closeServer fs id) rfl rfl rfl, trivial⟩
  | .tearingDown [] (_ :: _) => exact ⟨⟨hinv.1, hinv.2, hinv.3⟩, trivial⟩
  | .tearingDown [] [] | .done => exact ⟨hinv, trivial⟩

theorem Config.step_heapExtends (c : Config) (e : Event) :
    HeapExtends c.fs (c.step allowShareAs e).fs := by
  cases e with
  | call i =>
    cases hi : c.calls[i]? with
    | none => simpa only [Config.step, hi] using HeapExtends.refl c.fs
    | some call => simpa only [Config.step, hi] using stepCall_heapExtends c.fs call
  | publish id addr => exact .publish c.fs id addr
  | setShares | close | setFileServerAddr => exact .of_eq rfl rfl

/-- **Allowed events keep the invariant of the interleaved model.** -/
theorem Config.Inv.step {c : Config} (h : c.Inv allowShareAs) {e : Event} (he : e.Allowed) :
    (c.step allowShareAs e).Inv allowShareAs := by
  have hothers : ∀ call ∈ c.calls, call.Allowed allowShareAs (c.step allowShareAs e).fs :=
    fun call hcall => (h.calls call hcall).mono (c.step_heapExtends e)
  cases e with
  | setShares shares executable =>
    exact ⟨h.generation, fun call hcall =>
      (List.mem_append.1 hcall).elim (h.calls call) fun hnew => List.mem_singleton.1 hnew ▸ he⟩
  | close =>
    exact ⟨h.generation, fun call hcall =>
      (List.mem_append.1 hcall).elim (h.calls call) fun hnew => List.mem_singleton.1 hnew ▸ trivial⟩
  | call i =>
    cases hi : c.calls[i]? with
    | none => simpa only [Config.step, hi] using h
    | some call =>
      obtain ⟨hgen, hnext⟩ := stepCall_inv h.generation (h.calls call (List.getElem?_mem hi))
      simp only [Config.step, hi]
      refine ⟨hgen, fun call' hcall' => ?_⟩
      rcases List.mem_or_eq_of_mem_set hcall' with hold | rfl
      · exact (h.calls call' hold).mono (stepCall_heapExtends c.fs call)
      · exact hnext
  | setFileServerAddr addr => exact ⟨h.generation.setFileServerAddr addr, hothers⟩
  | publish id addr => exact ⟨h.generation.publish id addr, hothers⟩

end

/-! ## Every run -/

section
variable (allowShareAs : Bool)

theorem Config.inv_new : Config.Inv allowShareAs ⟨new, []⟩ :=
  ⟨generationInv_new allowShareAs, fun _ h => nomatch h⟩

variable {allowShareAs}

theorem Config.Inv.run {c : Config} (h : c.Inv allowShareAs) {es : List Event}
    (hes : ∀ e ∈ es, e.Allowed) : (c.run allowShareAs es).Inv allowShareAs := by
  induction es generalizing c with
  | nil => exact h
  | cons e es ih =>
    exact ih (h.step (hes e (List.mem_cons_self _ _))) fun e' he' =>
      hes e' (List.mem_cons_of_mem _ he')

/-- Whatever the events, the heaps only grow. -/
theorem Config.run_heapExtends (c : Config) (es : List Event) :
    HeapExtends c.fs (c.run allowShareAs es).fs := by
  induction es generalizing c with
  | nil => exact .refl c.fs
  | cons e es ih => exact (c.step_heapExtends e).trans (ih _)

end

/-- **Dials route under every schedule.** Under any interleaving of the steps of `SetShares`
calls given maps keyed by share name, of `Close` calls, of `SetFileServerAddr` and of address
publications, a dial whose lookups run after the events `es` and whose address read runs after
any further events `es'` routes as in the sequential model: a share is looked up by its own
name, and connected to the file server without share-as, and with it to a server of the share's
owner. -/
theorem run_dialRoutes (allowShareAs : Bool) (isAddrPort : GoString → Bool) (es es' : List Event)
    (hes : ∀ e ∈ es, e.Allowed) :
    DialRoutes allowShareAs isAddrPort ((⟨new, []⟩ : Config).run allowShareAs es).fs
      (((⟨new, []⟩ : Config).run allowShareAs es).run allowShareAs es').fs.servers :=
  ((Config.inv_new allowShareAs).run hes).generation.dialRoutes allowShareAs isAddrPort
    (Config.run_heapExtends _ es')

/-- Alice's share installed, then a `Close` that has swapped it out and not yet closed her user
server. -/
theorem run_dialRoutes_alice :
    (∀ e ∈ setSharesA, e.Allowed) ∧
    DialRoutes true (fun _ => true) ((⟨new, []⟩ : Config).run true setSharesA).fs
      (((⟨new, []⟩ : Config).run true setSharesA).run true [.close, .call 1]).fs.servers :=
  ⟨by decide, run_dialRoutes true (fun _ => true) _ [.close, .call 1] (by decide)⟩

/-! ## Open servers, and the address read after them -/

/-- Only the teardown loops close a user server: a closed server on the heap has its `Close`
logged. -/
def ClosedLogged (fs : FileSystemForRemote) : Prop :=
  ∀ id u, fs.servers[id]? = some u → u.closed = true → id ∈ fs.closeCalls

/-- The grouping loop makes fresh user servers: open, with no child and no address. -/
theorem mem_groupUserServers {executable : GoString} {shares : List Share} {u : UserServer}
    (hu : u ∈ GoMap.values (groupUserServers executable shares)) :
    ∃ a, u = { UserServer.new a executable with shares := shares.filter (fun s => s.as = a) } := by
  obtain ⟨a, ha⟩ := GoMap.mem_values.1 hu
  rw [lookup_groupUserServers, ownerServer] at ha
  split at ha
  · exact ⟨a, (Option.some.inj ha).symm⟩
  · cases ha

section
variable {allowShareAs : Bool} {fs fs₁ : FileSystemForRemote}

/-- Building appends fresh servers to the heap, and closes none. -/
theorem build_servers {shares : GoMap GoString Share} {executable : Option GoString}
    {g : Generation} (hb : fs.build allowShareAs shares executable = some (fs₁, g)) :
    ∃ fresh, fs₁.servers = fs.servers ++ fresh ∧
      (∀ u ∈ fresh, ∃ a e sh, u = { UserServer.new a e with shares := sh }) ∧
      fs₁.closeCalls = fs.closeCalls := by
  cases allowShareAs
  · simp only [build, Bool.false_eq_true, if_false, Option.some.injEq, Prod.ext_iff] at hb
    rw [← hb.1]
    exact ⟨[], by simp [buildWith], by simp, rfl⟩
  · cases executable with
    | none => simp [build] at hb
    | some e =>
      simp only [build, if_true, Option.map_some', Option.some.injEq, Prod.ext_iff] at hb
      rw [← hb.1]
      refine ⟨_, allocateAll_heap _ _ _ _ _, fun u hu => ?_, rfl⟩
      obtain ⟨a, rfl⟩ := mem_groupUserServers (by simpa [GoMap.values] using hu)
      exact ⟨a, e, _, rfl⟩

namespace ClosedLogged

theorem build (h : ClosedLogged fs) {shares : GoMap GoString Share}
    {executable : Option GoString} {g : Generation}
    (hb : fs.build allowShareAs shares executable = some (fs₁, g)) : ClosedLogged fs₁ := by
  obtain ⟨fresh, hservers, hopen, hcalls⟩ := build_servers hb
  intro i u hu hclosed
  rw [hservers] at hu
  rw [hcalls]
  by_cases hi : i < fs.servers.length
  · exact h i u (by rwa [List.getElem?_append_left hi] at hu) hclosed
  · rw [List.getElem?_append_right (Nat.le_of_not_lt hi)] at hu
    obtain ⟨a, e, sh, rfl⟩ := hopen u (List.getElem?_mem hu)
    cases hclosed

theorem closeServer (h : ClosedLogged fs) (id : Nat) : ClosedLogged (fs.closeServer id) := by
  intro i u hu hclosed
  by_cases hi : i = id
  · exact List.mem_append_right _ (List.mem_singleton.2 hi)
  · change (closeAll fs.servers [id])[i]? = some u at hu
    rw [getElem?_closeAll] at hu
    obtain ⟨v, hv, rfl⟩ := Option.map_eq_some'.1 hu
    simp only [List.mem_singleton, hi, if_false] at hclosed
    exact List.mem_append_left _ (h i v hv hclosed)

theorem publish (h : ClosedLogged fs) (id : Nat) (addr : GoString) :
    ClosedLogged (fs.publish id addr) := by
  intro i u hu hclosed
  rw [getElem?_publish] at hu
  obtain ⟨v, hv, rfl⟩ := Option.map_eq_some'.1 hu
  exact h i v hv (by split at hclosed <;> exact hclosed)

theorem stepCall (h : ClosedLogged fs) (call : Call) :
    ClosedLogged (FileSystemForRemote.stepCall allowShareAs fs call).1 := by
  match call with
  | .setShares shares executable =>
    rcases hb : fs.build allowShareAs shares executable with _ | ⟨fs₁, g⟩
    · simp only [FileSystemForRemote.stepCall, hb]
      exact h
    · simp only [FileSystemForRemote.stepCall, hb]
      exact h.build hb
  | .tearingDown (id :: _) _ => exact h.closeServer id
  | .close | .built _ | .tearingDown [] (_ :: _) | .tearingDown [] [] | .done => exact h

theorem step {c : Config} (h : ClosedLogged c.fs) (e : Event) :
    ClosedLogged (c.step allowShareAs e).fs := by
  cases e with
  | call i =>
    cases hi : c.calls[i]? with
    | none => simpa only [Config.step, hi] using h
    | some call => simpa only [Config.step, hi] using h.stepCall call
  | publish id addr => exact h.publish id addr
  | setShares | close | setFileServerAddr => exact h

end ClosedLogged

theorem Config.Reachable.closedLogged {c : Config} (h : Config.Reachable allowShareAs c) :
    ClosedLogged c.fs := by
  induction h with
  | new => exact fun _ _ h _ => by simp [FileSystemForRemote.new] at h
  | step e _ ih => exact ih.step e

/-- Every user server the current map holds is on the heap and open. -/
theorem Config.Reachable.current_open {c : Config} (h : Config.Reachable allowShareAs c)
    {a : GoString} {id : Nat} (hid : c.fs.userServers.lookup a = some id) :
    ∃ u, c.fs.servers[id]? = some u ∧ u.closed = false := by
  have hl := h.ledger
  have hcur := GoMap.lookup_mem_values hid
  have hinst : id ∈ c.fs.installedServers :=
    hl.servers.subset (List.mem_append_left _ (List.mem_append_right _ hcur))
  have hlt : id < c.fs.servers.length :=
    List.mem_range.1 (hl.allocated.subset (List.mem_append_left _ hinst))
  have hdisjoint := (List.nodup_append.1 (List.nodup_append.1 hl.servers_nodup).1).2.2
  refine ⟨_, List.getElem?_eq_getElem hlt, Bool.eq_false_iff.2 fun hclosed => ?_⟩
  exact hdisjoint (h.closedLogged id _ (List.getElem?_eq_getElem hlt) hclosed) hcur

/-- The teardown of the last call, run alone through its `stopUserServers` loop. -/
theorem Config.run_tearDown (fs : FileSystemForRemote) (calls : List Call)
    (ids children : List Nat) :
    (⟨fs, calls ++ [.tearingDown ids children]⟩ : Config).run allowShareAs
        (List.replicate ids.length (.call calls.length)) =
      ⟨ids.foldl closeServer fs, calls ++ [.tearingDown [] children]⟩ := by
  induction ids generalizing fs with
  | nil => rfl
  | cons id ids ih =>
    rw [List.length_cons, List.replicate_succ, Config.run, List.foldl_cons, Config.step_last]
    exact ih (fs.closeServer id)

/-- A `Close` run alone up to the end of its `stopUserServers` loop closes every current user
server, and changes nothing else on the heap. -/
theorem Config.run_close (c : Config) :
    (c.run allowShareAs (.close ::
        List.replicate ((GoMap.values c.fs.userServers).length + 1) (.call c.calls.length))).fs.servers =
      closeAll c.fs.servers (GoMap.values c.fs.userServers) := by
  rw [List.replicate_succ]
  show (Config.run allowShareAs
    (Config.step allowShareAs ⟨c.fs, c.calls ++ [.close]⟩ (.call c.calls.length)) _).fs.servers = _
  rw [Config.step_last]
  simp only [stepCall, swapOut, FileSystemForRemote.clear]
  rw [Config.run_tearDown, foldl_closeServer]

/-- `Dial` does not look at `closed`: closing servers changes no dial. -/
theorem dialRead_closeAll (isAddrPort : GoString → Bool) (read : ShareRead)
    (servers : List UserServer) (ids : List Nat) (name : GoString) :
    dialRead allowShareAs isAddrPort read (closeAll servers ids) name =
      dialRead allowShareAs isAddrPort read servers name := by
  simp only [dialRead, getElem?_closeAll_map UserServer.addr (fun _ => rfl)]

end

/-- **A dial's lookup finds an open server; its address read does not look.** In every
configuration of the interleaved model, every user server the current map holds is on the heap
and open, so the lookups of a `Dial` under `s.mu` resolve only to open servers. A `Close` can then
run its teardown before the dial reads the address under the server's `mu`: the server is
closed, and every dial connects exactly where it would have before. -/
theorem reachable_dialClosedServer {allowShareAs : Bool} {c : Config}
    (h : Config.Reachable allowShareAs c) {a : GoString} {id : Nat}
    (hid : c.fs.userServers.lookup a = some id) :
    (∃ u, c.fs.servers[id]? = some u ∧ u.closed = false) ∧
      ∃ es', (c.run allowShareAs es').fs.servers[id]?.map UserServer.closed = some true ∧
        ∀ isAddrPort read name,
          dialRead allowShareAs isAddrPort read (c.run allowShareAs es').fs.servers name =
            dialRead allowShareAs isAddrPort read c.fs.servers name := by
  obtain ⟨u, hu, hopen⟩ := h.current_open hid
  refine ⟨⟨u, hu, hopen⟩,
    .close :: List.replicate ((GoMap.values c.fs.userServers).length + 1) (.call c.calls.length),
    ?_, fun isAddrPort read name => ?_⟩
  · rw [Config.run_close, getElem?_closeAll, hu]
    simp [GoMap.lookup_mem_values hid]
  · rw [Config.run_close, dialRead_closeAll]

/-- Alice's share installed: her user server is current, and a `Close` can close it before a
dial reads its address. -/
theorem reachable_dialClosedServer_alice :
    let c := (⟨new, []⟩ : Config).run true setSharesA
    Config.Reachable true c ∧ c.fs.userServers.lookup shareA.as = some 0 ∧
    ((∃ u, c.fs.servers[0]? = some u ∧ u.closed = false) ∧
      ∃ es', (c.run true es').fs.servers[0]?.map UserServer.closed = some true ∧
        ∀ isAddrPort read name,
          dialRead true isAddrPort read (c.run true es').fs.servers name =
            dialRead true isAddrPort read c.fs.servers name) := by
  intro c
  have hc : Config.Reachable true c := Config.Reachable.new.run _
  have hid : c.fs.userServers.lookup shareA.as = some 0 := by decide
  exact ⟨hc, hid, reachable_dialClosedServer hc hid⟩

end FileSystemForRemote
end TailFS
