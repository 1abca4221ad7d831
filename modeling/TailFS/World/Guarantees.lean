import TailFS.Remote.Request
import TailFS.World.Basic

/-!
# What the file system and its user servers guarantee together

The models of `TailFS.Remote` and `TailFS.UserServer` each leave the other open: the file-system
model lets any address be published, and the model of one user server lets `Close` come at any
time. In the world they are tied together, and what each proves about its own part becomes a
statement about the whole.

* `reachable_refines`: the file system of a reachable world is reached by allowed events in the
  file-system model, its heap is the supervisors' servers without `cmd`, and each supervisor is
  reached in the model of one user server.
* `reachable_dialFromChild`: a dial with share-as connects only to an address that a child of a
  user server of the share's owner wrote as the first line of its stdout, a child that runs
  through `sudo -n -u <owner>` or as a current user whose UID is not 0.
* `reachable_requestBackend`: each child a request is handed reaches, when its transport dials,
  only such a backend, serving the share of the child's name.
* `reachable_currentRunning`: each user server the owner map holds is open and its `runLoop`
  has not returned.
* `reachable_noUserServer`: without share-as no user server is made and no child is started.
* `returned_serversClosed`: once every call has returned, each user server a map holds is open,
  and each other one has had its `Close` run to the end and never starts more than one child
  again. Unless `Close` took its lock inside the window of `runLoop`, a live child of it is one
  an address read left running, and a child whose file server is alive is such a child or the
  `sudo` that `Close` killed, leaving the server it forked running.
* `returned_openServerPerOwner`: once every call has returned, an owner has at most one open user
  server, and it serves exactly the owner's current shares.
-/

namespace TailFS

open FileSystemForRemote
open UserServer (Supervisor Process run_startBound)

namespace World

/-! ## Runs -/

section
variable (allowShareAs : Bool) (trimSpace : GoString → GoString)

/-- No step that happens shrinks the heaps of the file system. -/
theorem step_heapExtends (w : World) {e : Event} (he : e.Allowed) :
    HeapExtends w.fs (w.step allowShareAs trimSpace e).fs := by
  rcases w.step_toConfig allowShareAs trimSpace he with heq | ⟨e', -, heq⟩
  · rw [show (w.step allowShareAs trimSpace e).fs = w.fs from congrArg Config.fs heq]
    exact .refl w.fs
  · rw [show (w.step allowShareAs trimSpace e).fs = (w.toConfig.step allowShareAs e').fs from
      congrArg Config.fs heq]
    exact w.toConfig.step_heapExtends e'

theorem run_heapExtends (w : World) {es : List Event} (hes : ∀ e ∈ es, e.Allowed) :
    HeapExtends w.fs (w.run allowShareAs trimSpace es).fs := by
  induction es generalizing w with
  | nil => exact .refl w.fs
  | cons e es ih =>
    exact (w.step_heapExtends allowShareAs trimSpace (hes e (List.mem_cons_self _ _))).trans
      (ih _ fun e' he' => hes e' (List.mem_cons_of_mem _ he'))

/-- A supervisor changed at one position takes one event of its own model there. -/
theorem getElem?_modify_step (l : List Supervisor) (n : Nat) (e : UserServer.Event) {id : Nat}
    {s : Supervisor} (hs : l[id]? = some s) :
    ∃ es, (l.modify (fun s => s.step trimSpace e) n)[id]? = some (s.run trimSpace es) := by
  by_cases hn : n = id
  · exact ⟨[e], by simp [List.getElem?_modify, hs, hn, Supervisor.run]⟩
  · exact ⟨[], by simp [List.getElem?_modify, hs, hn, Supervisor.run]⟩

/-- A step of the world runs each supervisor through events of the model of one user server. -/
theorem step_supervisor (w : World) (e : Event) {id : Nat} {s : Supervisor}
    (hs : w.supervisors[id]? = some s) :
    ∃ es, (w.step allowShareAs trimSpace e).supervisors[id]? = some (s.run trimSpace es) := by
  cases e with
  | call i =>
    cases hi : w.callers[i]? with
    | none => exact ⟨[], by simpa only [step, hi] using hs⟩
    | some c =>
      obtain ⟨call, closing⟩ := c
      cases closing with
      | some id' => simpa only [step, hi] using getElem?_modify_step trimSpace _ id' .closeKill hs
      | none =>
        simp only [step, hi]
        match call with
        | .setShares _ _ => exact ⟨[], getElem?_append_of_getElem? hs⟩
        | .tearingDown (id' :: _) _ => exact getElem?_modify_step trimSpace _ id' .closeLock hs
        | .close | .built _ | .tearingDown [] _ | .done => exact ⟨[], hs⟩
  | server id' e => exact getElem?_modify_step trimSpace _ id' e hs
  | setShares | close | setFileServerAddr => exact ⟨[], hs⟩

theorem run_supervisor (w : World) (es : List Event) {id : Nat} {s : Supervisor}
    (hs : w.supervisors[id]? = some s) :
    ∃ es', (w.run allowShareAs trimSpace es).supervisors[id]? = some (s.run trimSpace es') := by
  induction es generalizing w s with
  | nil => exact ⟨[], hs⟩
  | cons e es ih =>
    obtain ⟨es₁, h₁⟩ := w.step_supervisor allowShareAs trimSpace e hs
    obtain ⟨es₂, h₂⟩ := ih _ h₁
    exact ⟨es₁ ++ es₂, by rw [Supervisor.run, List.foldl_append]; exact h₂⟩

variable {allowShareAs trimSpace}

theorem Reachable.run {w : World} (h : Reachable allowShareAs trimSpace w) {es : List Event}
    (hes : ∀ e ∈ es, e.Allowed) : Reachable allowShareAs trimSpace (w.run allowShareAs trimSpace es) := by
  induction es generalizing w with
  | nil => exact h
  | cons e es ih =>
    exact ih (h.step (hes e (List.mem_cons_self _ _))) fun e' he' =>
      hes e' (List.mem_cons_of_mem _ he')

/-! ## The two models, tied together -/

/-- **The world refines both models.** In every reachable world, the file system with the calls
in progress is a configuration the file-system model reaches by allowed events; its heap is the
servers of the supervisors without `cmd`, which it never reads; and each supervisor is a state the
model of one user server reaches. -/
theorem reachable_refines {w : World} (h : Reachable allowShareAs trimSpace w) :
    (∃ es : List FileSystemForRemote.Event, (∀ e ∈ es, e.Allowed) ∧
      (⟨FileSystemForRemote.new, []⟩ : Config).run allowShareAs es = w.toConfig) ∧
    w.fs.servers = w.supervisors.map heapServer ∧
    ∀ s ∈ w.supervisors, UserServer.Reachable trimSpace s :=
  ⟨h.toConfig, h.inv.heap, h.inv.supervisors⟩

end

/-! ## The scenarios of the witnesses -/

/-- Alice's share installed by a `SetShares` run alone to its end. -/
def installA : List Event := [.setShares sharesA (some tailscaled), .call 0, .call 0, .call 0]

/-- A child that writes the address `1:2` as its first line and closes its stdout. -/
def addrOutput : UserServer.Output := ⟨fun _ => 1, GoString.ofString "1:2\n", .eof⟩

/-- A parent running as root. -/
def rootUser : UserServer.CurrentUser := .user (GoString.ofString "0") (GoString.ofString "root")

/-- A parent running as alice. -/
def aliceUser : UserServer.CurrentUser :=
  .user (GoString.ofString "1000") (GoString.ofString "alice")

/-- The user server `SetShares` makes for alice's share. -/
def serverA : UserServer := { UserServer.new shareA.as tailscaled with shares := [shareA] }

/-- Alice's share installed, then her user server's `runLoop` starts a child with the answers
`canSudo` and `current`, publishes it in `s.cmd`, and reads `1:2` from it and stores it. -/
def serveA (canSudo : Bool) (current : UserServer.CurrentUser) : List Event :=
  installA ++ [.server 0 .loop, .server 0 (.start canSudo current none addrOutput),
    .server 0 .loop, .server 0 .loop]

/-- Alice's share installed and her child started through `sudo` for a root parent and published
in `s.cmd`; then a `Close` runs alone to its end, and its teardown kills `sudo` before the address
is read. -/
def closeA : List Event :=
  installA ++ [.server 0 .loop, .server 0 (.start true rootUser none addrOutput), .server 0 .loop,
    .close, .call 1, .call 1, .call 1, .call 1, .call 1]

/-- A second `SetShares` of alice's share, run alone to its end: it makes a second user server,
swaps it in, and closes the first. -/
def reinstallA : List Event :=
  [.setShares sharesA (some tailscaled), .call 1, .call 1, .call 1, .call 1, .call 1, .call 1]

/-! ## Where a dial connects -/

/-- The backend behind the connection `conn` of a dial for `name` whose lookups read `w` and whose
address read finds the supervisors of `w'`: the share stored under `name`, the user server the
owner map gives for its owner, and a child of that server serving the share, which wrote the
address `conn` goes to and runs as the owner or as a user other than root. -/
def Backend (trimSpace : GoString → GoString) (isAddrPort : GoString → Bool) (w w' : World)
    (name : GoString) (conn : Connection) : Prop :=
  ∃ (sh : Share) (id : Nat) (s : Supervisor) (k : Nat) (p : Process) (addr : GoString),
    w.fs.shares.lookup name = some sh ∧ sh.name = name ∧ w.fs.userServers.lookup sh.as = some id ∧
    w'.supervisors[id]? = some s ∧ s.server.username = sh.as ∧ sh ∈ s.server.shares ∧
    s.children[k]? = some p ∧ p.address trimSpace = some addr ∧ conn = connect isAddrPort addr ∧
    [sh.name, sh.path] <:+: p.command.2 ∧
    (p.command = s.server.command true ∨
      p.command = s.server.command false ∧
        ∃ uid user, p.startedBy = .user uid user ∧ uid ≠ GoString.ofString "0")

section
variable {trimSpace : GoString → GoString}

/-- A dial that connects has a backend: its owner's server is current at the lookups, and the
address read finds that server's address, which came from one of its children. -/
theorem Reachable.backend (isAddrPort : GoString → Bool) {w : World}
    (h : Reachable true trimSpace w) {es : List Event} (hes : ∀ e ∈ es, e.Allowed)
    {name : GoString} {conn : Connection}
    (hdial : dialRead true isAddrPort (w.fs.readShare name) (w.run true trimSpace es).fs.servers
      name = .ok conn) :
    Backend trimSpace isAddrPort w (w.run true trimSpace es) name conn := by
  have hgen : GenerationInv true w.fs := h.configInv.generation
  have hext := w.run_heapExtends true trimSpace hes
  have hroutes := hgen.dialRoutes true isAddrPort hext name
  have hinv := (h.run hes).inv
  cases hsh : w.fs.shares.lookup name with
  | none => simp [hroutes.1 hsh] at hdial
  | some sh =>
    obtain ⟨hname, hnone, hsome⟩ := hroutes.2 sh hsh |>.imp_right fun h => h.2 rfl
    cases hid : w.fs.userServers.lookup sh.as with
    | none => simp [hnone hid] at hdial
    | some id =>
      obtain ⟨u, hu, huser, hread⟩ := hsome id hid
      have hmem : sh ∈ u.shares := by
        have hserves := hgen.serves.mono hext sh.as id hid
        rw [hu, Option.map_some', Option.some.injEq, Prod.mk.injEq] at hserves
        rw [hserves.2]
        exact List.mem_filter.2 ⟨GoMap.lookup_mem_values hsh, by simp⟩
      rw [hread] at hdial
      split at hdial
      · cases hdial
      · next hne =>
        cases hdial
        rw [hinv.heap, List.getElem?_map] at hu
        obtain ⟨s, hs, rfl⟩ := Option.map_eq_some'.1 hu
        have hreach := hinv.supervisors s (List.getElem?_mem hs)
        obtain ⟨k, p, hp, haddr⟩ := Or.resolve_left hreach.addrFrom hne
        have hcmd := hreach.commandsOk k p hp
        have hinfix : [sh.name, sh.path] <:+: p.command.2 := by
          rcases hcmd with hc | ⟨hc, -⟩ <;> rw [hc] <;> exact UserServer.infix_command hmem _
        exact ⟨sh, id, s, k, p, _, hsh, hname, hid, hs, huser, hmem, hp, haddr, rfl, hinfix, hcmd⟩

/-- **A dial connects only to an address a child serving the share wrote.** In every reachable
world with share-as, a dial whose lookups run there and whose address read runs after any further
events that happen, if it connects, connects to the address that `run` read from a child of the
user server the owner map gives for the share's owner: the trimmed first line of the child's
stdout. That server's user is the owner and it holds the share, so the child's arguments name the
share and its path; and the child runs `sudo -n -u <username> <executable> serve-tailfs ...`, or
the executable itself, started by a current user whose UID is not 0. -/
theorem reachable_dialFromChild (isAddrPort : GoString → Bool) {w : World}
    (h : Reachable true trimSpace w) {es : List Event} (hes : ∀ e ∈ es, e.Allowed)
    {name : GoString} {conn : Connection}
    (hdial : dialRead true isAddrPort (w.fs.readShare name) (w.run true trimSpace es).fs.servers
      name = .ok conn) :
    ∃ (sh : Share) (id : Nat) (s : Supervisor) (k : Nat) (p : Process) (addr : GoString),
      w.fs.shares.lookup name = some sh ∧ w.fs.userServers.lookup sh.as = some id ∧
      (w.run true trimSpace es).supervisors[id]? = some s ∧ s.server.username = sh.as ∧
      sh ∈ s.server.shares ∧ s.children[k]? = some p ∧ p.address trimSpace = some addr ∧
      conn = connect isAddrPort addr ∧ [sh.name, sh.path] <:+: p.command.2 ∧
      (p.command = s.server.command true ∨
        p.command = s.server.command false ∧
          ∃ uid user, p.startedBy = .user uid user ∧ uid ≠ GoString.ofString "0") := by
  obtain ⟨sh, id, s, k, p, addr, hsh, -, hrest⟩ := h.backend isAddrPort hes hdial
  exact ⟨sh, id, s, k, p, addr, hsh, hrest⟩

end

/-- Alice's share installed, and her user server's `runLoop` has started a child through `sudo` for
a root parent, read `1:2` from it and stored it: a dial for `A` connects there. -/
theorem reachable_dialFromChild_alice :
    let w := (⟨FileSystemForRemote.new, [], []⟩ : World).run true id (serveA true rootUser)
    Reachable true id w ∧ (∀ e ∈ ([] : List Event), e.Allowed) ∧
      dialRead true (fun _ => true) (w.fs.readShare shareA.name) (w.run true id []).fs.servers
        shareA.name = .ok (.tcp (GoString.ofString "1:2")) ∧
    ∃ (sh : Share) (id' : Nat) (s : Supervisor) (k : Nat) (p : Process) (addr : GoString),
      w.fs.shares.lookup shareA.name = some sh ∧ w.fs.userServers.lookup sh.as = some id' ∧
      (w.run true id []).supervisors[id']? = some s ∧ s.server.username = sh.as ∧
      sh ∈ s.server.shares ∧ s.children[k]? = some p ∧ p.address id = some addr ∧
      Connection.tcp (GoString.ofString "1:2") = connect (fun _ => true) addr ∧
      [sh.name, sh.path] <:+: p.command.2 ∧
      (p.command = s.server.command true ∨
        p.command = s.server.command false ∧
          ∃ uid user, p.startedBy = .user uid user ∧ uid ≠ GoString.ofString "0") := by
  intro w
  have hw : Reachable true id w := (@Reachable.new true id).run (by decide)
  have hdial : dialRead true (fun _ => true) (w.fs.readShare shareA.name)
      (w.run true id []).fs.servers shareA.name = .ok (.tcp (GoString.ofString "1:2")) :=
    rfl
  have hes : ∀ e ∈ ([] : List Event), e.Allowed := fun _ h => nomatch h
  exact ⟨hw, hes, hdial, reachable_dialFromChild (fun _ => true) hw hes hdial⟩

/-! ## A request end to end -/

section
variable {trimSpace : GoString → GoString}

/-- **A request reaches only a backend serving a share the principal may see.** In every reachable
world with share-as, each child `ServeHTTPWithPerms` hands the composite handler is the child
`buildChild` made for a share whose name the principal may see. Whenever, after any further events
that happen, that child's transport dials the address it derives from its base URL and connects,
it reaches the backend of the share then stored under that name: a child process of the user
server of the share's owner, whose arguments name the share and its path, and which runs as the
owner through `sudo` or as a current user other than root. -/
theorem reachable_requestBackend (isAddrPort : GoString → Bool)
    (cleanAndSplit : GoString → List GoString) (permissions : GoString → Permission)
    (method : String) (path : GoString) {w : World} (h : Reachable true trimSpace w)
    {l : List Nat} (hl : serveHTTPWithPerms cleanAndSplit permissions w.fs method path = .compose l)
    {es : List Event} (hes : ∀ e ∈ es, e.Allowed) :
    ∀ id ∈ l, ∃ share, w.fs.childObjects[id]? = some (buildChild share) ∧
      permissions share.name ≠ .none ∧
      ∀ port, Plain port → ∀ conn,
        (w.run true trimSpace es).fs.dial true isAddrPort
            (joinHostPort (hostname (buildChild share).baseURL) port) = .ok conn →
          Backend trimSpace isAddrPort (w.run true trimSpace es) (w.run true trimSpace es)
            share.name conn := by
  intro id hid
  obtain ⟨share, hchild, -, hperm⟩ :=
    (h.configInv.generation : GenerationInv true w.fs).handlerChildren hl id hid
  refine ⟨share, hchild, hperm, fun port hport conn hdial => ?_⟩
  rw [dial_buildChild_eq true isAddrPort _ share hport] at hdial
  exact (h.run hes).backend isAddrPort
    (show ∀ e ∈ ([] : List Event), e.Allowed from fun _ h => nomatch h) hdial

end

/-- Alice's share installed with the address of her child, started as alice herself, stored; and a
`GET` on the share by a principal who may read and write every share. -/
theorem reachable_requestBackend_alice :
    let w := (⟨FileSystemForRemote.new, [], []⟩ : World).run true id (serveA false aliceUser)
    Reachable true id w ∧
      serveHTTPWithPerms (fun p => [p]) (fun _ => .readWrite) w.fs "GET" shareA.name =
        .compose [0] ∧ (∀ e ∈ ([] : List Event), e.Allowed) ∧
      ∀ i ∈ [0], ∃ share, w.fs.childObjects[i]? = some (buildChild share) ∧
        (fun _ => Permission.readWrite) share.name ≠ .none ∧
        ∀ port, Plain port → ∀ conn,
          (w.run true id []).fs.dial true (fun _ => true)
              (joinHostPort (hostname (buildChild share).baseURL) port) = .ok conn →
            Backend id (fun _ => true) (w.run true id []) (w.run true id []) share.name conn := by
  intro w
  have hw : Reachable true id w := (@Reachable.new true id).run (by decide)
  have hl : serveHTTPWithPerms (fun p => [p]) (fun _ => .readWrite) w.fs "GET" shareA.name =
      .compose [0] := by decide
  have hes : ∀ e ∈ ([] : List Event), e.Allowed := fun _ h => nomatch h
  exact ⟨hw, hl, hes, reachable_requestBackend (fun _ => true) _ _ _ _ hw hl hes⟩

/-! ## The current user servers keep running -/

section
variable {allowShareAs : Bool} {trimSpace : GoString → GoString}

/-- **A current user server keeps its `runLoop`.** In every reachable world, each user server the
owner map holds is open, has had no `Close` called, and its `runLoop` has not returned. -/
theorem reachable_currentRunning {w : World} (h : Reachable allowShareAs trimSpace w)
    {a : GoString} {id : Nat} (hid : w.fs.userServers.lookup a = some id) :
    ∃ s, w.supervisors[id]? = some s ∧ s.server.closed = false ∧ s.close = .idle ∧
      s.loop ≠ .returned := by
  obtain ⟨u, hu, hopen⟩ := h.config.current_open hid
  have hu' : (w.supervisors.map heapServer)[id]? = some u := h.inv.heap ▸ hu
  rw [List.getElem?_map] at hu'
  obtain ⟨s, hs, rfl⟩ := Option.map_eq_some'.1 hu'
  have hreach := h.inv.supervisors s (List.getElem?_mem hs)
  have hclosed : s.server.closed = false := hopen
  refine ⟨s, hs, hclosed, ?_, fun hret => ?_⟩
  · by_contra hne
    rw [hreach.inv.closed.2 hne] at hclosed
    cases hclosed
  · rw [hreach.returned_closed hret] at hclosed
    cases hclosed

end

/-- Alice's share installed: her user server, held by the owner map, is running. -/
theorem reachable_currentRunning_alice :
    let w := (⟨FileSystemForRemote.new, [], []⟩ : World).run true id installA
    Reachable true id w ∧ w.fs.userServers.lookup shareA.as = some 0 ∧
      ∃ s, w.supervisors[0]? = some s ∧ s.server.closed = false ∧ s.close = .idle ∧
        s.loop ≠ .returned := by
  intro w
  have hw : Reachable true id w := (@Reachable.new true id).run (by decide)
  have hid : w.fs.userServers.lookup shareA.as = some 0 := by decide
  exact ⟨hw, hid, reachable_currentRunning hw hid⟩

/-! ## Without share-as -/

section
variable (trimSpace : GoString → GoString)

/-- Without share-as a `SetShares` allocates no user server. -/
theorem stepCall_setShares_servers (fs : FileSystemForRemote) (shares : GoMap GoString Share)
    (executable : Option GoString) :
    (FileSystemForRemote.stepCall false fs (.setShares shares executable)).1.servers = fs.servers :=
  rfl

/-- Without share-as no step adds a supervisor to a world that has none. -/
theorem step_supervisors_nil {w : World} (hnil : w.supervisors = []) (e : Event) :
    (w.step false trimSpace e).supervisors = [] := by
  cases e with
  | call i =>
    cases hi : w.callers[i]? with
    | none => simpa only [step, hi] using hnil
    | some c =>
      obtain ⟨call, closing⟩ := c
      cases closing with
      | some id' => simp only [step, hi, hnil, List.modify_nil]
      | none =>
        simp only [step, hi]
        match call with
        | .setShares _ _ =>
          simp only [World.stepCall, stepCall_setShares_servers, List.drop_length, List.map_nil,
            List.append_nil, hnil]
        | .tearingDown (id' :: _) _ => simp only [World.stepCall, hnil, List.modify_nil]
        | .close | .built _ | .tearingDown [] _ | .done => exact hnil
  | server id' e => simp only [step, hnil, List.modify_nil]
  | setShares | close | setFileServerAddr => exact hnil

theorem Reachable.supervisors_nil {w : World} (h : Reachable false trimSpace w) :
    w.supervisors = [] := by
  induction h with
  | new => rfl
  | step _ _ ih => exact step_supervisors_nil trimSpace ih _

/-- **Without share-as no user server is ever made.** Under every schedule of allowed events with
share-as disabled, the world has no `runLoop` and the file system's heap holds no user server, so
no child process is ever started. -/
theorem reachable_noUserServer {w : World} (h : Reachable false trimSpace w) :
    w.supervisors = [] ∧ w.fs.servers = [] := by
  have hnil := h.supervisors_nil
  exact ⟨hnil, by rw [h.inv.heap, hnil, List.map_nil]⟩

end

/-! ## Once every call has returned -/

section
variable {allowShareAs : Bool} {trimSpace : GoString → GoString}

/-- Once every call has returned, a user server has had no `Close` called exactly when the owner
map still holds it. -/
theorem Reachable.idle_iff_current {w : World} (h : Reachable allowShareAs trimSpace w)
    (hdone : ∀ c ∈ w.callers, c.call = .done) {id : Nat} {s : Supervisor}
    (hs : w.supervisors[id]? = some s) :
    s.close = .idle ↔ id ∈ GoMap.values w.fs.userServers := by
  have hnil : ∀ f : Call → List Nat, f .done = [] → (w.callers.map Caller.call).flatMap f = [] :=
    fun f hf => List.flatMap_eq_nil_iff.2 fun call hcall => by
      obtain ⟨c, hc, rfl⟩ := List.mem_map.1 hcall
      rw [hdone c hc, hf]
  have hlt : id < w.fs.servers.length := by
    rw [h.inv.heap, List.length_map]
    exact (List.getElem?_eq_some_iff.1 hs).1
  have hiff : id ∈ w.fs.closeCalls ↔ id ∉ GoMap.values w.fs.userServers :=
    h.config.ledger.closed_iff_not_current (hnil Call.builtServers rfl)
      (hnil Call.pendingServers rfl) hlt
  rw [h.inv.closeCalls id s hs, hiff, not_not]

/-- Once every call has returned, an open user server is the one the owner map holds under its
username, and it serves exactly its owner's current shares. -/
theorem Reachable.open_serves {w : World} (h : Reachable allowShareAs trimSpace w)
    (hdone : ∀ c ∈ w.callers, c.call = .done) {id : Nat} {s : Supervisor}
    (hs : w.supervisors[id]? = some s) (hopen : s.server.closed = false) :
    w.fs.userServers.lookup s.server.username = some id ∧
      s.server.shares = (GoMap.values w.fs.shares).filter (fun sh => sh.as = s.server.username) := by
  have hidle : s.close = .idle := by
    by_contra hne
    rw [(h.inv.supervisors s (List.getElem?_mem hs)).inv.closed.2 hne] at hopen
    cases hopen
  obtain ⟨a, ha⟩ := GoMap.mem_values.1 ((h.idle_iff_current hdone hs).1 hidle)
  have hgen : GenerationInv allowShareAs w.fs := h.configInv.generation
  have hserves := hgen.serves a id ha
  simp only [h.inv.heap, List.getElem?_map, hs, Option.map_some', Option.some.injEq,
    Prod.mk.injEq] at hserves
  obtain ⟨rfl, hshares⟩ := hserves
  exact ⟨ha, hshares⟩

/-- **Once every call has returned, the user servers no map holds are closed.** In every reachable
world where every call has returned, a user server on the heap is either held by the owner map,
open and with no `Close` called; or held by none, its `Close` returned and `closed` set. Then,
unless `Close` took its lock between the closed check of `runLoop` and `s.cmd = cmd`, a live child
of it is one an address read left running, and a child whose file server is alive is such a child
or the `sudo` that `Close` killed, whose forked server outlives it. Whatever happens next, its
`runLoop` starts at most one more child, and that only when it is inside that window. -/
theorem returned_serversClosed {w : World} (h : Reachable allowShareAs trimSpace w)
    (hdone : ∀ c ∈ w.callers, c.call = .done) {id : Nat} {s : Supervisor}
    (hs : w.supervisors[id]? = some s) :
    (id ∈ GoMap.values w.fs.userServers ∧ s.close = .idle ∧ s.server.closed = false) ∨
    (id ∉ GoMap.values w.fs.userServers ∧ s.close = .done ∧ s.server.closed = true ∧
      (¬ s.lockedAt.InWindow → ∀ (k : Nat) (p : Process), s.children[k]? = some p →
        (p.state = .alive → k ∈ s.abandoned) ∧
        (p.serverState = .alive → k ∈ s.abandoned ∨
          s.lockedCmd = some k ∧ p.state = .killed ∧ p.forked = some .alive)) ∧
      ∀ es, ∃ s', (w.run allowShareAs trimSpace es).supervisors[id]? = some s' ∧
        s'.children.length ≤ s.children.length + if s.loop = .checked then 1 else 0) := by
  have hsinv := (h.inv.supervisors s (List.getElem?_mem hs)).inv
  have hidle := h.idle_iff_current hdone hs
  by_cases hcur : id ∈ GoMap.values w.fs.userServers
  · have hidle' : s.close = .idle := hidle.2 hcur
    exact .inl ⟨hcur, hidle', Bool.eq_false_iff.2 fun hc => hsinv.closed.1 hc hidle'⟩
  · have hne : s.close ≠ .idle := fun hc => hcur (hidle.1 hc)
    have hclosed := hsinv.closed.2 hne
    have hdone' : s.close = .done := by
      cases hc : s.close with
      | idle => exact absurd hc hne
      | killing cmd => exact absurd hc (h.inv.not_killing hdone hs cmd)
      | done => rfl
    refine .inr ⟨hcur, hdone', hclosed, hsinv.closedOutside hdone', fun es => ?_⟩
    obtain ⟨es', hes'⟩ := w.run_supervisor allowShareAs trimSpace es hs
    obtain ⟨-, hbound, -⟩ := run_startBound trimSpace es' hclosed
    simp only [Supervisor.startBound] at hbound
    exact ⟨_, hes', by omega⟩

/-- **Once every call has returned, each owner has at most one open user server, and it serves
exactly the owner's shares.** In every reachable world where every `SetShares` and `Close` has
returned, an open user server is the one the owner map holds under its username, its share list
is the current shares of that owner, and no other open user server has the same username. -/
theorem returned_openServerPerOwner {w : World} (h : Reachable allowShareAs trimSpace w)
    (hdone : ∀ c ∈ w.callers, c.call = .done) {id : Nat} {s : Supervisor}
    (hs : w.supervisors[id]? = some s) (hopen : s.server.closed = false) :
    w.fs.userServers.lookup s.server.username = some id ∧
    s.server.shares = (GoMap.values w.fs.shares).filter (fun sh => sh.as = s.server.username) ∧
    ∀ (id' : Nat) (s' : Supervisor), w.supervisors[id']? = some s' → s'.server.closed = false →
      s'.server.username = s.server.username → id' = id := by
  obtain ⟨hlookup, hshares⟩ := h.open_serves hdone hs hopen
  refine ⟨hlookup, hshares, fun id' s' hs' hopen' hname => ?_⟩
  have hlookup' := (h.open_serves hdone hs' hopen').1
  rw [hname, hlookup] at hlookup'
  exact (Option.some.inj hlookup').symm

end

/-- Alice's child started through `sudo` and published, then a `Close` run to its end: every call
has returned, her user server is closed, and the server `sudo` forked is still alive after the kill,
an orphan of the `Close`. -/
theorem returned_serversClosed_alice :
    let w := (⟨FileSystemForRemote.new, [], []⟩ : World).run true id closeA
    let s := (Supervisor.init serverA).run id
      [.loop, .start true rootUser none addrOutput, .loop, .closeLock, .closeKill]
    Reachable true id w ∧ (∀ c ∈ w.callers, c.call = .done) ∧ w.supervisors[0]? = some s ∧
    s.children.map Process.serverState = [.alive] ∧
    ((0 ∈ GoMap.values w.fs.userServers ∧ s.close = .idle ∧ s.server.closed = false) ∨
    (0 ∉ GoMap.values w.fs.userServers ∧ s.close = .done ∧ s.server.closed = true ∧
      (¬ s.lockedAt.InWindow → ∀ (k : Nat) (p : Process), s.children[k]? = some p →
        (p.state = .alive → k ∈ s.abandoned) ∧
        (p.serverState = .alive → k ∈ s.abandoned ∨
          s.lockedCmd = some k ∧ p.state = .killed ∧ p.forked = some .alive)) ∧
      ∀ es, ∃ s', (w.run true id es).supervisors[0]? = some s' ∧
        s'.children.length ≤ s.children.length + if s.loop = .checked then 1 else 0)) := by
  intro w s
  have hw : Reachable true id w := (@Reachable.new true id).run (by decide)
  have hdone : ∀ c ∈ w.callers, c.call = .done :=
    show ∀ c ∈ [(⟨.done, none⟩ : Caller), ⟨.done, none⟩], c.call = .done by simp
  have hs : w.supervisors[0]? = some s := rfl
  exact ⟨hw, hdone, hs, rfl, returned_serversClosed hw hdone hs⟩

/-- Alice's share installed twice: the second `SetShares` closes the first user server, and the
second is the open one. -/
theorem returned_openServerPerOwner_alice :
    let w := (⟨FileSystemForRemote.new, [], []⟩ : World).run true id (installA ++ reinstallA)
    let s := Supervisor.init serverA
    Reachable true id w ∧ (∀ c ∈ w.callers, c.call = .done) ∧ w.supervisors[1]? = some s ∧
    s.server.closed = false ∧
    (w.fs.userServers.lookup s.server.username = some 1 ∧
    s.server.shares = (GoMap.values w.fs.shares).filter (fun sh => sh.as = s.server.username) ∧
    ∀ (id' : Nat) (s' : Supervisor), w.supervisors[id']? = some s' → s'.server.closed = false →
      s'.server.username = s.server.username → id' = 1) := by
  intro w s
  have hw : Reachable true id w := (@Reachable.new true id).run (by decide)
  have hdone : ∀ c ∈ w.callers, c.call = .done :=
    show ∀ c ∈ [(⟨.done, none⟩ : Caller), ⟨.done, none⟩], c.call = .done by simp
  have hs : w.supervisors[1]? = some s := rfl
  have hopen : s.server.closed = false := rfl
  exact ⟨hw, hdone, hs, hopen, returned_openServerPerOwner hw hdone hs hopen⟩

end World
end TailFS
