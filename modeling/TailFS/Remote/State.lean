import TailFS.Address
import TailFS.UserServer.Basic

/-!
# The remote file system

`FileSystemForRemote` of `remote_impl.go` as a state, and its operations as functions on it:
`NewFileSystemForRemote`, `SetFileServerAddr`, `SetShares`, `Close`, and the publication of an
address by the `run` of one of its user servers.

`SetShares` is written as the three phases a call goes through: `build` (everything before
`s.mu.Lock()`), `install` (the critical section) and `tearDown` (`stopUserServers` and
`closeChildren` on the maps it replaced). `Close` is `clear` followed by the same teardown. The
interleaving model runs these same functions one phase at a time.

Pointers are indices into the heaps `servers` and `childObjects`. Five ghost fields record what
the code does to the objects, and nothing reads them: the `runLoop`s started, the
`userServer.Close` and `CloseIdleConnections` calls, and the objects ever installed.
-/

namespace TailFS

/-- A `compositedav.Child` as `buildChild` makes it: the `Name` of its `dirfs.Child` and its
`BaseURL`. The `Dial` of its transport is a closure over the file system, the same function for
every child (`FileSystemForRemote.dial`). -/
structure Child where
  name : GoString
  baseURL : GoString
  deriving DecidableEq, Repr

/-- `buildChild`: the base URL is `fmt.Sprintf("http://%v/%v", hex, url.PathEscape(share.Name))`. -/
def buildChild (share : Share) : Child where
  name := share.name
  baseURL := GoString.ofString "http://" ++ encodeToString share.name ++ slash :: pathEscape share.name

/-- `FileSystemForRemote`: the fields its `mu` guards, the heaps, and the ghost logs. -/
structure FileSystemForRemote where
  fileServerAddr : GoString
  shares : GoMap GoString Share
  children : GoMap GoString Nat
  userServers : GoMap GoString Nat
  servers : List UserServer
  childObjects : List Child
  started : List Nat
  closeCalls : List Nat
  idleCalls : List Nat
  installedServers : List Nat
  installedChildren : List Nat

/-- What `SetShares` installs under `s.mu`. -/
structure Generation where
  shares : GoMap GoString Share
  userServers : GoMap GoString Nat
  children : GoMap GoString Nat

/-! ## Building a generation -/

/-- The grouping loop of `SetShares`: the user server of an owner is created at the first share
it owns, and every share is appended to the list of its owner's server. -/
def groupUserServers (executable : GoString) (shares : List Share) :
    GoMap GoString UserServer :=
  shares.foldl (fun m share =>
    let p := (m.lookup share.as).getD (UserServer.new share.as executable)
    m.insert share.as { p with shares := p.shares ++ [share] }) ∅

/-- The user server the grouping loop makes for owner `a`, if a share has that owner. -/
def ownerServer (executable : GoString) (shares : List Share) (a : GoString) :
    Option UserServer :=
  if shares.any (fun s => s.as = a) then
    some { UserServer.new a executable with shares := shares.filter (fun s => s.as = a) }
  else none

private theorem lookup_foldl_group (executable : GoString) (xs pre : List Share)
    (m : GoMap GoString UserServer) (hm : ∀ a, m.lookup a = ownerServer executable pre a)
    (a : GoString) :
    (xs.foldl (fun m share =>
      let p := (m.lookup share.as).getD (UserServer.new share.as executable)
      m.insert share.as { p with shares := p.shares ++ [share] }) m).lookup a =
      ownerServer executable (pre ++ xs) a := by
  induction xs generalizing pre m with
  | nil => simpa using hm a
  | cons x xs ih =>
    rw [List.foldl_cons, ih (pre ++ [x]) _ _, List.append_assoc, List.singleton_append]
    intro b
    by_cases hb : x.as = b
    · subst hb
      rw [AList.lookup_insert, hm]
      by_cases hpre : pre.any (fun s => s.as = x.as) <;>
        simp [ownerServer, hpre, List.filter_append, UserServer.new]
      simpa using hpre
    · rw [AList.lookup_insert_ne (Ne.symm hb), hm]
      simp [ownerServer, List.filter_append, hb]

/-- The grouping loop makes exactly one server per owner, holding that owner's shares in the
order the loop visits them. -/
theorem lookup_groupUserServers (executable : GoString) (shares : List Share) (a : GoString) :
    (groupUserServers executable shares).lookup a = ownerServer executable shares a :=
  lookup_foldl_group executable shares [] ∅ (fun _ => by simp [ownerServer]) a

namespace FileSystemForRemote

/-- `NewFileSystemForRemote`. `shares` starts as a nil map, which reads as an empty one. -/
def new : FileSystemForRemote :=
  { fileServerAddr := [], shares := ∅, children := ∅, userServers := ∅, servers := [],
    childObjects := [], started := [], closeCalls := [], idleCalls := [],
    installedServers := [], installedChildren := [] }

/-- `SetFileServerAddr`. -/
def setFileServerAddr (σ : FileSystemForRemote) (addr : GoString) : FileSystemForRemote :=
  { σ with fileServerAddr := addr }

/-- The `run` of the user server at `id` publishing its address, `s.addr = addr` under the
server's `mu`. -/
def publish (σ : FileSystemForRemote) (id : Nat) (addr : GoString) : FileSystemForRemote :=
  { σ with servers := σ.servers.modify (fun u => { u with addr }) id }

/-- The grouping loop of `SetShares` with its servers allocated on the heap `servers`: the heap
after it, and the map from owner to server. -/
def allocUserServers (servers : List UserServer) (executable : GoString)
    (shares : GoMap GoString Share) : List UserServer × GoMap GoString Nat :=
  allocateAll Sigma.fst Sigma.snd (servers, ∅) (groupUserServers executable (GoMap.values shares)).entries

/-- The end of `SetShares` before `s.mu.Lock()`, given the user servers it made:
`go p.runLoop()` for each of them, then the loop that builds a child per share. -/
def buildWith (σ : FileSystemForRemote) (shares : GoMap GoString Share)
    (userServers : List UserServer × GoMap GoString Nat) : FileSystemForRemote × Generation :=
  let children := allocateAll Share.name buildChild (σ.childObjects, ∅) (GoMap.values shares)
  ({ σ with
      servers := userServers.1, started := σ.started ++ GoMap.values userServers.2
      childObjects := children.1 },
    ⟨shares, userServers.2, children.2⟩)

section
variable (allowShareAs : Bool)

/-- `SetShares` up to `s.mu.Lock()`. When share-as is allowed it looks up the executable,
returning early (`none`) when `os.Executable` fails, and makes the user servers; without it,
`userServers` stays empty. -/
def build (σ : FileSystemForRemote) (shares : GoMap GoString Share)
    (executable : Option GoString) : Option (FileSystemForRemote × Generation) :=
  if allowShareAs then
    executable.map fun e => σ.buildWith shares (allocUserServers σ.servers e shares)
  else some (σ.buildWith shares (σ.servers, ∅))

/-- The critical section of `SetShares`: install `g`, and return the maps it replaces. -/
def install (σ : FileSystemForRemote) (g : Generation) :
    FileSystemForRemote × GoMap GoString Nat × GoMap GoString Nat :=
  ({ σ with
      shares := g.shares, userServers := g.userServers, children := g.children
      installedServers := σ.installedServers ++ GoMap.values g.userServers
      installedChildren := σ.installedChildren ++ GoMap.values g.children },
    σ.userServers, σ.children)

/-- The critical section of `Close`: fresh empty maps, and the maps they replace. `shares` is
left as it is. -/
def clear (σ : FileSystemForRemote) :
    FileSystemForRemote × GoMap GoString Nat × GoMap GoString Nat :=
  ({ σ with userServers := ∅, children := ∅ }, σ.userServers, σ.children)

/-- `server.Close()` on the user server at `id`, as `stopUserServers` makes it: `closed` is set
under the server's `mu` (the kill of its child is modelled with the processes). -/
def closeServer (σ : FileSystemForRemote) (id : Nat) : FileSystemForRemote :=
  { σ with servers := σ.servers.modify (fun u => { u with closed := true }) id,
           closeCalls := σ.closeCalls ++ [id] }

/-- `child.CloseIdleConnections()` on the child at `id`. -/
def closeIdle (σ : FileSystemForRemote) (id : Nat) : FileSystemForRemote :=
  { σ with idleCalls := σ.idleCalls ++ [id] }

/-- `stopUserServers` then `closeChildren`, over the maps a critical section replaced. -/
def tearDown (σ : FileSystemForRemote) (old : GoMap GoString Nat × GoMap GoString Nat) :
    FileSystemForRemote :=
  (GoMap.values old.2).foldl closeIdle ((GoMap.values old.1).foldl closeServer σ)

/-- `SetShares`. -/
def setShares (σ : FileSystemForRemote) (shares : GoMap GoString Share)
    (executable : Option GoString) : FileSystemForRemote :=
  match σ.build allowShareAs shares executable with
  | none => σ
  | some (σ, g) => (σ.install g).1.tearDown (σ.install g).2

/-- `Close`. -/
def close (σ : FileSystemForRemote) : FileSystemForRemote :=
  σ.clear.1.tearDown σ.clear.2

/-- The calls a caller makes on the file system, and the address publications of its user
servers. -/
inductive Op
  | setShares (shares : GoMap GoString Share) (executable : Option GoString)
  | close
  | setFileServerAddr (addr : GoString)
  | publish (server : Nat) (addr : GoString)

/-- One call. -/
def apply (σ : FileSystemForRemote) : Op → FileSystemForRemote
  | .setShares shares executable => σ.setShares allowShareAs shares executable
  | .close => σ.close
  | .setFileServerAddr addr => σ.setFileServerAddr addr
  | .publish server addr => σ.publish server addr

/-- The calls callers make: `SetShares` is passed a map keyed by share names. -/
def Op.Allowed : Op → Prop
  | .setShares shares _ => Keyed shares
  | _ => True

/-- The states a sequence of calls reaches from `NewFileSystemForRemote`. -/
inductive Reachable : FileSystemForRemote → Prop
  | new : Reachable new
  | step {σ : FileSystemForRemote} {op : Op} :
    Reachable σ → op.Allowed → Reachable (σ.apply allowShareAs op)

end

/-! ## Teardown -/

/-- The heap after `Close` on the user servers at `ids`. -/
def closeAll (servers : List UserServer) (ids : List Nat) : List UserServer :=
  ids.foldl (fun l id => l.modify (fun u => { u with closed := true }) id) servers

theorem getElem?_closeAll (servers : List UserServer) (ids : List Nat) (i : Nat) :
    (closeAll servers ids)[i]? =
      servers[i]?.map fun u => if i ∈ ids then { u with closed := true } else u := by
  induction ids generalizing servers with
  | nil => simp [closeAll]
  | cons id ids ih =>
    rw [closeAll, List.foldl_cons, ← closeAll, ih, List.getElem?_modify]
    rcases eq_or_ne id i with rfl | h
    · cases servers[id]? <;> by_cases h' : id ∈ ids <;> simp [h']
    · cases servers[i]? <;> simp [h, Ne.symm h]

/-- Closing user servers changes nothing but their `closed` flags. -/
theorem getElem?_closeAll_map {β : Type} (f : UserServer → β)
    (hf : ∀ u, f { u with closed := true } = f u) (servers : List UserServer) (ids : List Nat)
    (i : Nat) : (closeAll servers ids)[i]?.map f = servers[i]?.map f := by
  rw [getElem?_closeAll]
  cases servers[i]? <;> simp; split <;> simp [hf]

/-- The loop of `stopUserServers` over `ids`. -/
theorem foldl_closeServer (ids : List Nat) (σ : FileSystemForRemote) :
    ids.foldl closeServer σ =
      { σ with servers := closeAll σ.servers ids, closeCalls := σ.closeCalls ++ ids } := by
  induction ids generalizing σ with
  | nil => simp [closeAll]
  | cons id ids ih => simp [ih, closeServer, closeAll]

/-- The loop of `closeChildren` over `ids`. -/
theorem foldl_closeIdle (ids : List Nat) (σ : FileSystemForRemote) :
    ids.foldl closeIdle σ = { σ with idleCalls := σ.idleCalls ++ ids } := by
  induction ids generalizing σ with
  | nil => simp
  | cons id ids ih => simp [ih, closeIdle]

theorem tearDown_eq (σ : FileSystemForRemote) (old : GoMap GoString Nat × GoMap GoString Nat) :
    σ.tearDown old =
      { σ with servers := closeAll σ.servers (GoMap.values old.1)
               closeCalls := σ.closeCalls ++ GoMap.values old.1
               idleCalls := σ.idleCalls ++ GoMap.values old.2 } := by
  simp [tearDown, foldl_closeServer, foldl_closeIdle]

theorem getElem?_publish (σ : FileSystemForRemote) (id : Nat) (addr : GoString) (i : Nat) :
    (σ.publish id addr).servers[i]? =
      σ.servers[i]?.map fun u => if id = i then { u with addr } else u := by
  simp only [publish, List.getElem?_modify]
  rfl

end FileSystemForRemote

end TailFS
