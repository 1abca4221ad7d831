import TailFS.Remote.Generation

/-!
# Dialing the backend of a share

The transport `buildChild` gives each child dials `host:port`, where `host` is the host of the
child's base URL. Its `Dial` splits the address, decodes the hex host back to a share name, looks
the share up under `s.mu` (`readShare`), and then connects to the address of the file server: the
one set by `SetFileServerAddr` without share-as, and with it the one the share owner's user server
has published, read under that server's `mu` (`dialRead`, `FileSystemForRemote.dial`).

* `GenerationInv.dialRoutes`: in a state with the generation invariant, dials route
  (`DialRoutes`), even when the address is read from a later heap.
* `dial_buildChild`: in every reachable state, the `Dial` of the child built for a share, called
  with the address its transport derives, looks up exactly that share's name, fails on an unknown
  share, and otherwise connects where the routing rule says, to a server whose user is the share's
  current owner.
-/

namespace TailFS

/-- The errors of the `Dial` of a child's transport. -/
inductive DialError
  /-- "unable to parse share address %v: %w" -/
  | parseShareAddress (shareAddr : GoString) (err : AddrError)
  /-- "unable to decode share name from host %v: %v" -/
  | decodeShareName (host : GoString) (err : HexError)
  /-- "unknown share %v" -/
  | unknownShare (shareName : GoString)
  /-- "unable to determine address for share %v" -/
  | noAddress (shareName : GoString)
  deriving DecidableEq, Repr

/-- A connection `Dial` opens: `net.Dial("tcp", addr)`, or `safesocket.Connect(addr)`. -/
inductive Connection
  | tcp (addr : GoString)
  | safesocket (addr : GoString)
  deriving DecidableEq, Repr

namespace FileSystemForRemote

section
variable (allowShareAs : Bool) (isAddrPort : GoString → Bool)

/-- The connection to `addr`: over TCP when `netip.ParseAddrPort(addr)` succeeds (`isAddrPort`),
and as a safesocket path otherwise. -/
def connect (addr : GoString) : Connection :=
  if isAddrPort addr then .tcp addr else .safesocket addr

/-- What `Dial` reads under `s.mu`: the share, and the owner map and file server address of that
moment. Go copies the map header; the calls replace the maps and never write to them. -/
structure ShareRead where
  share : Option Share
  userServers : GoMap GoString Nat
  fileServerAddr : GoString

/-- The critical section of `Dial`. -/
def readShare (σ : FileSystemForRemote) (shareName : GoString) : ShareRead :=
  ⟨σ.shares.lookup shareName, σ.userServers, σ.fileServerAddr⟩

/-- The rest of `Dial`, after `s.mu.RUnlock()`: the address of the owner's server is read under the
server's `mu` from the heap `servers` of that later moment, and connected to. An address outside
the heap reads as empty; a Go pointer always points to a server. -/
def dialRead (read : ShareRead) (servers : List UserServer) (shareName : GoString) :
    Except DialError Connection :=
  match read.share with
  | none => .error (.unknownShare shareName)
  | some share =>
    let addr :=
      if !allowShareAs then read.fileServerAddr
      else
        match read.userServers.lookup share.as with
        | some id => (servers[id]?.map UserServer.addr).getD []
        | none => []
    if addr = [] then .error (.noAddress shareName) else .ok (connect isAddrPort addr)

/-- The part of `Dial` after the share name is decoded, with nothing run between its two reads. -/
def dialShare (σ : FileSystemForRemote) (shareName : GoString) : Except DialError Connection :=
  dialRead allowShareAs isAddrPort (σ.readShare shareName) σ.servers shareName

/-- The `Dial` of the transport `buildChild` gives every child. -/
def dial (σ : FileSystemForRemote) (shareAddr : GoString) : Except DialError Connection :=
  match splitHostPort shareAddr with
  | .error err => .error (.parseShareAddress shareAddr err)
  | .ok (shareNameHex, _) =>
    match decodeString shareNameHex with
    | .error err => .error (.decodeShareName shareNameHex err)
    | .ok shareName => σ.dialShare allowShareAs isAddrPort shareName

/-- The address a child's transport dials decodes to the child's share name. -/
theorem dial_buildChild_eq (σ : FileSystemForRemote) (share : Share) {port : GoString}
    (hport : Plain port) :
    σ.dial allowShareAs isAddrPort (joinHostPort (hostname (buildChild share).baseURL) port) =
      σ.dialShare allowShareAs isAddrPort share.name := by
  obtain ⟨hplain, hslash⟩ := plain_encodeToString share.name
  rw [buildChild, hostname_of_not_mem hslash, dial, splitHostPort_joinHostPort hplain hport]
  simp only [decodeString_encodeToString]

/-- **Routing of dials** whose lookups read `σ` and whose address read reads the heap `servers`:
a name `σ` does not know fails; a known one is stored under its own name, and is connected to the
file server address without share-as, and with it to the address, in `servers`, of a server
whose user is the share's owner. A missing server or an empty address fails. -/
def DialRoutes (σ : FileSystemForRemote) (servers : List UserServer) : Prop :=
  ∀ name : GoString,
    (σ.shares.lookup name = none →
      dialRead allowShareAs isAddrPort (σ.readShare name) servers name = .error (.unknownShare name)) ∧
    ∀ sh, σ.shares.lookup name = some sh → sh.name = name ∧
      (allowShareAs = false →
        dialRead allowShareAs isAddrPort (σ.readShare name) servers name =
          if σ.fileServerAddr = [] then .error (.noAddress name)
          else .ok (connect isAddrPort σ.fileServerAddr)) ∧
      (allowShareAs = true →
        (σ.userServers.lookup sh.as = none →
          dialRead allowShareAs isAddrPort (σ.readShare name) servers name = .error (.noAddress name)) ∧
        ∀ id, σ.userServers.lookup sh.as = some id → ∃ u, servers[id]? = some u ∧
          u.username = sh.as ∧
          dialRead allowShareAs isAddrPort (σ.readShare name) servers name =
            if u.addr = [] then .error (.noAddress name) else .ok (connect isAddrPort u.addr))

/-- Under the generation invariant, dials route, whatever happens to the heaps between the two
reads as long as they keep what servers serve. -/
theorem GenerationInv.dialRoutes {σ σ' : FileSystemForRemote} (inv : GenerationInv allowShareAs σ)
    (hext : HeapExtends σ σ') : DialRoutes allowShareAs isAddrPort σ σ'.servers := by
  intro name
  refine ⟨fun h => by simp [dialRead, readShare, h], fun sh hsh => ⟨inv.keyed.name_of_lookup hsh,
    fun hfalse => by subst hfalse; simp [dialRead, readShare, hsh], fun htrue => ?_⟩⟩
  subst htrue
  refine ⟨fun hs => by simp [dialRead, readShare, hsh, hs], fun id hid => ?_⟩
  obtain ⟨u, hu, hmap⟩ := Option.map_eq_some'.1 ((inv.serves.mono hext) sh.as id hid)
  exact ⟨u, hu, (Prod.mk.inj hmap).1, by simp [dialRead, readShare, hsh, hid, hu]⟩

/-- **Routing of a dial.** In every reachable state, the `Dial` of the child `buildChild` made
for `share`, given the address its transport derives from the base URL with any port, looks up
exactly `share.name`: an unknown share fails, and a known one, stored under its own name, is
connected to the file server address without share-as, and with it to the address published by
the user server of its current owner, a server whose user is that owner. A missing server or an
empty address fails. -/
theorem dial_buildChild {σ : FileSystemForRemote} (hσ : Reachable allowShareAs σ) (share : Share)
    {port : GoString} (hport : Plain port) :
    (σ.shares.lookup share.name = none →
      σ.dial allowShareAs isAddrPort (joinHostPort (hostname (buildChild share).baseURL) port) =
        .error (.unknownShare share.name)) ∧
    ∀ sh, σ.shares.lookup share.name = some sh → sh.name = share.name ∧
      (allowShareAs = false →
        σ.dial allowShareAs isAddrPort (joinHostPort (hostname (buildChild share).baseURL) port) =
          if σ.fileServerAddr = [] then .error (.noAddress share.name)
          else .ok (connect isAddrPort σ.fileServerAddr)) ∧
      (allowShareAs = true →
        (σ.userServers.lookup sh.as = none →
          σ.dial allowShareAs isAddrPort (joinHostPort (hostname (buildChild share).baseURL) port) =
            .error (.noAddress share.name)) ∧
        ∀ id, σ.userServers.lookup sh.as = some id → ∃ u, σ.servers[id]? = some u ∧
          u.username = sh.as ∧
          σ.dial allowShareAs isAddrPort (joinHostPort (hostname (buildChild share).baseURL) port) =
            if u.addr = [] then .error (.noAddress share.name)
            else .ok (connect isAddrPort u.addr)) := by
  rw [dial_buildChild_eq allowShareAs isAddrPort σ share hport]
  exact (reachable_generationInv allowShareAs hσ).dialRoutes allowShareAs isAddrPort (.refl σ)
    share.name

end

/-- Alice's share installed with share-as, and the address `1:2` published by her user server:
the dial of the child of `A` goes to that address. -/
theorem dial_buildChild_alice :
    let σ := (new.apply true (.setShares sharesA (some tailscaled))).apply true
      (.publish 0 (GoString.ofString "1:2"))
    Reachable true σ ∧ Plain (GoString.ofString "80") ∧
    σ.shares.lookup shareA.name = some shareA ∧ σ.userServers.lookup shareA.as = some 0 ∧
    σ.servers[0]?.map UserServer.addr = some (GoString.ofString "1:2") ∧
    ((σ.shares.lookup shareA.name = none →
      σ.dial true (fun _ => true)
          (joinHostPort (hostname (buildChild shareA).baseURL) (GoString.ofString "80")) =
        .error (.unknownShare shareA.name)) ∧
    ∀ sh, σ.shares.lookup shareA.name = some sh → sh.name = shareA.name ∧
      (true = false →
        σ.dial true (fun _ => true)
            (joinHostPort (hostname (buildChild shareA).baseURL) (GoString.ofString "80")) =
          if σ.fileServerAddr = [] then .error (.noAddress shareA.name)
          else .ok (connect (fun _ => true) σ.fileServerAddr)) ∧
      (true = true →
        (σ.userServers.lookup sh.as = none →
          σ.dial true (fun _ => true)
              (joinHostPort (hostname (buildChild shareA).baseURL) (GoString.ofString "80")) =
            .error (.noAddress shareA.name)) ∧
        ∀ id, σ.userServers.lookup sh.as = some id → ∃ u, σ.servers[id]? = some u ∧
          u.username = sh.as ∧
          σ.dial true (fun _ => true)
              (joinHostPort (hostname (buildChild shareA).baseURL) (GoString.ofString "80")) =
            if u.addr = [] then .error (.noAddress shareA.name)
            else .ok (connect (fun _ => true) u.addr))) := by
  intro σ
  have hσ : Reachable true σ := .step (.step .new (show Keyed sharesA by decide)) trivial
  exact ⟨hσ, by decide, by decide, by decide, rfl,
    dial_buildChild true (fun _ => true) hσ shareA (by decide)⟩

end FileSystemForRemote

end TailFS
