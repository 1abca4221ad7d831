import TailFS.Remote.State

/-!
# The generation invariant

Every state a sequence of calls reaches holds either no generation, with `children` and
`userServers` both empty (before the first `SetShares`, and after `Close`), or one installed
generation: one child per share, built for it, and with share-as allowed one user server per
owner, none without it. In both cases the server stored under an owner `a` is a server for `a`
holding exactly `a`'s shares (`GenerationInv`, `reachable_generationInv`).

Each call is shown to keep the invariant; `SetShares` through what its grouping loop and its
child loop build (`UserServersFor`, `childrenFor_allocateAll`), and its teardown because closing
a user server changes nothing but its `closed` flag. The heaps only grow, and what the invariant
reads of them stays (`HeapExtends`). A `SetShares` installs only objects it made
(`setShares_fresh`).
-/

namespace TailFS
namespace FileSystemForRemote

/-! ## What a generation holds -/

/-- Under each owner `a`, the address of a server for `a` holding exactly `a`'s shares, in the
order `range` visits them. -/
def Serves (shares : GoMap GoString Share) (servers : List UserServer)
    (userServers : GoMap GoString Nat) : Prop :=
  ∀ a id, userServers.lookup a = some id →
    servers[id]?.map (fun u => (u.username, u.shares)) =
      some (a, (GoMap.values shares).filter (fun s => s.as = a))

theorem Serves.of_map_eq {shares : GoMap GoString Share} {servers servers' : List UserServer}
    {userServers : GoMap GoString Nat} (h : Serves shares servers userServers)
    (heq : ∀ i : Nat, servers'[i]?.map (fun u => (u.username, u.shares)) =
      servers[i]?.map (fun u => (u.username, u.shares))) :
    Serves shares servers' userServers :=
  fun a id hid => (heq id).trans (h a id hid)

/-- Under each share's name, the address of a child built for that share. -/
structure ChildrenFor (shares : GoMap GoString Share) (childObjects : List Child)
    (children : GoMap GoString Nat) : Prop where
  names : ∀ k, k ∈ children ↔ k ∈ shares
  built : ∀ k id, children.lookup k = some id →
    ∃ share, shares.lookup k = some share ∧ childObjects[id]? = some (buildChild share)

/-! ## Growing heaps -/

/-- The heaps of `σ'` keep the user and the shares of every user server of `σ`, and every child
of `σ`: closing a server, publishing its address and allocating change neither. -/
structure HeapExtends (σ σ' : FileSystemForRemote) : Prop where
  servers : ∀ (i : Nat) (x : GoString × List Share),
    σ.servers[i]?.map (fun u => (u.username, u.shares)) = some x →
    σ'.servers[i]?.map (fun u => (u.username, u.shares)) = some x
  childObjects : σ.childObjects <+: σ'.childObjects

namespace HeapExtends

variable {σ σ' σ'' : FileSystemForRemote}

theorem refl (σ : FileSystemForRemote) : HeapExtends σ σ :=
  ⟨fun _ _ h => h, List.prefix_refl _⟩

theorem trans (h : HeapExtends σ σ') (h' : HeapExtends σ' σ'') : HeapExtends σ σ'' :=
  ⟨fun i x hx => h'.servers i x (h.servers i x hx), h.childObjects.trans h'.childObjects⟩

theorem of_eq (hs : σ'.servers = σ.servers) (hc : σ'.childObjects = σ.childObjects) :
    HeapExtends σ σ' :=
  ⟨fun _ _ h => hs ▸ h, hc ▸ List.prefix_refl _⟩

theorem of_map_eq (hs : ∀ i : Nat, σ'.servers[i]?.map (fun u => (u.username, u.shares)) =
      σ.servers[i]?.map (fun u => (u.username, u.shares)))
    (hc : σ'.childObjects = σ.childObjects) : HeapExtends σ σ' :=
  ⟨fun i _ h => (hs i).trans h, hc ▸ List.prefix_refl _⟩

theorem of_grow (hs : σ.servers <+: σ'.servers) (hc : σ.childObjects <+: σ'.childObjects) :
    HeapExtends σ σ' := by
  refine ⟨fun i x h => ?_, hc⟩
  obtain ⟨u, hu, rfl⟩ := Option.map_eq_some'.1 h
  obtain ⟨fresh, hfresh⟩ := hs
  rw [← hfresh, List.getElem?_append_left (List.getElem?_eq_some_iff.1 hu).1, hu, Option.map_some']

theorem publish (σ : FileSystemForRemote) (id : Nat) (addr : GoString) :
    HeapExtends σ (σ.publish id addr) := by
  refine of_map_eq (fun i => ?_) rfl
  rw [getElem?_publish]
  cases σ.servers[i]? <;> simp
  split <;> simp

theorem closeServer (σ : FileSystemForRemote) (id : Nat) : HeapExtends σ (σ.closeServer id) :=
  of_map_eq (getElem?_closeAll_map (fun u => (u.username, u.shares)) (fun _ => rfl) σ.servers [id])
    rfl

end HeapExtends

theorem Serves.mono {shares : GoMap GoString Share} {userServers : GoMap GoString Nat}
    {σ σ' : FileSystemForRemote} (h : Serves shares σ.servers userServers)
    (hext : HeapExtends σ σ') : Serves shares σ'.servers userServers :=
  fun a id hid => hext.servers id _ (h a id hid)

theorem ChildrenFor.mono {shares : GoMap GoString Share} {children : GoMap GoString Nat}
    {σ σ' : FileSystemForRemote} (h : ChildrenFor shares σ.childObjects children)
    (hext : HeapExtends σ σ') : ChildrenFor shares σ'.childObjects children := by
  refine ⟨h.names, fun k id hid => ?_⟩
  obtain ⟨share, hshare, hchild⟩ := h.built k id hid
  obtain ⟨fresh, hfresh⟩ := hext.childObjects
  refine ⟨share, hshare, ?_⟩
  rw [← hfresh, List.getElem?_append_left (List.getElem?_eq_some_iff.1 hchild).1, hchild]

variable (allowShareAs : Bool)

/-- The owners holding a user server: the owners of the shares when share-as is allowed, and
nobody otherwise. -/
def Owners (shares : GoMap GoString Share) (userServers : GoMap GoString Nat) : Prop :=
  ∀ a, a ∈ userServers ↔ allowShareAs ∧ ∃ s ∈ GoMap.values shares, s.as = a

/-- What the grouping loop of a `SetShares` for `shares` leaves: the heap `us.1` extends `heap`
by fresh servers whose addresses are the values of `us.2`, and these serve the owners. -/
structure UserServersFor (shares : GoMap GoString Share) (heap : List UserServer)
    (us : List UserServer × GoMap GoString Nat) : Prop where
  alloc : ∃ fresh, us.1 = heap ++ fresh ∧
    (GoMap.values us.2).Perm (List.range' heap.length fresh.length)
  serves : Serves shares us.1 us.2
  owners : Owners allowShareAs shares us.2

/-- **The generation invariant**: a keyed shares map, servers serving their owners, and either
no generation or a whole one. -/
structure GenerationInv (σ : FileSystemForRemote) : Prop where
  keyed : Keyed σ.shares
  serves : Serves σ.shares σ.servers σ.userServers
  installed : σ.children = ∅ ∧ σ.userServers = ∅ ∨
    Owners allowShareAs σ.shares σ.userServers ∧ ChildrenFor σ.shares σ.childObjects σ.children

/-! ## What `SetShares` builds -/

theorem userServersFor_alloc (heap : List UserServer) (executable : GoString)
    (shares : GoMap GoString Share) :
    UserServersFor true shares heap (allocUserServers heap executable shares) := by
  set group := groupUserServers executable (GoMap.values shares)
  refine ⟨⟨_, allocateAll_heap _ _ _ _ _, ?_⟩, ?_, fun a => ?_⟩
  · simpa using values_allocateAll_perm Sigma.fst Sigma.snd heap ∅ group.keys_nodup (by simp)
  · intro a id h
    rcases lookup_allocateAll _ _ heap ∅ _ h with h | ⟨-, x, hx, rfl, hid⟩
    · simp at h
    · have hlookup := lookup_groupUserServers executable (GoMap.values shares) x.1
      rw [Option.mem_def.1 (AList.mem_lookup_iff.2 hx), ownerServer] at hlookup
      split at hlookup
      · rw [show (allocUserServers heap executable shares).1 = _ from allocateAll_heap _ _ _ _ _,
          hid, Option.some.inj hlookup]
        rfl
      · cases hlookup
  · have hmem : a ∈ group ↔ ∃ s ∈ GoMap.values shares, s.as = a := by
      rw [← AList.lookup_isSome, lookup_groupUserServers, ownerServer]
      split <;> simp_all
    rw [allocUserServers, mem_allocateAll, ← List.keys, ← AList.keys, ← AList.mem_keys, hmem]
    simp

theorem childrenFor_allocateAll {shares : GoMap GoString Share} (hkeyed : Keyed shares)
    (heap : List Child) :
    ChildrenFor shares (allocateAll Share.name buildChild (heap, ∅) (GoMap.values shares)).1
      (allocateAll Share.name buildChild (heap, ∅) (GoMap.values shares)).2 where
  names k := by
    rw [mem_allocateAll, List.mem_map]
    constructor
    · rintro (h | ⟨s, hs, rfl⟩)
      · simp at h
      · exact AList.lookup_isSome.1 (by simp [hkeyed.lookup_name hs])
    · intro hk
      obtain ⟨s, hs⟩ := Option.isSome_iff_exists.1 (AList.lookup_isSome.2 hk)
      exact .inr ⟨s, GoMap.lookup_mem_values hs, hkeyed.name_of_lookup hs⟩
  built k id h := by
    rcases lookup_allocateAll _ _ heap ∅ _ h with h | ⟨-, s, hs, rfl, hid⟩
    · simp at h
    · exact ⟨s, hkeyed.lookup_name hs, by simpa using hid⟩

/-- The spec of `build`: when `SetShares` gets past `os.Executable`, it has built the user
servers of the generation and a child per share. -/
theorem build_eq_some {σ σ₁ : FileSystemForRemote} {shares : GoMap GoString Share}
    {executable : Option GoString} {g : Generation}
    (h : σ.build allowShareAs shares executable = some (σ₁, g)) :
    ∃ us, UserServersFor allowShareAs shares σ.servers us ∧ (σ₁, g) = σ.buildWith shares us := by
  cases allowShareAs
  · refine ⟨(σ.servers, ∅), ⟨⟨[], by simp, by simp⟩, fun _ _ h => by simp at h, by simp [Owners]⟩,
      ?_⟩
    simpa [build] using h.symm
  · cases executable with
    | none => simp [build] at h
    | some e =>
      exact ⟨_, userServersFor_alloc σ.servers e shares, by simpa [build] using h.symm⟩

theorem setShares_of_build {σ σ₁ : FileSystemForRemote} {shares : GoMap GoString Share}
    {executable : Option GoString} {g : Generation}
    (h : σ.build allowShareAs shares executable = some (σ₁, g)) :
    σ.setShares allowShareAs shares executable = (σ₁.install g).1.tearDown (σ₁.install g).2 := by
  rw [setShares, h]

private theorem countP_eq_of_nodup {α : Type} [DecidableEq α] {l : List α} (hl : l.Nodup) (a : α) :
    l.countP (fun k => decide (k = a)) = if a ∈ l then 1 else 0 := by
  induction l with
  | nil => simp
  | cons b l ih =>
    rw [List.nodup_cons] at hl
    by_cases hb : b = a
    · subst hb
      simp [ih hl.2, hl.1]
    · simp [ih hl.2, hb, Ne.symm hb]

/-- Among the values of a map of servers serving their owners, one server has each owner. -/
theorem countP_values_username {shares : GoMap GoString Share} {servers : List UserServer}
    {userServers : GoMap GoString Nat} (hs : Serves shares servers userServers) (a : GoString) :
    (GoMap.values userServers).countP (fun id => servers[id]?.map UserServer.username = some a) =
      if a ∈ userServers then 1 else 0 := by
  have hkey : ∀ e ∈ userServers.entries,
      decide (servers[e.2]?.map UserServer.username = some a) = decide (e.1 = a) := by
    intro e he
    have hmap := congrArg (Option.map Prod.fst) (hs e.1 e.2 (AList.mem_lookup_iff.2 he))
    simp only [Option.map_map, Function.comp_def, Option.map_some'] at hmap
    simp [hmap]
  have hcount := countP_eq_of_nodup userServers.keys_nodup a
  rw [AList.keys, List.keys, List.countP_map] at hcount
  rw [GoMap.values, List.countP_map, Function.comp_def,
    List.countP_congr (fun e he => by rw [hkey e he])]
  simp only [Function.comp_def] at hcount
  have hmem : a ∈ userServers.entries.map Sigma.fst ↔ a ∈ userServers := AList.mem_keys.symm
  by_cases ha : a ∈ userServers
  · rwa [if_pos ha, ← if_pos (hmem.2 ha) (t := 1) (e := 0)]
  · rwa [if_neg ha, ← if_neg (mt hmem.1 ha) (t := 1) (e := 0)]

/-- `SetShares` gets past `os.Executable` when share-as is off or the executable is found. -/
theorem build_isSome {σ : FileSystemForRemote} {shares : GoMap GoString Share}
    {executable : Option GoString} (hexe : allowShareAs = true → executable.isSome) :
    ∃ r, σ.build allowShareAs shares executable = some r := by
  cases allowShareAs
  · exact ⟨_, rfl⟩
  · obtain ⟨e, rfl⟩ := Option.isSome_iff_exists.1 (hexe rfl)
    exact ⟨_, rfl⟩

/-- A `SetShares` that gets past `os.Executable` starts one `runLoop` per owner of its shares when
share-as is allowed, and none otherwise. -/
theorem setShares_started {σ : FileSystemForRemote} {shares : GoMap GoString Share}
    {executable : Option GoString} (hexe : allowShareAs = true → executable.isSome) :
    ∃ ids, (σ.setShares allowShareAs shares executable).started = σ.started ++ ids ∧
      ∀ a, ids.countP (fun id =>
          (σ.setShares allowShareAs shares executable).servers[id]?.map UserServer.username =
            some a) =
        if allowShareAs ∧ ∃ s ∈ GoMap.values shares, s.as = a then 1 else 0 := by
  obtain ⟨⟨σ₁, g⟩, hb⟩ := build_isSome allowShareAs hexe
  obtain ⟨us, hus, heq⟩ := build_eq_some allowShareAs hb
  simp only [buildWith, Prod.mk.injEq] at heq
  obtain ⟨rfl, rfl⟩ := heq
  refine ⟨GoMap.values us.2, by rw [setShares_of_build allowShareAs hb, tearDown_eq]; rfl, fun a => ?_⟩
  rw [setShares_of_build allowShareAs hb, tearDown_eq]
  have hserves : Serves shares (closeAll us.1 (GoMap.values σ.userServers)) us.2 :=
    hus.serves.of_map_eq (getElem?_closeAll_map (fun u => (u.username, u.shares)) (fun _ => rfl) _ _)
  simpa only [← hus.owners a] using countP_values_username hserves a

/-- **A new generation shares nothing with the old one.** After a `SetShares` that gets past
`os.Executable`, every user server and every child its maps hold was made by that call: none was
on the heaps before, so no lookup in the maps afterwards finds an object of an earlier
generation. -/
theorem setShares_fresh {σ : FileSystemForRemote} {shares : GoMap GoString Share}
    {executable : Option GoString} (hexe : allowShareAs = true → executable.isSome) :
    (∀ a id, (σ.setShares allowShareAs shares executable).userServers.lookup a = some id →
      σ.servers.length ≤ id) ∧
    ∀ k id, (σ.setShares allowShareAs shares executable).children.lookup k = some id →
      σ.childObjects.length ≤ id := by
  obtain ⟨⟨σ₁, g⟩, hb⟩ := build_isSome allowShareAs hexe
  obtain ⟨us, hus, heq⟩ := build_eq_some allowShareAs hb
  simp only [buildWith, Prod.mk.injEq] at heq
  obtain ⟨rfl, rfl⟩ := heq
  rw [setShares_of_build allowShareAs hb, tearDown_eq]
  obtain ⟨fresh, -, hvalues⟩ := hus.alloc
  obtain ⟨-, hbound⟩ := values_allocateAll Share.name buildChild σ.childObjects ∅
    (GoMap.values shares) List.nodup_nil (fun _ h => nomatch h)
  refine ⟨fun a id hid => (List.mem_range'_1.1 (hvalues.subset (GoMap.lookup_mem_values hid))).1,
    fun k id hid => ?_⟩
  rcases (hbound id (GoMap.lookup_mem_values hid)).2 with h | h
  · simp at h
  · exact h

/-! ## Every call keeps the invariant -/

theorem generationInv_new : GenerationInv allowShareAs new :=
  ⟨fun _ h => by simp [new] at h, fun _ _ h => by simp [new] at h, .inl ⟨rfl, rfl⟩⟩

/-- Closing user servers keeps what they serve. -/
private theorem serves_closeAll {shares : GoMap GoString Share} {servers : List UserServer}
    {userServers : GoMap GoString Nat} (hs : Serves shares servers userServers) (ids : List Nat) :
    Serves shares (closeAll servers ids) userServers :=
  hs.of_map_eq (getElem?_closeAll_map (fun u => (u.username, u.shares)) (fun _ => rfl) servers ids)

namespace GenerationInv

variable {allowShareAs} {σ : FileSystemForRemote} (h : GenerationInv allowShareAs σ)
include h

/-- The invariant reads the heaps only through what `HeapExtends` keeps. -/
theorem mono {σ' : FileSystemForRemote} (hext : HeapExtends σ σ') (hshares : σ'.shares = σ.shares)
    (husers : σ'.userServers = σ.userServers) (hchildren : σ'.children = σ.children) :
    GenerationInv allowShareAs σ' := by
  obtain ⟨hkeyed, hserves, hinstalled⟩ := h
  refine ⟨hshares ▸ hkeyed, hshares ▸ husers ▸ hserves.mono hext, ?_⟩
  rw [hshares, husers, hchildren]
  exact hinstalled.imp id fun ⟨howners, hfor⟩ => ⟨howners, hfor.mono hext⟩

theorem setFileServerAddr (addr : GoString) :
    GenerationInv allowShareAs (σ.setFileServerAddr addr) :=
  ⟨h.keyed, h.serves, h.installed⟩

theorem publish (id : Nat) (addr : GoString) : GenerationInv allowShareAs (σ.publish id addr) :=
  h.mono (.publish σ id addr) rfl rfl rfl

theorem close : GenerationInv allowShareAs σ.close := by
  rw [FileSystemForRemote.close, tearDown_eq]
  exact ⟨h.keyed, fun _ _ hid => by simp [clear] at hid, .inl ⟨rfl, rfl⟩⟩

theorem setShares {shares : GoMap GoString Share} (hkeyed : Keyed shares)
    (executable : Option GoString) :
    GenerationInv allowShareAs (σ.setShares allowShareAs shares executable) := by
  rcases hb : σ.build allowShareAs shares executable with _ | ⟨σ₁, g⟩
  · rwa [FileSystemForRemote.setShares, hb]
  · obtain ⟨us, hus, heq⟩ := build_eq_some allowShareAs hb
    rw [setShares_of_build allowShareAs hb, tearDown_eq]
    simp only [buildWith, Prod.mk.injEq] at heq
    obtain ⟨rfl, rfl⟩ := heq
    exact ⟨hkeyed, serves_closeAll hus.serves _, .inr ⟨hus.owners, childrenFor_allocateAll hkeyed _⟩⟩

theorem apply {op : Op} (hop : op.Allowed) : GenerationInv allowShareAs (σ.apply allowShareAs op) := by
  cases op with
  | setShares shares executable => exact h.setShares hop executable
  | close => exact h.close
  | setFileServerAddr addr => exact h.setFileServerAddr addr
  | publish id addr => exact h.publish id addr

end GenerationInv

theorem reachable_generationInv {σ : FileSystemForRemote} (h : Reachable allowShareAs σ) :
    GenerationInv allowShareAs σ := by
  induction h with
  | new => exact generationInv_new allowShareAs
  | step _ hop ih => exact ih.apply hop

/-! ## The shape of every reachable state -/

/-- What every reachable state looks like: no generation or one whole generation; under each
owner `a` a server for `a` that holds each of `a`'s shares once and no other share, and starts
its child with one `(Name, Path)` pair per share; and a `SetShares` from it that gets past
`os.Executable` starts one `runLoop` per owner. -/
structure GenerationShape (σ : FileSystemForRemote) : Prop where
  installed : σ.children = ∅ ∧ σ.userServers = ∅ ∨
    Owners allowShareAs σ.shares σ.userServers ∧ ChildrenFor σ.shares σ.childObjects σ.children
  servers : ∀ a id, σ.userServers.lookup a = some id → ∃ u, σ.servers[id]? = some u ∧
    u.username = a ∧
    (∀ s, u.shares.count s = if s ∈ GoMap.values σ.shares ∧ s.as = a then 1 else 0) ∧
    u.args = GoString.ofString "serve-tailfs" ::
      ((GoMap.values σ.shares).filter (fun s => s.as = a)).flatMap fun s => [s.name, s.path]
  startsOnePerOwner : ∀ shares executable, (allowShareAs = true → executable.isSome) →
    ∃ ids, (σ.setShares allowShareAs shares executable).started = σ.started ++ ids ∧
      ∀ a, ids.countP (fun id =>
          (σ.setShares allowShareAs shares executable).servers[id]?.map UserServer.username =
            some a) =
        if allowShareAs ∧ ∃ s ∈ GoMap.values shares, s.as = a then 1 else 0

theorem reachable_generationShape {σ : FileSystemForRemote} (h : Reachable allowShareAs σ) :
    GenerationShape allowShareAs σ := by
  have inv := reachable_generationInv allowShareAs h
  refine ⟨inv.installed, fun a id hid => ?_, fun _ _ hexe => setShares_started allowShareAs hexe⟩
  obtain ⟨u, hu, hmap⟩ := Option.map_eq_some'.1 (inv.serves a id hid)
  simp only [Prod.mk.injEq] at hmap
  refine ⟨u, hu, hmap.1, fun s => ?_, by rw [UserServer.args_eq, hmap.2]⟩
  rw [hmap.2, List.count_eq_of_nodup (inv.keyed.nodup_values.filter _)]
  simp [List.mem_filter]

/-! ## The shares of the witnesses -/

/-- The path `os.Executable` returns. -/
def tailscaled : GoString := GoString.ofString "/usr/sbin/tailscaled"

/-- A share `A` of the folder `/x`, served as alice. -/
def shareA : Share := ⟨GoString.ofString "A", GoString.ofString "/x", GoString.ofString "alice"⟩

/-- A share `B` of the folder `/y`, served as alice too. -/
def shareB : Share := ⟨GoString.ofString "B", GoString.ofString "/y", GoString.ofString "alice"⟩

/-- The map `SetShares` gets with the share `A`, keyed by its name. -/
def sharesA : GoMap GoString Share := (∅ : GoMap GoString Share).insert shareA.name shareA

/-- The map with the shares `A` and `B`. -/
def sharesAB : GoMap GoString Share := sharesA.insert shareB.name shareB

/-- Two shares of alice installed: one user server holds both. -/
theorem reachable_generationShape_alice :
    Reachable true (new.apply true (.setShares sharesAB (some tailscaled))) ∧
      GenerationShape true (new.apply true (.setShares sharesAB (some tailscaled))) :=
  ⟨.step .new (show Keyed sharesAB by decide),
    reachable_generationShape true (.step .new (show Keyed sharesAB by decide))⟩

end FileSystemForRemote
end TailFS
