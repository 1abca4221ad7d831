import TailFS.Remote.Serve
import TailFS.Remote.Routing

/-!
# A request end to end

`ServeHTTPWithPerms` hands a request to a composite handler over the children of the shares the
principal may see, and each child's transport dials the share it was built for. In a state with
the generation invariant, every child the handler gets is the child `buildChild` made for a
current share the principal may see (`GenerationInv.handlerChildren`).

The handler keeps the child, and with it the child's transport: its `Dial` looks the share up by
name in the state of the moment it runs, whatever generation is installed by then
(`run_serveHTTPWithPerms_children`).
-/

namespace TailFS
namespace FileSystemForRemote

/-- The children `ServeHTTPWithPerms` gives the composite handler are the children of the
installed generation under the names the policy does not hide: each is the child built for the
current share of its name. -/
theorem GenerationInv.handlerChildren {allowShareAs : Bool} {σ : FileSystemForRemote}
    (inv : GenerationInv allowShareAs σ) {cleanAndSplit : GoString → List GoString}
    {permissions : GoString → Permission} {method : String} {path : GoString} {l : List Nat}
    (hl : serveHTTPWithPerms cleanAndSplit permissions σ method path = .compose l) :
    ∀ id ∈ l, ∃ share, σ.childObjects[id]? = some (buildChild share) ∧
      σ.shares.lookup share.name = some share ∧ permissions share.name ≠ .none := by
  intro id hid
  have hvisible : l = visibleChildren permissions σ.children := by
    rcases serveHTTPWithPerms_cases cleanAndSplit permissions method path with
      ⟨_, _, hearly⟩ | hcompose
    · rw [hearly σ] at hl
      cases hl
    · rw [hcompose σ] at hl
      exact (Response.compose.inj hl).symm
  obtain ⟨names, -, hnames, heq⟩ := @visibleChildren_eq_filterMap permissions σ.children
  rw [hvisible, heq, List.mem_filterMap] at hid
  obtain ⟨n, hn, hlookup⟩ := hid
  rcases inv.installed with ⟨hempty, -⟩ | ⟨-, hfor⟩
  · simp [hempty] at hlookup
  · obtain ⟨share, hshare, hchild⟩ := hfor.built n id hlookup
    have hname : share.name = n := inv.keyed.name_of_lookup hshare
    exact ⟨share, hchild, hname ▸ hshare, hname ▸ ((hnames n).1 hn).2⟩

/-- **A request end to end.** Under any schedule of `SetShares` calls given keyed maps, of `Close`
calls and of the other events, each child a request to `ServeHTTPWithPerms` hands the composite
handler is the child `buildChild` made for a current share the principal may see; and that
child's `Dial`, run after any further events, looks up that share's name in the state of that
moment. -/
theorem run_serveHTTPWithPerms_children (allowShareAs : Bool) (isAddrPort : GoString → Bool)
    (cleanAndSplit : GoString → List GoString) (permissions : GoString → Permission)
    (method : String) (path : GoString) (es es' : List Event) (hes : ∀ e ∈ es, e.Allowed)
    {l : List Nat}
    (hl : serveHTTPWithPerms cleanAndSplit permissions
      ((⟨new, []⟩ : Config).run allowShareAs es).fs method path = .compose l) :
    ∀ id ∈ l, ∃ share,
      ((⟨new, []⟩ : Config).run allowShareAs es).fs.childObjects[id]? = some (buildChild share) ∧
      ((⟨new, []⟩ : Config).run allowShareAs es).fs.shares.lookup share.name = some share ∧
      permissions share.name ≠ .none ∧
      ∀ port, Plain port →
        (((⟨new, []⟩ : Config).run allowShareAs es).run allowShareAs es').fs.dial allowShareAs
            isAddrPort (joinHostPort (hostname (buildChild share).baseURL) port) =
          (((⟨new, []⟩ : Config).run allowShareAs es).run allowShareAs es').fs.dialShare
            allowShareAs isAddrPort share.name := by
  intro id hid
  obtain ⟨share, hchild, hshare, hperm⟩ :=
    ((Config.inv_new allowShareAs).run hes).generation.handlerChildren hl id hid
  exact ⟨share, hchild, hshare, hperm,
    fun _ hport => dial_buildChild_eq allowShareAs isAddrPort _ _ hport⟩

/-- Alice's share installed, and a `GET` on it by a principal who may read and write every share. -/
theorem run_serveHTTPWithPerms_children_alice :
    let c := (⟨new, []⟩ : Config).run true setSharesA
    (∀ e ∈ setSharesA, e.Allowed) ∧
    serveHTTPWithPerms (fun p => [p]) (fun _ => .readWrite) c.fs "GET" shareA.name = .compose [0] ∧
    ∀ id ∈ [0], ∃ share, c.fs.childObjects[id]? = some (buildChild share) ∧
      c.fs.shares.lookup share.name = some share ∧
      (fun _ => Permission.readWrite) share.name ≠ .none ∧
      ∀ port, Plain port →
        (c.run true []).fs.dial true (fun _ => true)
            (joinHostPort (hostname (buildChild share).baseURL) port) =
          (c.run true []).fs.dialShare true (fun _ => true) share.name := by
  intro c
  have hes : ∀ e ∈ setSharesA, e.Allowed := by decide
  have hl : serveHTTPWithPerms (fun p => [p]) (fun _ => .readWrite) c.fs "GET" shareA.name =
      .compose [0] := by decide
  exact ⟨hes, hl, run_serveHTTPWithPerms_children true (fun _ => true) _ _ _ _ _ [] hes hl⟩

end FileSystemForRemote
end TailFS
