import Mathlib.Data.List.AList

/-!
# Go values of the remote file system

The values `tailfsimpl/remote_impl.go` computes with, as this development represents them.

* A Go `string` is a `GoString`, the list of its bytes: share names are arbitrary byte strings.
* A Go `map` is a `GoMap`, an association list without repeated keys. `for k, v := range m`
  visits `m.entries` in order. Theorems quantify over every map, so over every order in which
  `range` can visit one.
* A pointer is the index of its object in a heap, the list of the objects allocated so far
  (`allocateAll`).
* `tailfs.Share`, with the three fields the package reads (`Share`), and the promise callers make
  about a shares map: every key is the `Name` of its share (`Keyed`).
-/

namespace TailFS

/-- A Go `string`: a sequence of bytes, not necessarily valid UTF-8. -/
abbrev GoString := List UInt8

/-- The bytes of a string literal of the source. -/
def GoString.ofString (s : String) : GoString := s.toUTF8.data.toList

/-- A Go `map` from `κ` to `α`. -/
abbrev GoMap (κ α : Type) := AList (fun _ : κ => α)

namespace GoMap

variable {κ α : Type}

/-- The values `for _, v := range m` visits. -/
def values (m : GoMap κ α) : List α := m.entries.map (·.2)

@[simp] theorem values_empty : values (∅ : GoMap κ α) = [] := rfl

variable [DecidableEq κ]

theorem mem_values {m : GoMap κ α} {v : α} : v ∈ values m ↔ ∃ k, m.lookup k = some v := by
  simp only [values, List.mem_map]
  constructor
  · rintro ⟨⟨k, w⟩, he, rfl⟩
    exact ⟨k, AList.mem_lookup_iff.2 he⟩
  · rintro ⟨k, hk⟩
    exact ⟨⟨k, v⟩, AList.mem_lookup_iff.1 hk, rfl⟩

theorem lookup_mem_values {m : GoMap κ α} {k : κ} {v : α} (h : m.lookup k = some v) :
    v ∈ values m :=
  mem_values.2 ⟨k, h⟩

/-- Inserting a key drops the value it held before, if any, and adds the new one. -/
theorem values_insert_sublist (m : GoMap κ α) (k : κ) (v : α) :
    ∃ l, values (m.insert k v) = v :: l ∧ l.Sublist (values m) :=
  ⟨_, rfl, (List.kerase_sublist k m.entries).map _⟩

end GoMap

/-! ## Allocation -/

section Allocation

variable {κ α β : Type} [DecidableEq κ]

/-- `m[key x] = &obj(x)` for each `x` of `xs` in turn: every object is allocated at the end of the
heap and its address is stored under its key, overwriting the address stored there before. -/
def allocateAll (key : β → κ) (obj : β → α) : List α × GoMap κ Nat → List β → List α × GoMap κ Nat
  | acc, [] => acc
  | (heap, m), x :: xs => allocateAll key obj (heap ++ [obj x], m.insert (key x) heap.length) xs

variable (key : β → κ) (obj : β → α)

@[simp] theorem allocateAll_heap (heap : List α) (m : GoMap κ Nat) (xs : List β) :
    (allocateAll key obj (heap, m) xs).1 = heap ++ xs.map obj := by
  induction xs generalizing heap m with
  | nil => simp [allocateAll]
  | cons x xs ih => simp [allocateAll, ih]

theorem lookup_allocateAll_of_not_mem (heap : List α) (m : GoMap κ Nat) (xs : List β) {k : κ}
    (hk : k ∉ xs.map key) : (allocateAll key obj (heap, m) xs).2.lookup k = m.lookup k := by
  induction xs generalizing heap m with
  | nil => rfl
  | cons x xs ih =>
    simp only [List.map_cons, List.mem_cons, not_or] at hk
    simp only [allocateAll, ih _ _ hk.2, AList.lookup_insert_ne hk.1]

theorem mem_allocateAll (heap : List α) (m : GoMap κ Nat) (xs : List β) (k : κ) :
    k ∈ (allocateAll key obj (heap, m) xs).2 ↔ k ∈ m ∨ k ∈ xs.map key := by
  induction xs generalizing heap m with
  | nil => simp [allocateAll]
  | cons x xs ih => simp only [allocateAll, ih, AList.mem_insert, List.map_cons, List.mem_cons]; tauto

/-- Every address the loop stores is either one `m` held or that of an object it allocated for an
element with that key. -/
theorem lookup_allocateAll (heap : List α) (m : GoMap κ Nat) (xs : List β) {k : κ} {id : Nat}
    (h : (allocateAll key obj (heap, m) xs).2.lookup k = some id) :
    m.lookup k = some id ∨
      heap.length ≤ id ∧ ∃ x ∈ xs, key x = k ∧ (heap ++ xs.map obj)[id]? = some (obj x) := by
  induction xs generalizing heap m with
  | nil => exact .inl h
  | cons x xs ih =>
    rcases ih _ _ h with h | ⟨hle, y, hy, rfl, hid⟩
    · by_cases hk : k = key x
      · subst hk
        simp only [AList.lookup_insert, Option.some.injEq] at h
        subst h
        exact .inr ⟨le_refl _, x, List.mem_cons_self _ _, rfl,
          by rw [List.getElem?_append_right (le_refl _)]; simp⟩
      · exact .inl (by simpa [AList.lookup_insert_ne hk] using h)
    · refine .inr ⟨by simp at hle; omega, y, List.mem_cons_of_mem _ hy, rfl, ?_⟩
      simpa using hid

/-- When the keys are distinct, the address stored under each element's key holds its object. -/
theorem lookup_allocateAll_of_mem (heap : List α) (m : GoMap κ Nat) {xs : List β}
    (hxs : (xs.map key).Nodup) {x : β} (hx : x ∈ xs) :
    ∃ id, (allocateAll key obj (heap, m) xs).2.lookup (key x) = some id ∧
      (heap ++ xs.map obj)[id]? = some (obj x) := by
  induction xs generalizing heap m with
  | nil => simp at hx
  | cons y xs ih =>
    simp only [List.map_cons, List.nodup_cons, List.mem_map] at hxs
    rcases List.mem_cons.1 hx with rfl | hx
    · refine ⟨heap.length, ?_, by rw [List.getElem?_append_right (le_refl _)]; simp⟩
      rw [allocateAll, lookup_allocateAll_of_not_mem key obj _ _ _ (by simpa using hxs.1),
        AList.lookup_insert]
    · obtain ⟨id, h, hid⟩ := ih _ _ hxs.2 hx
      exact ⟨id, h, by simpa using hid⟩

/-- The addresses an allocation into an empty map stores are distinct and fresh. -/
theorem values_allocateAll (heap : List α) (m : GoMap κ Nat) (xs : List β)
    (hm : (GoMap.values m).Nodup) (hfresh : ∀ id ∈ GoMap.values m, id < heap.length) :
    (GoMap.values (allocateAll key obj (heap, m) xs).2).Nodup ∧
      ∀ id ∈ GoMap.values (allocateAll key obj (heap, m) xs).2, id < heap.length + xs.length ∧
        (id ∈ GoMap.values m ∨ heap.length ≤ id) := by
  induction xs generalizing heap m with
  | nil => exact ⟨hm, fun id h => ⟨by simpa using hfresh id h, .inl h⟩⟩
  | cons x xs ih =>
    obtain ⟨l, hl, hsub⟩ := GoMap.values_insert_sublist m (key x) heap.length
    have hnew : (GoMap.values (m.insert (key x) heap.length)).Nodup := by
      rw [hl, List.nodup_cons]
      exact ⟨fun h => absurd (hfresh _ (hsub.subset h)) (lt_irrefl _), hsub.nodup hm⟩
    have hlt : ∀ id ∈ GoMap.values (m.insert (key x) heap.length), id < (heap ++ [obj x]).length := by
      intro id h
      rw [hl, List.mem_cons] at h
      rcases h with rfl | h
      · simp
      · simpa using Nat.lt_succ_of_lt (hfresh id (hsub.subset h))
    refine ⟨(ih _ _ hnew hlt).1, fun id h => ?_⟩
    obtain ⟨hbound, hid⟩ := (ih _ _ hnew hlt).2 id h
    refine ⟨by simp at hbound ⊢; omega, ?_⟩
    rw [hl, List.mem_cons] at hid
    rcases hid with (rfl | h) | h
    · exact .inr (le_refl _)
    · exact .inl (hsub.subset h)
    · exact .inr (by simp at h; omega)

/-- When the keys are distinct and new, every allocated object stays in the map. -/
theorem values_allocateAll_perm (heap : List α) (m : GoMap κ Nat) {xs : List β}
    (hxs : (xs.map key).Nodup) (hm : ∀ x ∈ xs, key x ∉ m) :
    (GoMap.values (allocateAll key obj (heap, m) xs).2).Perm
      (GoMap.values m ++ List.range' heap.length xs.length) := by
  induction xs generalizing heap m with
  | nil => simp [allocateAll]
  | cons x xs ih =>
    simp only [List.map_cons, List.nodup_cons, List.mem_map] at hxs
    have hfresh : ∀ y ∈ xs, key y ∉ m.insert (key x) heap.length := by
      intro y hy
      rw [AList.mem_insert, not_or]
      exact ⟨fun h => hxs.1 ⟨y, hy, h⟩, hm y (List.mem_cons_of_mem _ hy)⟩
    have hvalues : GoMap.values (m.insert (key x) heap.length) = heap.length :: GoMap.values m := by
      simp only [GoMap.values, AList.insert_entries_of_neg (hm x (List.mem_cons_self _ _)),
        List.map_cons]
    refine (ih _ _ hxs.2 hfresh).trans ?_
    rw [hvalues, List.length_append, List.length_singleton, List.length_cons, List.range'_succ]
    exact List.perm_middle.symm

end Allocation

/-! ## Shares -/

/-- `tailfs.Share`, with the fields this package reads: `Name`, `Path`, and `As`, the user the
share is served as. -/
structure Share where
  name : GoString
  path : GoString
  as : GoString
  deriving DecidableEq, Repr

/-- A shares map as its callers pass it: every key is the `Name` of its share. -/
def Keyed (shares : GoMap GoString Share) : Prop := ∀ e ∈ shares.entries, e.2.name = e.1

instance : DecidablePred Keyed := fun shares =>
  inferInstanceAs (Decidable (∀ e ∈ shares.entries, e.2.name = e.1))

namespace Keyed

variable {shares : GoMap GoString Share}

theorem name_of_lookup (h : Keyed shares) {k : GoString} {s : Share}
    (hk : shares.lookup k = some s) : s.name = k :=
  h ⟨k, s⟩ (AList.mem_lookup_iff.1 hk)

theorem lookup_name (h : Keyed shares) {s : Share} (hs : s ∈ GoMap.values shares) :
    shares.lookup s.name = some s := by
  obtain ⟨k, hk⟩ := GoMap.mem_values.1 hs
  rwa [h.name_of_lookup hk]

/-- A keyed map holds each share once: shares with one name are one share. -/
theorem nodup_values (h : Keyed shares) : (GoMap.values shares).Nodup := by
  have hnames : (GoMap.values shares).map Share.name = shares.keys := by
    simp only [GoMap.values, AList.keys, List.keys, List.map_map]
    exact List.map_congr_left fun e he => h e he
  exact List.Nodup.of_map _ (hnames ▸ shares.keys_nodup)

theorem nodup_names (h : Keyed shares) : ((GoMap.values shares).map Share.name).Nodup := by
  have hnames : (GoMap.values shares).map Share.name = shares.keys := by
    simp only [GoMap.values, AList.keys, List.keys, List.map_map]
    exact List.map_congr_left fun e he => h e he
  exact hnames ▸ shares.keys_nodup

end Keyed

end TailFS
