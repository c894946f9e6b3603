import Mathlib

namespace AdaptiveRadix

/-!
# Listings of finite maps

Nodes and trees are both maps with a traversal in key order.  A listing of a map has
each of its bindings once, in strictly ascending key order, so a map has at most one
listing.  How long it is, and which bindings come and go with an update, follows
from the map alone.
-/

variable {κ α : Type} [LT κ] [Std.Asymm (· < · : κ -> κ -> Prop)]

/-- The list has exactly the bindings of the map, in strictly ascending key order. -/
structure Listing (bindings : List (κ × α)) (find? : κ -> Option α) : Prop where
  ascending : (bindings.map Prod.fst).Pairwise (· < ·)
  mem_iff : forall {key : κ} {value : α}, (key, value) ∈ bindings ↔ find? key = some value

namespace Listing

variable {bindings others : List (κ × α)} {find? : κ -> Option α}

theorem nodup_keys (listing : Listing bindings find?) : (bindings.map Prod.fst).Nodup :=
  listing.ascending.nodup

theorem nodup (listing : Listing bindings find?) : bindings.Nodup :=
  listing.nodup_keys.of_map Prod.fst

/-- A map has one listing. -/
theorem eq (first : Listing bindings find?) (second : Listing others find?) : bindings = others := by
  have same : bindings.Perm others := by
    apply (List.perm_ext_iff_of_nodup first.nodup second.nodup).mpr
    intro binding
    rw [first.mem_iff, second.mem_iff]
  apply same.eq_of_pairwise _ (List.pairwise_map.mp first.ascending)
    (List.pairwise_map.mp second.ascending)
  intro low high _ _ less more
  exact absurd more (Std.Asymm.asymm _ _ less)

omit [Std.Asymm (· < · : κ -> κ -> Prop)] in
theorem mem_keys_iff (listing : Listing bindings find?) {key : κ} :
    key ∈ bindings.map Prod.fst ↔ (find? key).isSome = true := by
  rw [Option.isSome_iff_exists, List.mem_map]
  constructor
  · intro listed
    rcases listed with ⟨⟨_, value⟩, member, rfl⟩
    exact ⟨value, listing.mem_iff.mp member⟩
  · intro found
    rcases found with ⟨value, bound⟩
    exact ⟨(key, value), listing.mem_iff.mpr bound, rfl⟩

omit [Std.Asymm (· < · : κ -> κ -> Prop)] in
/-- Values that are looked at through a view are listed through it. -/
theorem map {β : Type} (view : α -> β) (listing : Listing bindings find?) :
    Listing (bindings.map fun binding => (binding.1, view binding.2))
      fun key => (find? key).map view := by
  have keys : (bindings.map fun binding => (binding.1, view binding.2)).map Prod.fst =
      bindings.map Prod.fst := by
    rw [List.map_map]
    rfl
  refine ⟨keys ▸ listing.ascending, ?_⟩
  intro key seen
  rw [List.mem_map, Option.map_eq_some_iff]
  constructor
  · intro listed
    rcases listed with ⟨⟨_, value⟩, member, same⟩
    cases same
    exact ⟨value, listing.mem_iff.mp member, rfl⟩
  · intro found
    rcases found with ⟨value, bound, rfl⟩
    exact ⟨(key, value), listing.mem_iff.mpr bound, rfl⟩

variable [DecidableEq κ]

/-- Binding a key that had no value adds one binding. -/
theorem perm_cons {key : κ} {value : α} (listing : Listing bindings find?)
    (larger : Listing others fun other => if other = key then some value else find? other)
    (missed : find? key = none) : others.Perm ((key, value) :: bindings) := by
  have fresh : (key, value) ∉ bindings := by
    rw [listing.mem_iff, missed]
    simp only [reduceCtorEq, not_false_eq_true]
  have distinct : ((key, value) :: bindings).Nodup := List.nodup_cons.mpr ⟨fresh, listing.nodup⟩
  apply (List.perm_ext_iff_of_nodup larger.nodup distinct).mpr
  intro binding
  rcases binding with ⟨other, bound⟩
  rw [larger.mem_iff, List.mem_cons, listing.mem_iff, Prod.mk.injEq]
  by_cases same : other = key
  · subst other
    simp [missed, eq_comm]
  · simp [same]

theorem length_insert {key : κ} {value : α} (listing : Listing bindings find?)
    (larger : Listing others fun other => if other = key then some value else find? other)
    (missed : find? key = none) : others.length = bindings.length + 1 :=
  (listing.perm_cons larger missed).length_eq

/-- Unbinding a key takes one binding away. -/
theorem perm_of_erase {key : κ} {value : α} (listing : Listing bindings find?)
    (smaller : Listing others fun other => if other = key then none else find? other)
    (found : find? key = some value) : bindings.Perm ((key, value) :: others) := by
  apply smaller.perm_cons
  · refine ⟨listing.ascending, ?_⟩
    intro other bound
    rw [listing.mem_iff]
    by_cases same : other = key
    · subst other
      simp [found]
    · simp [same]
  · simp only [if_true]

theorem length_erase {key : κ} {value : α} (listing : Listing bindings find?)
    (smaller : Listing others fun other => if other = key then none else find? other)
    (found : find? key = some value) : bindings.length = others.length + 1 :=
  (listing.perm_of_erase smaller found).length_eq

/-- Giving a key another value leaves the number of bindings as it is. -/
theorem length_replace {key : κ} {old value : α} (listing : Listing bindings find?)
    (changed : Listing others fun other => if other = key then some value else find? other)
    (found : find? key = some old) : others.length = bindings.length := by
  have keys : (others.map Prod.fst).Perm (bindings.map Prod.fst) := by
    apply (List.perm_ext_iff_of_nodup changed.nodup_keys listing.nodup_keys).mpr
    intro other
    rw [changed.mem_keys_iff, listing.mem_keys_iff]
    by_cases same : other = key
    · subst other
      simp [found]
    · simp [same]
  simpa using keys.length_eq

end Listing

/-! ## Ordered maps of the standard library -/

section

variable {κ α : Type} [Ord κ] [Std.TransOrd κ] [Std.LawfulEqOrd κ]

/-- An ordered map lists its own bindings. -/
theorem listing_toList [LT κ] [LE κ] [Std.LawfulOrderOrd κ] [Std.LawfulOrderLT κ]
    (map : Std.ExtTreeMap κ α compare) : Listing map.toList fun key => map[key]? := by
  refine ⟨?_, Std.ExtTreeMap.mem_toList_iff_getElem?_eq_some⟩
  rw [List.pairwise_map]
  exact Std.ExtTreeMap.ordered_keys_toList.imp fun {_ _} less => Std.compare_eq_lt.mp less

variable [DecidableEq κ]

theorem lookup_insert (map : Std.ExtTreeMap κ α compare) (key other : κ) (value : α) :
    (map.insert key value)[other]? = if other = key then some value else map[other]? := by
  rw [Std.ExtTreeMap.getElem?_insert]
  by_cases same : other = key
  · simp [same]
  · simp [same, Ne.symm same]

theorem lookup_erase (map : Std.ExtTreeMap κ α compare) (key other : κ) :
    (map.erase key)[other]? = if other = key then none else map[other]? := by
  rw [Std.ExtTreeMap.getElem?_erase]
  by_cases same : other = key
  · simp [same]
  · simp [same, Ne.symm same]

end

end AdaptiveRadix
