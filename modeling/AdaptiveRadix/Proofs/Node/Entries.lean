import AdaptiveRadix.Proofs.Node.FiniteMap

namespace AdaptiveRadix

/-!
# Entries by position

Where the entries of a node lie, which the finite map that the node is does not tell.  The
layouts number their slots in three ways: by place in the run, by the slot that an insertion
found free, and by chunk.  All three give the entries of one node distinct positions below
its capacity, and a new value for a chunk that has one already moves none of them.
-/

variable {α : Type} {chunk : Chunk}

namespace Entry

/-- An entry after its node has given a chunk another value. -/
def given (chunk : Chunk) (value : α) (entry : Entry α) : Entry α :=
  if entry.chunk = chunk then { entry with value := value } else entry

theorem given_of_eq {entry : Entry α} (same : entry.chunk = chunk) (value : α) :
    entry.given chunk value = { entry with value := value } :=
  if_pos same

theorem given_of_ne {entry : Entry α} (different : entry.chunk ≠ chunk) (value : α) :
    entry.given chunk value = entry :=
  if_neg different

/-- The one entry of a chunk, among entries of which no two have the same chunk. -/
theorem exists_split {entries : List (Entry α)} (distinct : (entries.map Entry.chunk).Nodup)
    (listed : chunk ∈ entries.map Entry.chunk) :
    ∃ front entry back, entries = front ++ entry :: back ∧ entry.chunk = chunk ∧
      forall value, entries.map (Entry.given chunk value) =
        front ++ { entry with value := value } :: back := by
  rcases List.mem_map.mp listed with ⟨entry, met, rfl⟩
  rcases List.append_of_mem met with ⟨front, back, rfl⟩
  refine ⟨front, entry, back, rfl, rfl, fun value => ?_⟩
  rw [List.map_append, List.map_cons, List.nodup_append, List.nodup_cons] at distinct
  have before : ∀ other ∈ front, other.given entry.chunk value = other := by
    intro other inside
    exact given_of_ne (distinct.2.2 _ (List.mem_map_of_mem inside) _ List.mem_cons_self) value
  have behind : ∀ other ∈ back, other.given entry.chunk value = other := by
    intro other inside
    have different : other.chunk ≠ entry.chunk := fun same =>
      distinct.2.1.1 (same ▸ List.mem_map_of_mem inside)
    exact given_of_ne different value
  rw [List.map_append, List.map_cons, given_of_eq rfl, List.map_congr_left before,
    List.map_congr_left behind, List.map_id', List.map_id']

end Entry

namespace SortedRun

variable {width count : Nat} {run : SortedRun α width}

theorem nodup_positions (run : SortedRun α width) (count : Nat) :
    ((run.entries count).map Entry.position).Nodup := by
  rw [entries, List.map_map]
  exact ((List.nodup_finRange width).sublist (List.take_sublist count _)).map Fin.val_injective

theorem position_lt (run : SortedRun α width) (count : Nat) :
    ∀ entry ∈ run.entries count, entry.position < width := by
  intro entry met
  rcases List.mem_map.mp met with ⟨place, _, rfl⟩
  exact place.isLt

theorem entries_replace (valid : run.Valid count) {old : α} (found : run.get? count chunk = some old)
    (value : α) :
    (run.replace count chunk value).entries count =
      (run.entries count).map (Entry.given chunk value) := by
  rcases Option.bind_eq_some_iff.mp found with ⟨spot, here, _⟩
  have listed := (position?_eq_some_iff valid).mp here
  rw [replace, here, entries, entries, List.map_map]
  apply List.map_congr_left
  intro place early
  have below : place.val < count := by
    rcases List.mem_take_iff_getElem.mp early with ⟨index, inside, rfl⟩
    rw [List.getElem_finRange]
    exact (lt_min_iff.mp inside).1
  have chunkHere : run.position? count run.chunks[place] = some place.val := by
    rw [position?_eq_some_iff valid, run.getElem?_live below]
    simp
  by_cases same : run.chunks[place] = chunk
  · rw [same, here] at chunkHere
    cases chunkHere
    refine Eq.trans ?_ (Entry.given_of_eq same value).symm
    simp
  · have apart : spot ≠ place.val := by
      rintro rfl
      have both := (position?_eq_some_iff valid).mp chunkHere
      rw [listed] at both
      exact same (Option.some.inj both).symm
    refine Eq.trans ?_ (Entry.given_of_ne same value).symm
    simp [apart]

end SortedRun

namespace Indexed

variable {table : Indexed α}

theorem position_lt (valid : table.Valid) : ∀ entry ∈ table.entries, entry.position < 128 :=
  fun _ met => valid.bounded (table.mem_entries_iff.mp met).1

theorem entries_replace (valid : table.Valid) {old : α} (found : table.get? chunk = some old)
    (value : α) :
    (table.replace chunk value).entries = table.entries.map (Entry.given chunk value) := by
  rcases exists_offset found with ⟨spot, here⟩
  have inside := valid.bounded here
  rw [entries, entries, List.map_filterMap]
  congr 1
  funext place
  simp only [offset?_replace]
  cases located : table.offset? (UInt8.ofNat place.val) with
  | none => rfl
  | some offset =>
      simp only [replace, here, Option.bind_some]
      by_cases same : UInt8.ofNat place.val = chunk
      · rw [same, here] at located
        cases located
        simp [Entry.given, same, inside]
      · have apart : spot ≠ offset := by
          rintro rfl
          exact same (valid.injective located here)
        rw [Vector.getElem?_setIfInBounds_ne apart]
        cases table.slots[offset]? with
        | none => rfl
        | some held => exact congrArg some (Entry.given_of_ne same value).symm

end Indexed

namespace Direct

variable {table : Direct α}

theorem nodup_positions (table : Direct α) : (table.entries.map Entry.position).Nodup := by
  have numbers : table.entries.map Entry.position =
      (table.entries.map Entry.chunk).map UInt8.toNat := by
    rw [List.map_map]
    exact List.map_congr_left fun entry met => (table.mem_entries_iff.mp met).1
  rw [numbers]
  exact table.entries_ascending.nodup.map fun _ _ => UInt8.toNat_inj.mp

theorem position_lt (table : Direct α) : ∀ entry ∈ table.entries, entry.position < 256 := by
  intro entry met
  rw [(table.mem_entries_iff.mp met).1]
  exact entry.chunk.toNat_lt

theorem entries_replace (present : table.contains chunk = true) (value : α) :
    (table.replace chunk value).entries = table.entries.map (Entry.given chunk value) := by
  have written : table.replace chunk value = { table with slots := table.slots.set chunk.toFin value } :=
    if_pos present
  rw [written, entries, entries, List.map_flatMap]
  congr 1
  funext index
  rw [List.map_filterMap]
  apply List.filterMap_congr
  intro bit met
  rcases place_of_bit met with ⟨small, _⟩
  have number : (UInt8.ofNat (index.val * 64 + bit)).toNat = index.val * 64 + bit :=
    UInt8.toNat_ofNat'.trans (Nat.mod_eq_of_lt small)
  by_cases same : UInt8.ofNat (index.val * 64 + bit) = chunk
  · have spot : chunk.toNat = index.val * 64 + bit := same ▸ number
    simp [Entry.given, same, spot, small]
  · have apart : chunk.toNat ≠ index.val * 64 + bit := by
      intro spot
      exact same (by rw [← spot, UInt8.ofNat_toNat])
    have held : (table.slots.set chunk.toFin value)[index.val * 64 + bit]? =
        table.slots[index.val * 64 + bit]? := Vector.getElem?_set_ne _ apart
    simp only [held]
    cases table.slots[index.val * 64 + bit]? with
    | none => rfl
    | some held => exact congrArg some (Entry.given_of_ne same value).symm

end Direct

namespace Node

variable {node : Node α}

/-- The entries of a node lie in slots of their own. -/
theorem nodup_positions (valid : node.Valid) : (node.entries.map Entry.position).Nodup := by
  rcases node with ⟨slot, count, layout⟩
  cases layout with
  | sorted width run => exact run.nodup_positions count
  | indexed table => exact Indexed.nodup_positions valid.arranged
  | direct table => exact table.nodup_positions

/-- A node has no slots past its capacity. -/
theorem position_lt (valid : node.Valid) :
    ∀ entry ∈ node.entries, entry.position < node.sizeClass.capacity := by
  rcases node with ⟨slot, count, layout⟩
  cases layout with
  | sorted width run =>
      intro entry met
      exact (run.position_lt count entry met).trans_eq width.capacity_sizeClass.symm
  | indexed table => exact Indexed.position_lt valid.arranged
  | direct table => exact table.position_lt

theorem ascending_entries (valid : node.Valid) :
    (node.entries.map Entry.chunk).Pairwise (· < ·) := by
  have ascending := (listing valid).ascending
  rwa [bindings, List.map_map] at ascending

theorem mem_entries {entry : Entry α} (valid : node.Valid) (met : entry ∈ node.entries) :
    node.get? entry.chunk = some entry.value :=
  (mem_bindings_iff valid).mp (List.mem_map_of_mem met)

/-- A chunk that has a value keeps its slot when it is given another. -/
theorem entries_replace (valid : node.Valid) {old : α} (found : node.get? chunk = some old)
    (value : α) : (node.replace chunk value).entries = node.entries.map (Entry.given chunk value) := by
  rcases node with ⟨slot, count, layout⟩
  cases layout with
  | sorted width run => exact SortedRun.entries_replace valid.arranged found value
  | indexed table => exact Indexed.entries_replace valid.arranged found value
  | direct table => exact Direct.entries_replace (Direct.contains_of_get? found) value

end Node
end AdaptiveRadix
