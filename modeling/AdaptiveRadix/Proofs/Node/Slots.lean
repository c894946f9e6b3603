import AdaptiveRadix.Proofs.Bits
import AdaptiveRadix.Proofs.Node.Refinement

namespace AdaptiveRadix

/-!
# The slots of an indexed table

Above its layout a node with 128 slots is a finite map like any other node.  This module
says what table and bitmap look like meanwhile: the chunks of the map are numbered by
slots in use, one to one, the bitmap has as many bits as the map has bindings, and the
next insertion goes to the lowest slot that is free, away from all slots referred to.
-/

variable {α : Type}

namespace Indexed

variable {table : Indexed α}

theorem isUsed_eq (table : Indexed α) (slot : Fin 128) :
    table.isUsed slot = table.used.getLsbD slot.val :=
  (BitVec.getLsbD_eq_getElem slot.isLt).symm

/-- The bitmap has a bit for each entry. -/
theorem cpop_used (valid : table.Valid) : table.used.cpop.toNat = table.entries.length := by
  rw [toNat_cpop, ← countP_isUsed valid, Nat.count, ← List.map_coe_finRange_eq_range,
    List.countP_map]
  apply List.countP_congr
  intro slot _
  rw [isUsed_eq, Function.comp_apply, decide_eq_true_eq]

/-- An insertion into a slot below which no other is free, and that changes nothing else. -/
structure TakesLowest (table : Indexed α) (chunk : Chunk) (value : α) (slot : Fin 128) : Prop where
  vacant : table.isUsed slot = false
  occupied_below : ∀ lower < slot, table.isUsed lower = true
  ctz_eq : (~~~table.used).ctz.toNat = slot.val
  offset?_eq : (table.insert chunk value).offset? chunk = some slot.val
  get?_eq : (table.insert chunk value).get? chunk = some value
  offset?_other : ∀ other ≠ chunk, (table.insert chunk value).offset? other = table.offset? other
  get?_other : ∀ other ≠ chunk, (table.insert chunk value).get? other = table.get? other

/-- What comes before the first free slot is in use. -/
theorem isUsed_of_lt_lowestFree? {slot : Fin 128} (free : table.lowestFree? = some slot) :
    ∀ lower < slot, table.isUsed lower = true := by
  intro lower less
  rcases List.find?_eq_some_iff_getElem.mp free with ⟨_, place, inside, here, before⟩
  rw [List.getElem_finRange] at here
  subst here
  have earlier := before lower.val less
  rw [List.getElem_finRange] at earlier
  simpa using earlier

theorem takesLowest (valid : table.Valid) {slot : Fin 128} (free : table.lowestFree? = some slot)
    (chunk : Chunk) (value : α) : TakesLowest table chunk value slot where
  vacant := used_of_lowestFree? free
  occupied_below := isUsed_of_lt_lowestFree? free
  ctz_eq := by
    apply toNat_ctz_not slot.isLt
    · rw [← isUsed_eq, used_of_lowestFree? free]
    · intro lower less
      have inside : lower < 128 := Nat.lt_trans less slot.isLt
      rw [← isUsed_eq table ⟨lower, inside⟩]
      exact isUsed_of_lt_lowestFree? free ⟨lower, inside⟩ less
  offset?_eq := by rw [offset?_insert free, if_pos rfl]
  get?_eq := by rw [get?_insert valid free, if_pos rfl]
  offset?_other other different := by rw [offset?_insert free, if_neg different]
  get?_other other different := by rw [get?_insert valid free, if_neg different]

/-- The chunks of a finite map numbered by the slots in use, where their values are. -/
structure Tabulates (table : Indexed α) (map : Node.Reference α) : Prop
    extends table.Valid where
  offset?_isSome_iff : forall {chunk : Chunk}, (table.offset? chunk).isSome = true ↔ chunk ∈ map
  slot_eq : forall {chunk : Chunk} {offset : Nat}, table.offset? chunk = some offset ->
    table.slots[offset]? = map[chunk]?
  cpop_eq : table.used.cpop.toNat = map.size
  takesLowest : ∀ chunk ∉ map, map.size < 128 ->
    forall value, ∃ slot, TakesLowest table chunk value slot

end Indexed

namespace Node

/-- A node of the class with 128 slots has an indexed table. -/
theorem exists_indexed {node : Node α} (sizeClass : node.sizeClass = .c128) :
    ∃ table, node.layout = .indexed table := by
  rcases node with ⟨slot, count, layout⟩
  cases layout with
  | sorted width run => cases width <;> cases sizeClass
  | indexed table => exact ⟨table, rfl⟩
  | direct table => cases sizeClass

theorem Agrees.tabulates {node : Node α} {map : Reference α} (agrees : Agrees node map)
    {table : Indexed α} (indexed : node.layout = .indexed table) : table.Tabulates map := by
  rcases node with ⟨slot, count, layout⟩
  cases indexed
  have valid : table.Valid := agrees.valid.arranged
  have entries : table.entries.length = map.size := agrees.valid.counted.trans agrees.count_eq
  have same : forall chunk, table.get? chunk = map[chunk]? := agrees.same
  refine ⟨valid, ?_, ?_, (Indexed.cpop_used valid).trans entries, ?_⟩
  · intro chunk
    rw [Std.ExtTreeMap.mem_iff_isSome_getElem?, ← same]
    constructor
    · intro located
      rcases Option.isSome_iff_exists.mp located with ⟨offset, here⟩
      simp [Indexed.get?, here, valid.bounded here]
    · intro found
      rcases Option.isSome_iff_exists.mp found with ⟨value, here⟩
      exact Option.isSome_iff_exists.mpr (Indexed.exists_offset here)
  · intro chunk offset located
    rw [← same, Indexed.get?, located, Option.bind_some]
  · intro chunk _ room value
    rcases Indexed.exists_lowestFree? valid (entries.trans_lt room) with ⟨free, found⟩
    exact ⟨free, Indexed.takesLowest valid found chunk value⟩

/-- A node whose table numbers the chunks of a map, with a bit in use for each entry counted. -/
structure Numbers (node : Node α) (map : Reference α) (table : Indexed α) : Prop where
  layout_eq : node.layout = .indexed table
  count_eq : node.count = table.used.cpop.toNat
  tabulates : table.Tabulates map

/-- A new node with 128 slots answers orderly calls as a finite map does, and no check fails
on the way.  After any number of the calls its table numbers the chunks of that map. -/
theorem tabulates_after [Inhabited α] (slot : Nat) {requests : List (Request α)}
    (orderly : Orderly 128 ∅ requests) :
    Follows (vacant .c128 slot) ∅ requests ∧
      ∀ early, early <+: requests ->
        ∃ table,
          Numbers (served perform (vacant .c128 slot) early).1 (followingAll ∅ early) table := by
  refine ⟨follows_vacant .c128 slot orderly, fun early first => ?_⟩
  rcases first with ⟨late, rfl⟩
  have agrees := (follows_vacant .c128 slot orderly.early).agrees
  have kept := sizeClass_served (vacant .c128 slot : Node α) early
  rcases exists_indexed kept with ⟨table, indexed⟩
  have tabulates := agrees.tabulates indexed
  exact ⟨table, indexed, agrees.count_eq.trans tabulates.cpop_eq.symm, tabulates⟩

/-- The holes that removals leave are filled again, the lowest first. -/
def holeAndRefill : List (Request Nat) :=
  [.insert 7 70, .insert 9 90, .insert 8 80, .erase 7, .erase 9, .insert 200 5, .replace 8 81,
    .lookup 8, .erase 7, .forEach]

theorem tabulates_after_holeAndRefill :
    Orderly 128 ∅ holeAndRefill ∧
      Follows (vacant .c128 3) ∅ holeAndRefill ∧
        ∀ early, early <+: holeAndRefill ->
          ∃ table,
            Numbers (served perform (vacant .c128 3) early).1 (followingAll ∅ early) table := by
  have orderly : Orderly 128 ∅ holeAndRefill := by decide +kernel
  exact ⟨orderly, tabulates_after 3 orderly⟩

end Node
end AdaptiveRadix
