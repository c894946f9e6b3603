import AdaptiveRadix.Proofs.Checked.Growth
import AdaptiveRadix.Proofs.Checked.Pruning
import AdaptiveRadix.Proofs.Checked.Walk
import AdaptiveRadix.Proofs.Tree.Accounts
import AdaptiveRadix.Proofs.Tree.WellFormed

namespace AdaptiveRadix

/-!
# Checked trees

A tree finds the level of a key by counting zeros, and the largest key below a root by a
shift; it counts its keys, and asks the pools for room.  None of this goes wrong in a
solvent tree whose pools have names enough, and neither does anything further down: an
insertion takes what was reserved for it, and nobody follows a handle that is not in use.
-/

open Pools

namespace Key

/-- Zeros are counted from above in a key that is not zero. -/
def checkedTopLevel (key : Key) : Checked Nat := do
  ensure (key ≠ 0 -> key.toBitVec.clz.toNat ≤ 63) .countUnderflow
  checkedShift key.topLevel
  return key.topLevel

/-- The bound of the highest level takes no shift. -/
def checkedBound (level : Nat) : Checked Key := do
  checkedShift level
  ensure (level = maxLevel ∨ shift (level + 1) < 64) .shiftTooFar
  return bound level

theorem checkedTopLevel_eq (key : Key) : key.checkedTopLevel = .ok key.topLevel := by
  have zeros : key ≠ 0 -> key.toBitVec.clz.toNat ≤ 63 := by
    intro nonzero
    have bits : key.toBitVec ≠ 0#64 := fun same => nonzero (UInt64.toBitVec_inj.mp same)
    exact Nat.le_of_lt_succ (BitVec.lt_def.mp (BitVec.clz_lt_iff_ne_zero.mpr bits))
  rw [checkedTopLevel, ensure_bind zeros, checkedShift_of_low key.topLevel_le_maxLevel, ok_bind]
  rfl

theorem checkedBound_of_low {level : Nat} (low : level ≤ maxLevel) :
    checkedBound level = .ok (bound level) := by
  have fits : level = maxLevel ∨ shift (level + 1) < 64 :=
    (Nat.eq_or_lt_of_le low).imp_right shift_lt_of_low
  rw [checkedBound, checkedShift_of_low low, ok_bind, ensure_bind fits]
  rfl

end Key

namespace Placement

/-- The highest level that a placement speaks of. -/
def level : Placement -> Nat
  | present => 0
  | gap level _ _ => level
  | above _ high => high
  | first level => level

private theorem count_growth_le (family : Family) (sizeClass : SizeClass) (full : Bool)
    (pool : PoolId) : (Demand.none.growth family sizeClass full).count pool ≤ 1 := by
  unfold Demand.growth
  split
  · rw [Demand.count_add, Demand.count_none]
    split <;> omega
  · rw [Demand.count_none]
    omega

private theorem count_chain_le (level : Nat) (pool : PoolId) :
    (Demand.chain level).count pool ≤ level + 1 := by
  rw [Demand.count_chain]
  split <;> split <;> omega

/-- A placement takes at most two paths and two nodes from one pool. -/
theorem count_demand_le (placement : Placement) (pool : PoolId) :
    placement.demand.count pool ≤ 2 * placement.level + 2 := by
  cases placement with
  | present =>
      rw [demand, Demand.count_none]
      omega
  | gap level sizeClass full =>
      cases level with
      | zero => exact (count_growth_le .leaf sizeClass full pool).trans (by omega)
      | succ below =>
          have path := count_chain_le below pool
          have node := count_growth_le .inner sizeClass full pool
          rw [demand, Demand.count_growth, Placement.level]
          omega
  | above low high =>
      have path := count_chain_le (high - 1) pool
      rw [demand, Demand.raise, Demand.count_add, Demand.count_add, Placement.level]
      split <;> split <;> omega
  | first level => exact (count_chain_le level pool).trans (by rw [Placement.level]; omega)

/-- The bytes that a placement demands are a word. -/
theorem bytes_demand_lt {placement : Placement} (low : placement.level ≤ Key.maxLevel) :
    placement.demand.bytes < 2 ^ 64 := by
  have few : forall pool, placement.demand.count pool ≤ 16 := by
    intro pool
    have most := placement.count_demand_le pool
    rw [Key.maxLevel] at low
    omega
  rw [bytes_eq]
  exact Nat.lt_of_le_of_lt (bytesOf_le few) (by decide +kernel)

end Placement

namespace Subtree

theorem level_placement_le {level : Nat} (subtree : Subtree level) (key : Key) :
    (subtree.placement key).level ≤ level := by
  induction subtree using byLevel with
  | leaf leaf =>
      cases found : leaf.get? (key.chunk 0) with
      | none =>
          rw [placement_leaf_of_gap found]
          exact Nat.le_refl 0
      | some value =>
          have present := (placement_eq_present_iff (ofLeaf leaf) key).mpr ⟨value, found⟩
          rw [present]
          exact Nat.le_refl 0
  | @node level node inductionHypothesis =>
      cases held : node.get? (key.chunk (level + 1)) with
      | none =>
          rw [placement_of_gap held]
          exact Nat.le_refl (level + 1)
      | some child =>
          rw [placement_of_child held]
          exact (inductionHypothesis child).trans (Nat.le_succ level)

end Subtree

namespace Root

def checkedRaised (root : Root) (high : Nat) (ledger : Ledger) : Checked (Root × Ledger) := do
  Key.checkedShift high
  let tall ← root.top.checkedWrapped ledger.pools (high - root.level)
  return (⟨root.level + (high - root.level), tall.1⟩,
    { pools := tall.2, events := ledger.events ++ [.raised root.level high] })

end Root

namespace Tree

def checkedGet? (tree : Tree) (key : Key) : Checked (Option UInt64) :=
  match tree.root? with
  | some root =>
      if tree.ceiling < key then return none else root.top.checkedGet? key tree.pools
  | none => return none

/-- The root is read for its level. -/
def checkedHeight (tree : Tree) : Checked Nat :=
  match tree.root? with
  | some root => do
      let _ ← tree.pools.checkedRead root.top.handle
      return tree.height
  | none => return tree.height

/-- A root that is too low is read for its level, and the key needs a higher one. -/
def checkedPlacement (tree : Tree) (key : Key) : Checked Placement :=
  match tree.root? with
  | some root =>
      if tree.ceiling < key then do
        let _ ← tree.pools.checkedRead root.top.handle
        let high ← key.checkedTopLevel
        ensure (root.level < high) .notHigher
        Key.checkedLowered high
        return .above root.level high
      else root.top.checkedPlacement key tree.pools
  | none => do
      let level ← key.checkedTopLevel
      return .first level

def checkedReplace (tree : Tree) (key : Key) (value : UInt64) : Checked Tree :=
  match tree.root? with
  | some root => do
      let changed ← root.top.checkedReplace key value tree.pools
      return { tree with root? := some ⟨root.level, changed⟩ }
  | none => return tree

def checkedRaisedFor (tree : Tree) (root : Root) (key : Key) : Checked (Root × Ledger) :=
  if tree.ceiling < key then do
    let high ← key.checkedTopLevel
    let _ ← Key.checkedBound high
    root.checkedRaised high ⟨tree.pools, []⟩
  else return (root, ⟨tree.pools, []⟩)

def checkedAdded (tree : Tree) (key : Key) (value : UInt64) : Checked (Tree × List Event) := do
  ensure (tree.size + 1 < 2 ^ 64) .countOverflow
  match tree.root? with
  | none => do
      let level ← key.checkedTopLevel
      let path ← Subtree.checkedChain key value tree.pools level
      let ceiling ← Key.checkedBound level
      return ({ tree with
          root? := some ⟨level, path.1⟩
          ceiling := ceiling
          pools := path.2
          size := tree.size + 1 },
        [.created key level])
  | some root => do
      let tall ← tree.checkedRaisedFor root key
      let grown ← tall.1.top.checkedInsert Anchor.root key value tall.2
      return ({ tree with
          root? := some ⟨tall.1.level, grown.1⟩
          ceiling := if tree.ceiling < key then Key.bound key.topLevel else tree.ceiling
          pools := grown.2.pools
          size := tree.size + 1 },
        grown.2.events)

def checkedInsertWithin (tree : Tree) (allowance : Allowance) (key : Key) (value : UInt64) :
    Checked (Outcome Tree (Except OutOfMemory Bool)) := do
  let placement ← tree.checkedPlacement key
  if placement = .present then do
    let changed ← tree.checkedReplace key value
    return ⟨changed, .ok true, []⟩
  else
    match ← tree.pools.checkedReserve tree.limit? allowance placement.demand with
    | .granted pools => do
        let grown ← { tree with pools := pools }.checkedAdded key value
        return ⟨grown.1, .ok false, grown.2⟩
    | .overLimit shortage limit =>
        return ⟨tree, .error shortage, [.overLimit shortage.requested shortage.available limit]⟩
    | .refused pools shortage =>
        return ⟨{ tree with pools := pools }, .error shortage, [.refused shortage.requested]⟩

def checkedUpdate (tree : Tree) (key : Key) (value : UInt64) : Checked (Tree × Option UInt64) := do
  match ← tree.checkedGet? key with
  | some old => do
      let changed ← tree.checkedReplace key value
      return (changed, some old)
  | none => return (tree, none)

/-- A tree that becomes empty had one key. -/
def checkedErase (tree : Tree) (key : Key) : Checked (Outcome Tree Bool) := do
  match tree.root?, ← tree.checkedGet? key with
  | some root, some _ => do
      ensure (0 < tree.size) .countUnderflow
      let rest ← root.top.checkedErase Anchor.root key tree.pools
      ensure (rest.1.isNone -> tree.size - 1 = 0) .entriesLeft
      let smaller : Tree :=
        { tree with
          root? := rest.1.map fun top => ⟨root.level, top⟩
          ceiling := if rest.1.isNone then 0 else tree.ceiling
          pools := rest.2
          size := tree.size - 1 }
      return ⟨smaller, true, if rest.1.isNone then [.emptied key] else []⟩
  | _, _ => return ⟨tree, false, []⟩

def checkedVisits (tree : Tree) : Checked (List Visit) :=
  match tree.root? with
  | some root => root.top.checkedVisits tree.pools 0 0
  | none => return []

/-! ## Reading -/

variable {tree : Tree} {root : Root} {key : Key}

theorem inventory_root (sound : tree.Sound) (held : tree.root? = some root) :
    Inventory tree.pools (root.top.edges Anchor.root ++ []) := by
  have inventory := sound.inventory
  rwa [edges, held, Option.elim_some, ← List.append_nil (root.top.edges Anchor.root)] at inventory

theorem records_root (sound : tree.Sound) (held : tree.root? = some root) :
    tree.pools.Records (root.top.edges Anchor.root) :=
  (inventory_root sound held).records.mono (List.subset_append_left _ _)

theorem read_root (sound : tree.Sound) (held : tree.root? = some root) :
    tree.pools.checkedRead root.top.handle = .ok Anchor.root := by
  have records := records_root sound held
  rw [Subtree.edges_eq_cons] at records
  exact checkedRead_of_used (records _ List.mem_cons_self)

theorem checkedGet?_of_sound (sound : tree.Sound) (key : Key) :
    tree.checkedGet? key = .ok (tree.get? key) := by
  rw [checkedGet?, get?]
  cases held : tree.root? with
  | none => rfl
  | some root =>
      rcases sound.sound root held with ⟨low, top⟩
      have found := Subtree.checkedGet?_of_sound top low key (records_root sound held)
      by_cases tooLow : tree.ceiling < key
      · simp only [if_pos tooLow]
        rfl
      · simp only [if_neg tooLow, found]

theorem checkedHeight_of_sound (sound : tree.Sound) : tree.checkedHeight = .ok tree.height := by
  rw [checkedHeight]
  cases held : tree.root? with
  | none => rfl
  | some root =>
      simp only [read_root sound held, ok_bind]
      rfl

theorem checkedPlacement_of_sound (sound : tree.Sound) (key : Key) :
    tree.checkedPlacement key = .ok (tree.placement key) := by
  rw [checkedPlacement, placement]
  cases held : tree.root? with
  | none =>
      simp only [Key.checkedTopLevel_eq, ok_bind]
      rfl
  | some root =>
      rcases sound.sound root held with ⟨low, top⟩
      by_cases tooLow : tree.ceiling < key
      · have lower := level_lt_topLevel sound.toRooted held tooLow
        have stepped : Key.checkedLowered key.topLevel = .ok () := by
          rw [← Nat.succ_pred_eq_of_pos (Nat.zero_lt_of_lt lower)]
          exact Key.checkedLowered_succ _
        simp only [if_pos tooLow, read_root sound held, ok_bind, Key.checkedTopLevel_eq,
          ensure_bind lower, stepped]
        rfl
      · simp only [if_neg tooLow]
        exact Subtree.checkedPlacement_of_sound top low key (records_root sound held)

theorem checkedReplace_of_sound (sound : tree.Sound) (key : Key) (value : UInt64) :
    tree.checkedReplace key value = .ok (tree.replace key value) := by
  rw [checkedReplace]
  cases held : tree.root? with
  | none =>
      have same : tree.replace key value = tree := by rw [replace, held, Option.map_none, ← held]
      rw [same]
      rfl
  | some root =>
      rcases sound.sound root held with ⟨low, top⟩
      have changed := Subtree.checkedReplace_of_sound top low key value (records_root sound held)
      simp only [changed, ok_bind, replace_of_root held]
      rfl

theorem checkedVisits_of_sound (sound : tree.Sound) : tree.checkedVisits = .ok tree.visits := by
  rw [checkedVisits, visits]
  cases held : tree.root? with
  | none => rfl
  | some root =>
      rcases sound.sound root held with ⟨low, top⟩
      exact Subtree.checkedVisits_of_sound top low (records_root sound held) 0 0

/-! ## The number of keys -/

private theorem eight_mul_values_le {site : Site} (proper : site.Proper) :
    8 * site.values ≤ site.handle.pool.nodeBytes := by
  rw [Site.values]
  split
  · rename_i bottom
    have room := proper.capacity
    rw [proper.occupied] at room
    rw [proper.housed, bottom]
    generalize site.sizeClass = sizeClass at room
    cases sizeClass <;> exact (Nat.mul_le_mul_left 8 room).trans (by decide)
  · exact Nat.zero_le _

/-- Every key takes eight bytes of a leaf. -/
theorem eight_mul_size_le (sound : tree.Sound) : 8 * tree.size ≤ tree.liveBytes := by
  have formed := sound.wellFormed
  have live : tree.pools.liveNodes =
      fun pool => (tree.sites.map fun site => site.handle.pool).count pool := by
    funext pool
    rw [formed.live, List.count_eq_countP, List.countP_map, List.countP_map]
    rfl
  calc 8 * tree.size
      = (tree.sites.map fun site => 8 * site.values).sum := by
        rw [formed.counted, List.sum_map_mul_left]
    _ ≤ (tree.sites.map fun site => site.handle.pool.nodeBytes).sum :=
        List.sum_le_sum fun site listed => eight_mul_values_le (formed.proper site listed)
    _ = ((tree.sites.map fun site => site.handle.pool).map PoolId.nodeBytes).sum := by
        rw [List.map_map]
        rfl
    _ = tree.liveBytes := by rw [liveBytes, liveBytes_eq, live, bytesOf_count]

theorem size_lt (sound : tree.Sound) (named : tree.pools.Named) : tree.size < 2 ^ 42 := by
  have bytes : tree.liveBytes < 2 ^ 45 := liveBytes_lt sound.inventory.sound named
  have keys := eight_mul_size_le sound
  omega

/-! ## Changing -/

theorem checkedRaisedFor_of_affords (sound : tree.Sound) (held : tree.root? = some root)
    (affords : tree.pools.Affords (tree.raisingMoves root key)) :
    tree.checkedRaisedFor root key = .ok (tree.raisedFor root key) := by
  have level := level_raisedFor sound.toRooted held key
  have low := (fitting_raisedFor sound.toRooted held key).sound.low
  rw [checkedRaisedFor]
  rw [raisingMoves] at affords
  rw [raisedFor] at low level ⊢
  by_cases tooLow : tree.ceiling < key
  · rw [if_pos tooLow] at affords low level ⊢
    have high := key.topLevel_le_maxLevel
    have inventory := inventory_root sound held
    have wrapped := Subtree.checkedWrapped_of_affords inventory low affords
    rw [if_pos tooLow, Key.checkedTopLevel_eq, ok_bind, Key.checkedBound_of_low high, ok_bind,
      Root.checkedRaised, Key.checkedShift_of_low high, ok_bind, wrapped, ok_bind]
    rfl
  · rw [if_neg tooLow, if_neg tooLow]
    rfl

theorem checkedAdded_of_affords (sound : tree.Sound) (few : tree.size + 1 < 2 ^ 64)
    (missed : tree.get? key = none) (value : UInt64)
    (affords : tree.pools.Affords (tree.addedMoves key value)) :
    tree.checkedAdded key value = .ok (tree.added key value) := by
  rw [checkedAdded, ensure_bind few, added]
  cases held : tree.root? with
  | none =>
      have high := key.topLevel_le_maxLevel
      rw [addedMoves_of_none held] at affords
      have chained := Subtree.checkedChain_of_affords sound.inventory high value affords
      simp only [Key.checkedTopLevel_eq, ok_bind, chained, Key.checkedBound_of_low high]
      rfl
  | some root =>
      rw [addedMoves_of_root held, affords_append, performAll_raisingMoves] at affords
      have fitting := fitting_raisedFor sound.toRooted held key
      have absent := get?_raisedFor sound.toRooted held missed
      have inventory := inventory_root sound held
      have orphan : ∀ parent ∈ Anchor.root.parent?,
          parent ∈ ([] : List (Handle × Anchor)).map Prod.fst := by
        intro parent named
        cases named
      have grown := Subtree.checkedInsert_of_affords fitting.sound.top fitting.sound.low absent value
        _ (fitting.exchange.inventory inventory) orphan affords.2
      simp only [checkedRaisedFor_of_affords sound held affords.1, ok_bind, grown]
      rfl

theorem level_placement_le (sound : tree.Sound) (key : Key) :
    (tree.placement key).level ≤ Key.maxLevel := by
  rw [placement]
  split
  · rename_i root held
    split
    · exact key.topLevel_le_maxLevel
    · exact (root.top.level_placement_le key).trans (sound.sound root held).low
  · exact key.topLevel_le_maxLevel

/-- Names that suffice after a request sufficed before it. -/
theorem named_of_perform (request : Request) (named : (tree.perform request).1.pools.Named) :
    tree.pools.Named := by
  rw [← performAll_moves] at named
  exact named.of_performAll

/-- What was reserved for a key is what its addition takes. -/
theorem affords_addedMoves (solvent : tree.Solvent) (missed : tree.get? key = none)
    {roomier : Pools} (gained : tree.pools.Roomier roomier)
    (room : forall pool,
      (roomier.slab pool).mustGrow ((tree.placement key).demand.count pool) = false)
    {value : UInt64}
    (named : (({ tree with pools := roomier } : Tree).added key value).1.pools.Named) :
    roomier.Affords (({ tree with pools := roomier } : Tree).addedMoves key value) := by
  have sound : ({ tree with pools := roomier } : Tree).Sound := solvent.sound.roomier gained
  have opened : roomier.Opened := gained.opened solvent.opened
  have enough := hasRoomFor_addedMoves sound opened missed room value
  rw [← performAll_addedMoves] at named
  exact enough.affords sound.inventory.sound named

theorem checkedInsertWithin_of_solvent (solvent : tree.Solvent) (allowance : Allowance) (key : Key)
    (value : UInt64) (named : (tree.insertWithin allowance key value).state.pools.Named) :
    tree.checkedInsertWithin allowance key value = .ok (tree.insertWithin allowance key value) := by
  have sound := solvent.sound
  have before : tree.pools.Named := named_of_perform (.insert key value allowance) named
  rw [checkedInsertWithin, checkedPlacement_of_sound sound, ok_bind]
  rw [insertWithin] at named ⊢
  by_cases present : tree.placement key = .present
  · simp only [if_pos present, checkedReplace_of_sound sound, ok_bind]
    rfl
  · have missed := placement_ne_present_iff.mp present
    have small := Placement.bytes_demand_lt (level_placement_le sound key)
    have outcome := reserved tree.pools tree.limit? allowance (tree.placement key).demand
    rw [if_neg present] at named
    simp only [if_neg present, checkedReserve_of_sound sound.inventory.sound before _ _ small, ok_bind]
    cases reservation : tree.pools.reserve tree.limit? allowance (tree.placement key).demand with
    | overLimit | refused => rfl
    | granted roomier =>
        rw [reservation] at named outcome
        rcases outcome with ⟨gained, room, _⟩
        have roomy : ({ tree with pools := roomier } : Tree).Sound := sound.roomier gained
        have few : tree.size + 1 < 2 ^ 64 :=
          (Nat.succ_le_of_lt (size_lt sound before)).trans_lt (by decide)
        have added := checkedAdded_of_affords roomy few missed value
          (affords_addedMoves solvent missed gained room named)
        simp only [added, ok_bind]
        rfl

theorem checkedUpdate_of_sound (sound : tree.Sound) (key : Key) (value : UInt64) :
    tree.checkedUpdate key value = .ok (tree.update key value) := by
  rw [checkedUpdate, checkedGet?_of_sound sound, ok_bind, update]
  cases tree.get? key with
  | none => rfl
  | some old =>
      simp only [checkedReplace_of_sound sound, ok_bind]
      rfl

theorem checkedErase_of_sound (sound : tree.Sound) (key : Key) :
    tree.checkedErase key = .ok (tree.erase key) := by
  rw [checkedErase, checkedGet?_of_sound sound, ok_bind]
  cases found : tree.get? key with
  | none =>
      rw [erase_of_get?_none found]
      cases tree.root? <;> rfl
  | some old =>
      rcases exists_root sound.toRooted found with ⟨root, held, _, below⟩
      rcases sound.sound root held with ⟨low, top⟩
      have inventory := inventory_root sound held
      have pruned := Subtree.checkedErase_of_found top low below inventory
      have some : 0 < tree.size := by
        rw [Nat.pos_iff_ne_zero, ne_eq, ← isEmpty_iff sound, isEmpty, held]
        simp
      have last : (root.top.erase key tree.pools).1.isNone -> tree.size - 1 = 0 := by
        intro gone
        have smaller := (erase_keeps sound found).1
        have blank := isEmpty_iff smaller
        rw [(erase_of_root held found).2] at blank
        apply blank.mp
        rw [isEmpty, Option.isNone_map, gone]
      rw [erase, held, found]
      simp only [ensure_bind some, pruned, ok_bind, ensure_bind last]
      rfl

end Tree
end AdaptiveRadix
