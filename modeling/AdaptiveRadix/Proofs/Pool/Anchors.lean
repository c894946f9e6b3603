import AdaptiveRadix.Pool.Basic
import AdaptiveRadix.Proofs.Pool.FreeList

namespace AdaptiveRadix

/-!
# What the pools have on record

The pools are a map from handles in use to anchors.  The lemmas here say what each
dealing with a pool does to that map, so that no proof about trees opens a slab.

An inventory lists that map: every handle in use, once, with its anchor.  What an
operation on part of a tree does is an exchange, which turns any inventory with the
nodes of `old` in it into one with those of `new` in their place.  Exchanges compose,
and the nodes that an exchange does not name keep their handles and their anchors.
-/

/-- Bytes are counted by multiplying, so where there are no nodes there are no bytes. -/
theorem PoolId.total_of_zero {nodes : PoolId -> Nat} (nothing : forall pool, nodes pool = 0) :
    (total fun pool => nodes pool * pool.nodeBytes) = 0 := by
  rw [funext nothing]
  decide

namespace PerPool

variable {α : Type}

theorem get_modify_self (table : PerPool α) (pool : PoolId) (change : α -> α) :
    (table.modify pool change).get pool = change (table.get pool) :=
  get_set_self table pool _

theorem get_modify_of_ne (table : PerPool α) {pool other : PoolId} (change : α -> α)
    (different : pool ≠ other) : (table.modify pool change).get other = table.get other :=
  get_set_of_ne table _ different

end PerPool

namespace Pools

/-- Every free list is in order. -/
def Sound (pools : Pools) : Prop :=
  forall pool, (pools.slab pool).Sound

theorem slab_empty (pool : PoolId) : empty.slab pool = Slab.empty :=
  PerPool.get_tabulate _ pool

theorem sound_empty : empty.Sound := fun pool => slab_empty pool ▸ Slab.sound_empty

theorem anchor?_empty (handle : Handle) : empty.anchor? handle = none := by
  simp [anchor?, slab_empty, Slab.get?, Slab.empty]

theorem liveBytes_empty : empty.liveBytes = 0 := by
  apply PoolId.total_of_zero
  intro pool
  rw [liveNodes, slab_empty, Slab.empty]

/-! ## Handing out -/

theorem pool_take (pools : Pools) (pool : PoolId) : (pools.take pool).1.pool = pool :=
  rfl

theorem slab_take_self (pools : Pools) (pool : PoolId) :
    (pools.take pool).2.slab pool = ((pools.slab pool).take Anchor.root).2 :=
  PerPool.get_set_self pools.slabs pool _

theorem slab_take_of_ne (pools : Pools) {pool other : PoolId} (different : pool ≠ other) :
    (pools.take pool).2.slab other = pools.slab other :=
  PerPool.get_set_of_ne pools.slabs _ different

theorem sound_take {pools : Pools} (sound : pools.Sound) (pool : PoolId) :
    (pools.take pool).2.Sound := by
  intro other
  by_cases same : pool = other
  · subst other
    rw [slab_take_self]
    exact Slab.sound_take (sound pool) Anchor.root
  · rw [slab_take_of_ne pools same]
    exact sound other

/-- A handle in use is never handed out. -/
theorem anchor?_take_fresh {pools : Pools} (sound : pools.Sound) (pool : PoolId) :
    pools.anchor? (pools.take pool).1 = none :=
  Slab.get?_take_fresh (sound pool) Anchor.root

theorem anchor?_take_self (pools : Pools) (pool : PoolId) :
    (pools.take pool).2.anchor? (pools.take pool).1 = some Anchor.root := by
  rw [anchor?, pool_take, slab_take_self]
  exact Slab.get?_take_self (pools.slab pool) Anchor.root

theorem anchor?_take_of_ne (pools : Pools) (pool : PoolId) {other : Handle}
    (different : other ≠ (pools.take pool).1) :
    (pools.take pool).2.anchor? other = pools.anchor? other := by
  by_cases same : pool = other.pool
  · subst pool
    have slots : other.slot ≠ ((pools.slab other.pool).take Anchor.root).1 := by
      intro clash
      apply different
      rcases other with ⟨pool, slot⟩
      exact congrArg (Handle.mk pool) clash
    rw [anchor?, slab_take_self, Slab.get?_take_of_ne _ _ slots, anchor?]
  · rw [anchor?, slab_take_of_ne pools same, anchor?]

/-! ## Giving back -/

private theorem slot_ne {handle other : Handle} (pools : handle.pool = other.pool)
    (different : other ≠ handle) : other.slot ≠ handle.slot := by
  intro slots
  apply different
  rcases other with ⟨pool, slot⟩
  rcases handle with ⟨_, _⟩
  cases pools
  cases slots
  rfl

theorem slab_release_self (pools : Pools) (handle : Handle) :
    (pools.release handle).slab handle.pool = (pools.slab handle.pool).release handle.slot :=
  PerPool.get_modify_self pools.slabs handle.pool _

theorem slab_release_of_ne (pools : Pools) {handle : Handle} {other : PoolId}
    (different : handle.pool ≠ other) : (pools.release handle).slab other = pools.slab other :=
  PerPool.get_modify_of_ne pools.slabs _ different

theorem sound_release {pools : Pools} (sound : pools.Sound) (handle : Handle) :
    (pools.release handle).Sound := by
  intro other
  by_cases same : handle.pool = other
  · subst other
    rw [slab_release_self]
    exact Slab.sound_release (sound handle.pool) handle.slot
  · rw [slab_release_of_ne pools same]
    exact sound other

theorem anchor?_release_self (pools : Pools) (handle : Handle) :
    (pools.release handle).anchor? handle = none := by
  rw [anchor?, slab_release_self]
  exact Slab.get?_release_self _ handle.slot

theorem anchor?_release_of_ne (pools : Pools) {handle other : Handle} (different : other ≠ handle) :
    (pools.release handle).anchor? other = pools.anchor? other := by
  by_cases same : handle.pool = other.pool
  · have slots := slot_ne same different
    rw [anchor?, ← same, slab_release_self, Slab.get?_release_of_ne _ slots, same, anchor?]
  · rw [anchor?, slab_release_of_ne pools same, anchor?]

/-! ## Recording edges -/

theorem slab_anchored_self (pools : Pools) (handle : Handle) (anchor : Anchor) :
    (pools.anchored handle anchor).slab handle.pool =
      (pools.slab handle.pool).assign handle.slot anchor :=
  PerPool.get_modify_self pools.slabs handle.pool _

theorem slab_anchored_of_ne (pools : Pools) {handle : Handle} (anchor : Anchor) {other : PoolId}
    (different : handle.pool ≠ other) :
    (pools.anchored handle anchor).slab other = pools.slab other :=
  PerPool.get_modify_of_ne pools.slabs _ different

theorem sound_anchored {pools : Pools} (sound : pools.Sound) (handle : Handle) (anchor : Anchor) :
    (pools.anchored handle anchor).Sound := by
  intro other
  by_cases same : handle.pool = other
  · subst other
    rw [slab_anchored_self]
    exact Slab.sound_assign (sound handle.pool) handle.slot anchor
  · rw [slab_anchored_of_ne pools anchor same]
    exact sound other

theorem anchor?_anchored_self {pools : Pools} {handle : Handle} {old : Anchor}
    (used : pools.anchor? handle = some old) (anchor : Anchor) :
    (pools.anchored handle anchor).anchor? handle = some anchor := by
  rw [anchor?, slab_anchored_self]
  exact Slab.get?_assign_self used anchor

theorem anchor?_anchored_of_ne (pools : Pools) {handle other : Handle} (anchor : Anchor)
    (different : other ≠ handle) :
    (pools.anchored handle anchor).anchor? other = pools.anchor? other := by
  by_cases same : handle.pool = other.pool
  · have slots := slot_ne same different
    rw [anchor?, ← same, slab_anchored_self, Slab.get?_assign_of_ne _ _ slots, same, anchor?]
  · rw [anchor?, slab_anchored_of_ne pools anchor same, anchor?]

/-- Record that each of the children is held by another parent now. -/
def adoptedAll (pools : Pools) (parent : Handle) (children : List Handle) : Pools :=
  children.foldl (fun pools child => pools.adopted parent child) pools

end Pools

/-! ## Inventories -/

/-- The nodes in use, each once, with the anchors that the pools have on record. -/
structure Inventory (pools : Pools) (nodes : List (Handle × Anchor)) : Prop where
  sound : pools.Sound
  distinct : (nodes.map Prod.fst).Nodup
  mem_iff : forall {handle : Handle} {anchor : Anchor},
    (handle, anchor) ∈ nodes ↔ pools.anchor? handle = some anchor

namespace Inventory

variable {pools : Pools} {nodes others : List (Handle × Anchor)} {handle : Handle}
  {anchor : Anchor}

theorem empty : Inventory Pools.empty [] where
  sound := Pools.sound_empty
  distinct := List.nodup_nil
  mem_iff := by simp [Pools.anchor?_empty]

/-- The order in which nodes are listed does not matter. -/
theorem perm (inventory : Inventory pools nodes) (same : nodes.Perm others) :
    Inventory pools others where
  sound := inventory.sound
  distinct := (same.map Prod.fst).nodup_iff.mp inventory.distinct
  mem_iff := same.mem_iff.symm.trans inventory.mem_iff

theorem not_mem_of_anchor?_none (inventory : Inventory pools nodes)
    (unused : pools.anchor? handle = none) : handle ∉ nodes.map Prod.fst := by
  intro listed
  rcases List.mem_map.mp listed with ⟨⟨_, held⟩, member, rfl⟩
  rw [inventory.mem_iff.mp member] at unused
  cases unused

/-- The listing of the head of an inventory says all that is on record about it. -/
theorem head (inventory : Inventory pools ((handle, anchor) :: nodes)) :
    pools.anchor? handle = some anchor :=
  inventory.mem_iff.mp List.mem_cons_self

private theorem ne_head (inventory : Inventory pools ((handle, anchor) :: nodes))
    {other : Handle × Anchor} (listed : other ∈ nodes) : other.1 ≠ handle := by
  have member : other.1 ∈ nodes.map Prod.fst := List.mem_map_of_mem listed
  intro same
  exact (List.nodup_cons.mp inventory.distinct).1 (same ▸ member)

theorem take (inventory : Inventory pools nodes) (pool : PoolId) :
    Inventory (pools.take pool).2 (((pools.take pool).1, Anchor.root) :: nodes) := by
  have unused := Pools.anchor?_take_fresh inventory.sound pool
  have fresh := inventory.not_mem_of_anchor?_none unused
  refine ⟨Pools.sound_take inventory.sound pool, List.nodup_cons.mpr ⟨fresh, inventory.distinct⟩, ?_⟩
  intro handle anchor
  rw [List.mem_cons, Prod.mk.injEq, inventory.mem_iff]
  by_cases same : handle = (pools.take pool).1
  · subst handle
    rw [Pools.anchor?_take_self, unused]
    simp [eq_comm]
  · rw [Pools.anchor?_take_of_ne pools pool same]
    simp [same]

theorem release (inventory : Inventory pools ((handle, anchor) :: nodes)) :
    Inventory (pools.release handle) nodes := by
  refine ⟨Pools.sound_release inventory.sound handle, (List.nodup_cons.mp inventory.distinct).2, ?_⟩
  intro other held
  by_cases same : other = handle
  · subst other
    rw [Pools.anchor?_release_self]
    constructor
    · intro listed
      exact absurd rfl (inventory.ne_head listed)
    · intro impossible
      cases impossible
  · rw [Pools.anchor?_release_of_ne pools same, ← inventory.mem_iff, List.mem_cons, Prod.mk.injEq]
    simp [same]

theorem anchored (inventory : Inventory pools ((handle, anchor) :: nodes)) (changed : Anchor) :
    Inventory (pools.anchored handle changed) ((handle, changed) :: nodes) := by
  refine ⟨Pools.sound_anchored inventory.sound handle changed, inventory.distinct, ?_⟩
  intro other held
  by_cases same : other = handle
  · subst other
    rw [Pools.anchor?_anchored_self inventory.head, List.mem_cons, Prod.mk.injEq]
    constructor
    · intro listed
      rcases listed with now | before
      · rw [now.2]
      · exact absurd rfl (inventory.ne_head before)
    · intro now
      exact Or.inl ⟨rfl, (Option.some.inj now).symm⟩
  · rw [Pools.anchor?_anchored_of_ne pools changed same, ← inventory.mem_iff, List.mem_cons,
      List.mem_cons, Prod.mk.injEq, Prod.mk.injEq]
    simp [same]

/-- The nodes of a pool that an inventory lists are counted by the pool. -/
theorem liveNodes_eq (inventory : Inventory pools nodes) (pool : PoolId) :
    pools.liveNodes pool = (nodes.map Prod.fst).countP fun handle => handle.pool = pool := by
  rcases inventory.sound pool with ⟨free, threaded⟩
  let here := (nodes.map Prod.fst).filter fun handle => handle.pool = pool
  have inPool : ∀ handle ∈ here, handle.pool = pool := by
    intro handle listed
    exact of_decide_eq_true (List.mem_filter.mp listed).2
  have distinct : (here.map Handle.slot).Nodup := by
    apply List.Nodup.map_on _ (inventory.distinct.filter _)
    intro first firstListed second secondListed slots
    have pools := (inPool first firstListed).trans (inPool second secondListed).symm
    cases first
    cases second
    cases pools
    cases slots
    rfl
  have used : forall slot, slot ∈ here.map Handle.slot ↔
      ((pools.slab pool).get? slot).isSome = true := by
    intro slot
    rw [Option.isSome_iff_exists]
    constructor
    · intro listed
      rcases List.mem_map.mp listed with ⟨handle, member, rfl⟩
      rcases List.mem_map.mp (List.mem_filter.mp member).1 with ⟨⟨_, anchor⟩, entry, rfl⟩
      have held := inventory.mem_iff.mp entry
      rw [Pools.anchor?, inPool _ member] at held
      exact ⟨anchor, held⟩
    · intro found
      rcases found with ⟨anchor, held⟩
      have entry : (⟨pool, slot⟩, anchor) ∈ nodes := inventory.mem_iff.mpr held
      refine List.mem_map.mpr ⟨⟨pool, slot⟩, List.mem_filter.mpr ⟨List.mem_map_of_mem entry, ?_⟩, rfl⟩
      exact decide_eq_true rfl
  have counted := threaded.length_eq_live distinct used
  rw [List.length_map] at counted
  rw [List.countP_eq_length_filter]
  exact counted.symm

end Inventory

/-! ## Exchanges -/

/-- The nodes `old` become the nodes `new`, and every other stays as it is. -/
structure Exchange (before after : Pools) (old new : List (Handle × Anchor)) : Prop where
  inventory : forall {others : List (Handle × Anchor)},
    Inventory before (old ++ others) -> Inventory after (new ++ others)

namespace Exchange

variable {before middle after pools : Pools} {old current new : List (Handle × Anchor)}

theorem refl (pools : Pools) (nodes : List (Handle × Anchor)) : Exchange pools pools nodes nodes :=
  ⟨id⟩

theorem trans (first : Exchange before middle old current)
    (second : Exchange middle after current new) : Exchange before after old new :=
  ⟨fun inventory => second.inventory (first.inventory inventory)⟩

theorem perm {oldToo newToo : List (Handle × Anchor)} (exchange : Exchange before after old new)
    (oldSame : oldToo.Perm old) (newSame : new.Perm newToo) : Exchange before after oldToo newToo := by
  refine ⟨?_⟩
  intro others inventory
  exact (exchange.inventory (inventory.perm (oldSame.append_right _))).perm (newSame.append_right _)

/-- Nodes that stay may be counted in on both sides. -/
theorem append (exchange : Exchange before after old new) (more : List (Handle × Anchor)) :
    Exchange before after (old ++ more) (new ++ more) := by
  refine ⟨?_⟩
  intro others inventory
  rw [List.append_assoc] at inventory ⊢
  exact exchange.inventory inventory

/-- An exchange of all nodes that there are. -/
theorem whole (exchange : Exchange before after old new) (inventory : Inventory before old) :
    Inventory after new := by
  rw [← List.append_nil old] at inventory
  rw [← List.append_nil new]
  exact exchange.inventory inventory

theorem take (pools : Pools) (pool : PoolId) :
    Exchange pools (pools.take pool).2 [] [((pools.take pool).1, Anchor.root)] :=
  ⟨fun inventory => inventory.take pool⟩

theorem release (pools : Pools) (handle : Handle) (anchor : Anchor) :
    Exchange pools (pools.release handle) [(handle, anchor)] [] :=
  ⟨fun inventory => inventory.release⟩

theorem anchored (pools : Pools) (handle : Handle) (old new : Anchor) :
    Exchange pools (pools.anchored handle new) [(handle, old)] [(handle, new)] :=
  ⟨fun inventory => inventory.anchored new⟩

/-- Every one of the nodes gets another parent and keeps its chunk. -/
theorem adoptedAll (parent : Handle) (children : List (Handle × Anchor)) (pools : Pools) :
    Exchange pools (pools.adoptedAll parent (children.map Prod.fst)) children
      (children.map fun child => (child.1, { child.2 with parent? := some parent })) := by
  induction children generalizing pools with
  | nil => exact Exchange.refl pools []
  | cons child rest inductionHypothesis =>
      refine ⟨?_⟩
      intro others inventory
      have now : pools.adopted parent child.1 =
          pools.anchored child.1 { child.2 with parent? := some parent } := by
        rw [Pools.adopted, inventory.head]
      have first := inventory.anchored { child.2 with parent? := some parent }
      rw [← now] at first
      have moved := first.perm List.perm_middle.symm
      have later := inductionHypothesis (pools.adopted parent child.1)
      exact (later.inventory moved).perm List.perm_middle

end Exchange
end AdaptiveRadix
