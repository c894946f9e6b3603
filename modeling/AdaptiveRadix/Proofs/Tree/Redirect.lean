import AdaptiveRadix.Proofs.Tree.Regrowth
import AdaptiveRadix.Proofs.Tree.RequestMoves
import AdaptiveRadix.Proofs.Tree.WellFormed

namespace AdaptiveRadix

/-!
# All that names a node

A node is named in three ways: the pools have an edge on record for it, its parent holds it
or it is the root, and its children have it on record as theirs.  When it grows it goes by
another handle, and all three have to follow.  Here a tree is looked at right before a node
grows in it and right after.  In the course of an insertion the tree has then been raised as
the key wants it, and the nodes of the missing path are in use, though nothing holds them;
so what is said allows for nodes aside of the tree.

Who names a node is counted rather than searched for: the handles that a tree names are the
handles of its nodes, and those differ from each other.
-/

/-- Every parent on record is one of the nodes. -/
def Closed (nodes : List (Handle × Anchor)) : Prop :=
  ∀ node ∈ nodes, ∀ parent ∈ node.2.parent?, parent ∈ nodes.map Prod.fst

theorem closed_nil : Closed [] :=
  fun _ impossible => (List.not_mem_nil impossible).elim

theorem Closed.append {nodes others : List (Handle × Anchor)} (closed : Closed nodes)
    (closedToo : Closed others) : Closed (nodes ++ others) := by
  intro node listed parent named
  rw [List.map_append]
  rcases List.mem_append.mp listed with here | there
  · exact List.mem_append_left _ (closed node here parent named)
  · exact List.mem_append_right _ (closedToo node there parent named)

namespace Inventory

variable {pools : Pools} {nodes : List (Handle × Anchor)} {handle : Handle}

theorem anchor?_eq_none_iff (inventory : Inventory pools nodes) :
    pools.anchor? handle = none ↔ handle ∉ nodes.map Prod.fst := by
  refine ⟨inventory.not_mem_of_anchor?_none, ?_⟩
  intro missing
  apply Option.eq_none_iff_forall_ne_some.mpr
  intro anchor used
  exact missing (List.mem_map_of_mem (inventory.mem_iff.mpr used))

/-- Where every parent is in use, none on record is a node that is not. -/
theorem parent?_ne (inventory : Inventory pools nodes) (closed : Closed nodes)
    (unused : pools.anchor? handle = none) {child : Handle} {anchor : Anchor}
    (recorded : pools.anchor? child = some anchor) : anchor.parent? ≠ some handle := by
  intro named
  apply inventory.anchor?_eq_none_iff.mp unused
  exact closed _ (inventory.mem_iff.mpr recorded) handle named

end Inventory

/-- What a full node at a gap demands is a node of the next class. -/
theorem Placement.demands_next {sizeClass larger : SizeClass} (next : sizeClass.next? = some larger)
    (floor : Nat) :
    1 ≤ (gap floor sizeClass true).demand.count ⟨Family.ofLevel floor, larger⟩ := by
  cases floor with
  | zero =>
      simp only [demand, Demand.growth, next]
      rw [Demand.count_add, Family.ofLevel, if_pos rfl]
      exact Nat.le_add_left 1 _
  | succ level =>
      simp only [demand, Demand.growth, next]
      rw [Demand.count_add, Family.ofLevel, if_pos rfl]
      exact Nat.le_add_left 1 _

namespace Cell

variable {cell grown : Cell} {holder child : Handle} {own anchor : Anchor}
  {others : List (Handle × Anchor)} {before after : Pools}

/-- The handles of the children of a cell. -/
def offspring (cell : Cell) : List Handle :=
  cell.entries.filterMap fun entry => entry.value.child?

theorem handles_children (cell : Cell) (holder : Handle) :
    (cell.children holder).map Prod.fst = cell.offspring := by
  rw [children, Node.handles_heads, List.filterMap_map]
  rfl

theorem mem_children {entry : Entry Content} (listed : entry ∈ cell.entries)
    (held : entry.value.child? = some child) (holder : Handle) :
    (child, ⟨some holder, entry.chunk⟩) ∈ cell.children holder := by
  refine List.mem_filterMap.mpr ⟨entry.binding, List.mem_map_of_mem listed, ?_⟩
  exact congrArg (Option.map _) held

theorem handles_reach (cell : Cell) (own : Anchor) (holder : Handle)
    (others : List (Handle × Anchor)) :
    (cell.reach own holder ++ others).map Prod.fst =
      holder :: (cell.offspring ++ others.map Prod.fst) := by
  rw [reach, List.cons_append, List.map_cons, List.map_append, handles_children]

/-- What is neither a cell nor a child of it is beyond its reach. -/
theorem mem_reach_append_iff (different : child ≠ holder) (aside : child ∉ cell.offspring) :
    (child, anchor) ∈ cell.reach own holder ++ others ↔ (child, anchor) ∈ others := by
  have outside : (child, anchor) ∉ cell.reach own holder := by
    intro listed
    rcases List.mem_cons.mp listed with same | below
    · exact different (congrArg Prod.fst same)
    · apply aside
      rw [← handles_children cell holder]
      exact List.mem_map_of_mem below
  exact List.mem_append.trans (or_iff_right outside)

/-- A node goes by another handle, and the pools know: its edge is on record there, its
children have it on record, and all is as it was with every other node. -/
structure Renamed (cell grown : Cell) (before after : Pools) : Prop where
  edge : ∃ own, before.anchor? cell.handle = some own ∧ after.anchor? grown.handle = some own
  fresh : before.anchor? grown.handle = none
  vacated : after.anchor? cell.handle = none
  children : ∀ entry ∈ grown.entries, ∀ child ∈ entry.value.child?,
    before.anchor? child = some ⟨some cell.handle, entry.chunk⟩ ∧
      after.anchor? child = some ⟨some grown.handle, entry.chunk⟩
  others : forall handle, handle ≠ cell.handle -> handle ≠ grown.handle ->
    handle ∉ cell.offspring -> after.anchor? handle = before.anchor? handle

theorem Regrown.children_eq (regrown : cell.Regrown grown) (holder : Handle) :
    grown.children holder = cell.children holder :=
  congrArg (Node.heads holder Content.child?) regrown.bindings

theorem Regrown.pool_eq (regrown : cell.Regrown grown) {family : Family} {larger : SizeClass}
    (own : cell.handle.pool.family = family) (next : cell.sizeClass.next? = some larger) :
    grown.handle.pool = ⟨family, larger⟩ := by
  have classes := Option.some.inj (regrown.next.symm.trans next)
  calc grown.handle.pool = ⟨grown.handle.pool.family, grown.sizeClass⟩ := rfl
    _ = ⟨family, larger⟩ := by rw [regrown.family, own, classes]

/-- Two inventories that differ in no more than one node and its children say what became
of them. -/
theorem renamed_of_inventories (regrown : cell.Regrown grown)
    (first : Inventory before (cell.reach own cell.handle ++ others))
    (second : Inventory after (cell.reach own grown.handle ++ others)) :
    cell.Renamed grown before after := by
  have different := regrown.handle_ne
  have distinct := first.distinct
  have distinctToo := second.distinct
  rw [handles_reach, List.nodup_cons] at distinct distinctToo
  refine ⟨⟨own, first.head, second.head⟩, ?_, ?_, ?_, ?_⟩
  · apply first.anchor?_eq_none_iff.mpr
    rw [handles_reach]
    exact List.not_mem_cons_of_ne_of_not_mem different distinctToo.1
  · apply second.anchor?_eq_none_iff.mpr
    rw [handles_reach]
    exact List.not_mem_cons_of_ne_of_not_mem different.symm distinct.1
  · intro entry listed child held
    have named := fun holder => regrown.children_eq holder ▸ mem_children listed held holder
    exact ⟨first.mem_iff.mp (List.mem_append_left _ (List.mem_cons_of_mem _ (named cell.handle))),
      second.mem_iff.mp (List.mem_append_left _ (List.mem_cons_of_mem _ (named grown.handle)))⟩
  · intro handle old new aside
    apply Option.ext
    intro anchor
    calc after.anchor? handle = some anchor
        ↔ (handle, anchor) ∈ others := second.mem_iff.symm.trans (mem_reach_append_iff new aside)
      _ ↔ before.anchor? handle = some anchor :=
          (mem_reach_append_iff old aside).symm.trans first.mem_iff

end Cell

namespace Subtree

variable {level : Nat}

/-- The handles that a subtree names: that of its top, and those that its nodes hold. -/
def names (subtree : Subtree level) (edge : Anchor) : List Handle :=
  subtree.handle :: (subtree.sites edge).flatMap fun site => site.children.map Prod.snd

/-- A subtree names each of its nodes once, and nothing else. -/
theorem names_perm (subtree : Subtree level) (edge : Anchor) :
    (subtree.names edge).Perm ((subtree.edges edge).map Prod.fst) := by
  induction subtree using byLevel generalizing edge with
  | leaf leaf => exact List.Perm.refl _
  | @node level node inductionHypothesis =>
      let holder := node.named (level + 1)
      have tops : (site node edge).children.map Prod.snd =
          node.bindings.map fun binding => binding.2.handle := List.map_map
      have names : (ofNode node).names edge =
          holder :: ((node.bindings.map fun binding => binding.2.handle) ++
            node.bindings.flatMap fun binding =>
              (binding.2.sites ⟨some holder, binding.1⟩).flatMap fun site =>
                site.children.map Prod.snd) := by
        rw [Subtree.names, sites_node, List.flatMap_cons, tops, List.flatMap_assoc]
        rfl
      rw [names, edges_node, List.map_cons, edgesBelow, List.map_flatMap]
      apply List.Perm.cons
      refine (List.map_append_flatMap_perm _ _ _).trans ?_
      apply List.Perm.flatMap_left
      intro binding _
      exact inductionHypothesis binding.2 ⟨some holder, binding.1⟩

/-- Every parent in a subtree that nothing holds is in the subtree. -/
theorem closed_edges (subtree : Subtree level) : Closed (subtree.edges Anchor.root) := by
  rw [edges_eq]
  intro node listed parent named
  rcases List.mem_map.mp listed with ⟨site, inside, rfl⟩
  rcases exists_parent Anchor.root site inside with ⟨_, root, _⟩ | ⟨upper, there, holds⟩
  · have nobody : Anchor.root.parent? = some parent := root ▸ named
    cases nobody
  · have same : some upper.handle = some parent := holds.edge.symm.trans named
    cases Option.some.inj same
    exact List.mem_map_of_mem (List.mem_map_of_mem there)

/-- The nodes of a missing path are in use before anything holds them. -/
theorem exists_loose (key : Key) (value : UInt64) (pools : Pools) (floor : Nat) :
    ∃ loose, Closed loose ∧ Exchange pools (pathPools key value pools floor) [] loose := by
  cases floor with
  | zero => exact ⟨[], closed_nil, Exchange.refl pools []⟩
  | succ level => exact ⟨_, closed_edges _, chain_exchange key value pools level⟩

/-- The nodes before a growth and after it, those first that the growth has to do with. -/
theorem Replanted.exists_inventories {subtree after : Subtree level} {key : Key} {floor : Nat}
    {cell grown : Cell} (replanted : Replanted subtree after key floor cell grown)
    {pools poolsAfter : Pools} (rehoused : cell.Rehoused grown pools poolsAfter)
    {loose : List (Handle × Anchor)}
    (inventory : Inventory pools (subtree.edges Anchor.root ++ loose)) :
    (∃ own others, Inventory pools (cell.reach own cell.handle ++ others) ∧
      Inventory poolsAfter (cell.reach own grown.handle ++ others)) ∧
      Inventory poolsAfter (after.edges Anchor.root ++ loose) := by
  rcases replanted.edges Anchor.root with ⟨own, rest, reached, reachedLater⟩
  have first : Inventory pools (cell.reach own cell.handle ++ (rest ++ loose)) := by
    rw [← List.append_assoc]
    exact inventory.perm (reached.append_right loose)
  have second := (rehoused.exchange own).inventory first
  refine ⟨⟨own, rest ++ loose, first, second⟩, ?_⟩
  rw [← List.append_assoc] at second
  exact second.perm (reachedLater.symm.append_right loose)

end Subtree

namespace Tree

variable {tree : Tree} {root : Root} {key : Key} {floor : Nat} {cell : Cell}

/-- The handles that a tree names: that of its root, and those that its nodes hold. -/
def names (tree : Tree) : List Handle :=
  tree.root?.elim [] fun root => root.top.names Anchor.root

theorem names_perm (tree : Tree) : tree.names.Perm (tree.edges.map Prod.fst) := by
  rw [names, edges]
  cases tree.root? with
  | none => exact List.Perm.refl _
  | some root => exact root.top.names_perm Anchor.root

theorem nodup_names {loose : List (Handle × Anchor)}
    (inventory : Inventory tree.pools (tree.edges ++ loose)) : tree.names.Nodup := by
  have distinct := inventory.distinct
  rw [List.map_append] at distinct
  exact tree.names_perm.nodup_iff.mpr (List.nodup_append.mp distinct).1

theorem not_mem_names {loose : List (Handle × Anchor)} {handle : Handle}
    (inventory : Inventory tree.pools (tree.edges ++ loose))
    (unused : tree.pools.anchor? handle = none) : handle ∉ tree.names := by
  intro listed
  apply inventory.anchor?_eq_none_iff.mp unused
  rw [List.map_append]
  exact List.mem_append_left _ (tree.names_perm.mem_iff.mp listed)

theorem closed_edges (tree : Tree) : Closed tree.edges := by
  rw [edges]
  cases tree.root? with
  | none => exact closed_nil
  | some root => exact root.top.closed_edges

/-- Change the node that a search for the key passes at a level, with the pools of the tree and
the events so far. -/
def changedAt (tree : Tree)
    (change : forall {level : Nat}, Subtree level -> Ledger -> Subtree level × Ledger) (key : Key)
    (floor : Nat) (events : List Event) : Tree × List Event :=
  match tree.root? with
  | some root =>
      let changed := root.top.changedAt change key floor ⟨tree.pools, events⟩
      ({ tree with root? := some ⟨root.level, changed.1⟩, pools := changed.2.pools },
        changed.2.events)
  | none => (tree, events)

/-- A tree before a node of it has grown and after, and the node.  It is in the next class with
all its entries, all that named it names it by its new handle and nothing by its old one, its
old slot is the first that waits to be used again, and no other node is touched. -/
structure Redirected (before after : Tree) (key : Key) (floor : Nat) (cell grown : Cell) : Prop
    extends cell.Regrown grown, cell.Renamed grown before.pools after.pools where
  rooted : after.Rooted
  get?_eq : after.get? = before.get?
  waits_first : (after.pools.slab cell.handle.pool).firstFree? = some cell.handle.slot
  here : after.cell? key floor = some grown
  elsewhere : forall other height,
    ¬ (height = floor ∧ other.above (floor + 1) = key.above (floor + 1)) ->
      after.cell? other height =
        (before.cell? other height).map fun cell => cell.rehung key floor grown.handle
  named_once : after.names.count grown.handle = 1
  unnamed : cell.handle ∉ after.names
  orphaned : forall child anchor, after.pools.anchor? child = some anchor ->
    anchor.parent? ≠ some cell.handle

/-- A full node of any class but the largest grows where it is, whatever else is in use. -/
theorem redirected_changedAt {loose : List (Handle × Anchor)} (rooted : tree.Rooted)
    (inventory : Inventory tree.pools (tree.edges ++ loose)) (closed : Closed loose)
    (found : tree.cell? key floor = some cell) (full : cell.isFull = true) {larger : SizeClass}
    (next : cell.sizeClass.next? = some larger) (events : List Event) :
    ∃ grown, Redirected tree (tree.changedAt Subtree.roomMade key floor events).1 key floor cell
      grown := by
  rcases root_of_cell? found with ⟨root, held, fits, passed, lower⟩
  rcases rooted.sound root held with ⟨low, top⟩
  let changed := root.top.changedAt Subtree.roomMade key floor ⟨tree.pools, events⟩
  let after : Tree := { tree with root? := some ⟨root.level, changed.1⟩, pools := changed.2.pools }
  have result : (tree.changedAt Subtree.roomMade key floor events).1 = after := by
    rw [changedAt, held]
  rcases Subtree.replanted_changedAt top passed full next ⟨tree.pools, events⟩ with
    ⟨grown, regrown, rehoused, replanted⟩
  have rootedLater : after.Rooted := by
    refine ⟨fun _ same => Option.some.inj same ▸ ⟨low, replanted.sound⟩, ?_⟩
    show tree.ceiling = Key.bound root.level
    exact ceiling_of_root rooted held
  -- What is in use before and after tells what has become of every handle.
  rw [edges, held] at inventory
  rcases replanted.exists_inventories rehoused inventory with ⟨⟨own, others, first, second⟩, whole⟩
  have whole : Inventory after.pools (after.edges ++ loose) := whole
  have renamed := Cell.renamed_of_inventories regrown first second
  have here : after.cell? key floor = some grown := by
    rw [cell?_of_root rfl, if_pos fits]
    exact replanted.here
  refine ⟨grown, result ▸ ⟨regrown, renamed, rootedLater, ?_, ?_, here, ?_, ?_, ?_, ?_⟩⟩
  · funext other
    rw [get?_of_root rootedLater rfl, get?_of_root rooted held, Subtree.boundedGet?,
      Subtree.boundedGet?, replanted.get?_eq]
  · exact rehoused.waits_first inventory.sound own first.head
  · intro other height away
    rw [cell?_of_root rfl, cell?_of_root held]
    by_cases inside : other ≤ Key.bound root.level
    · rw [if_pos inside, if_pos inside]
      exact replanted.elsewhere other height (Key.above_eq_of_le_bound low inside fits) away
    · rw [if_neg inside, if_neg inside, Option.map_none]
  · apply List.count_eq_one_of_mem (nodup_names whole)
    apply after.names_perm.mem_iff.mpr
    have listed := Subtree.mem_edges_of_cell? replanted.sound replanted.here Anchor.root
    exact List.mem_map_of_mem listed
  · exact not_mem_names whole renamed.vacated
  · intro child anchor recorded
    exact whole.parent?_ne (after.closed_edges.append closed) renamed.vacated recorded

/-! ## In the course of an insertion -/

/-- A tree with its root where a key wants it, and the missing part of the path taken that
begins at a level. -/
def poised (tree : Tree) (root : Root) (key : Key) (value : UInt64) (floor : Nat) : Tree :=
  let tall := tree.raisedFor root key
  { tree with
    root? := some tall.1
    ceiling := Key.bound tall.1.level
    pools := Subtree.pathPools key value tall.2.pools floor }

/-- The same with room where the path begins. -/
def roomy (tree : Tree) (root : Root) (key : Key) (value : UInt64) (floor : Nat) :
    Tree × List Event :=
  (tree.poised root key value floor).changedAt Subtree.roomMade key floor
    (tree.raisedFor root key).2.events

/-- The same with the path in its place. -/
def grafted (tree : Tree) (root : Root) (key : Key) (value : UInt64) (floor : Nat) :
    Tree × List Event :=
  let roomy := tree.roomy root key value floor
  roomy.1.changedAt (Subtree.joined key value (tree.raisedFor root key).2.pools) key floor roomy.2

/-- The loose nodes of a poised tree are those of the missing path. -/
theorem exists_inventory_poised (sound : tree.Sound) (held : tree.root? = some root) (key : Key)
    (value : UInt64) (floor : Nat) :
    ∃ loose, Closed loose ∧ Inventory (tree.poised root key value floor).pools
      ((tree.poised root key value floor).edges ++ loose) := by
  have fitting := fitting_raisedFor sound.toRooted held key
  have inventory := sound.inventory
  rw [edges, held] at inventory
  rcases Subtree.exists_loose key value (tree.raisedFor root key).2.pools floor with
    ⟨loose, closed, taken⟩
  have raised := fitting.exchange.whole inventory
  exact ⟨loose, closed, (taken.inventory raised).perm List.perm_append_comm⟩

theorem rooted_poised (rooted : tree.Rooted) (held : tree.root? = some root) (key : Key)
    (value : UInt64) (floor : Nat) : (tree.poised root key value floor).Rooted where
  sound := by
    intro tall same
    exact Option.some.inj same ▸ (fitting_raisedFor rooted held key).sound
  ceiling := rfl

/-- An insertion below a root raises the tree and takes the path, makes room, and joins. -/
theorem added_eq_grafted (rooted : tree.Rooted) (held : tree.root? = some root) (value : UInt64)
    {sizeClass : SizeClass} {full : Bool}
    (gap : (tree.raisedFor root key).1.top.placement key = .gap floor sizeClass full) :
    tree.added key value =
      ({ (tree.grafted root key value floor).1 with size := tree.size + 1 },
        (tree.grafted root key value floor).2) := by
  have fitting := fitting_raisedFor rooted held key
  have inserted := Subtree.insert_eq_changedAt fitting.sound.top gap value
    (tree.raisedFor root key).2
  rw [added_eq_of_root held]
  simp only [fitting.ceiling, inserted]
  rfl

/-- The demand that was worked out before the tree was raised has the node in it that a full
node at the gap wants. -/
private theorem demands_next (rooted : tree.Rooted) (held : tree.root? = some root)
    {sizeClass larger : SizeClass} (next : sizeClass.next? = some larger)
    (gap : (tree.raisedFor root key).1.top.placement key = .gap floor sizeClass true) :
    1 ≤ (tree.placement key).demand.count ⟨Family.ofLevel floor, larger⟩ := by
  rw [placement_of_root held]
  by_cases tooLow : tree.ceiling < key
  · rcases placement_raised rooted held tooLow with ⟨lower, raised⟩
    rcases Nat.exists_eq_add_one.mpr (Nat.zero_lt_of_lt lower) with ⟨level, top⟩
    injection raised.symm.trans gap with height small
    subst small
    cases next
    rw [if_pos tooLow, ← height, top, Placement.demand, Demand.raise, Demand.count_add]
    exact Nat.le_add_left 1 _
  · rw [raisedFor, if_neg tooLow] at gap
    rw [if_neg tooLow, gap]
    exact Placement.demands_next next floor

/-- An insertion below a root comes to a node where the path of the key ends, which grows if it
is full; what is left to do then is to join the two. -/
structure Passing (tree : Tree) (root : Root) (key : Key) (value : UInt64) (floor : Nat)
    (cell : Cell) : Prop where
  gap : (tree.raisedFor root key).1.top.placement key = .gap floor cell.sizeClass cell.isFull
  found : (tree.poised root key value floor).cell? key floor = some cell
  grows : cell.isFull = true -> ∃ grown,
    1 ≤ (tree.placement key).demand.count grown.handle.pool ∧
      Redirected (tree.poised root key value floor) (tree.roomy root key value floor).1 key floor
        cell grown
  added_eq : tree.added key value =
    ({ (tree.grafted root key value floor).1 with size := tree.size + 1 },
      (tree.grafted root key value floor).2)

theorem exists_passing (sound : tree.Sound) (held : tree.root? = some root)
    (missed : tree.get? key = none) (value : UInt64) :
    ∃ floor cell, Passing tree root key value floor cell := by
  have fitting := fitting_raisedFor sound.toRooted held key
  have absent := get?_raisedFor sound.toRooted held missed
  rcases Subtree.exists_endsAt fitting.sound.top absent with ⟨post, ends, family, gap, _, grows⟩
  have passed := ends.passed
  rw [Subtree.post?_eq] at passed
  rcases Option.map_eq_some_iff.mp passed with ⟨cell, passed, rfl⟩
  have found : (tree.poised root key value cell.level).cell? key cell.level = some cell := by
    rw [cell?_of_root rfl, if_pos fitting.fits]
    exact passed
  refine ⟨cell.level, cell, gap, found, ?_, added_eq_grafted sound.toRooted held value gap⟩
  intro full
  rcases grows (beq_iff_eq.mp full) with ⟨larger, next⟩
  rcases exists_inventory_poised sound held key value cell.level with ⟨loose, closed, inventory⟩
  rcases redirected_changedAt (rooted_poised sound.toRooted held key value cell.level) inventory
    closed found full next (tree.raisedFor root key).2.events with ⟨grown, redirected⟩
  have gap : (tree.raisedFor root key).1.top.placement key = .gap cell.level cell.sizeClass true :=
    full ▸ gap
  refine ⟨grown, ?_, redirected⟩
  rw [redirected.pool_eq family next]
  exact demands_next sound.toRooted held next gap

/-- Wherever a node of a tree is full, it can grow in its place, and so do the nodes that grow
while a key is inserted. -/
structure GrowsInPlace (tree : Tree) : Prop where
  anywhere : forall key floor cell events, tree.cell? key floor = some cell ->
    cell.isFull = true -> cell.sizeClass ≠ .c256 ->
      ∃ grown, Redirected tree (tree.changedAt Subtree.roomMade key floor events).1 key floor cell
        grown
  inserting : forall key value allowance,
    (tree.insertWithin allowance key value).result = .ok false -> ∀ root ∈ tree.root?,
      ∃ pools floor cell, tree.pools.Roomier pools ∧
        Passing { tree with pools := pools } root key value floor cell ∧
        (tree.insertWithin allowance key value).state =
          (({ tree with pools := pools } : Tree).added key value).1

theorem Sound.growsInPlace (sound : tree.Sound) : tree.GrowsInPlace where
  anywhere key floor cell events found full small := by
    have inventory := sound.inventory
    rw [← List.append_nil tree.edges] at inventory
    cases next : cell.sizeClass.next? with
    | none => exact absurd ((SizeClass.next?_eq_none_iff _).mp next) small
    | some larger =>
        exact redirected_changedAt sound.toRooted inventory closed_nil found full next events
  inserting key value allowance added root held := by
    have inserted := Tree.inserted tree allowance key value
    generalize tree.insertWithin allowance key value = outcome at added inserted ⊢
    cases inserted with
    | rebound => cases added
    | @bound pools missed gained =>
        rcases exists_passing (sound.roomier gained) held missed value with ⟨floor, cell, passing⟩
        exact ⟨pools, floor, cell, gained, passing, rfl⟩
    | overLimit => cases added
    | refused => cases added

/-- A full node of any class but the largest moves to the next class with all that it has, and
in whatever state a run has left a tree, all that names it follows. -/
theorem growth_kept (limit? : Option Nat) (requests : List Request) :
    (∀ sizeClass, sizeClass ≠ .c256 -> Node.RelocatesFrom sizeClass) ∧
      ((empty limit?).after requests).GrowsInPlace :=
  ⟨fun _ => Node.relocatesFrom_of_ne, (sound_after (sound_empty limit?) requests).growsInPlace⟩

/-- Four keys in one leaf, beside another leaf. -/
def crowded : List Request :=
  [.insert 0x203 1 none, .insert 0x102 2 none, .insert 0x101 3 none, .insert 0x104 4 none,
    .insert 0x103 5 none]

-- The leaf of four keys is full, and grows in the tree as it is and for a fifth key.
theorem growth_kept_crowded :
    (served Node.perform (Node.vacant .c1 0) [.insert 5 true]).1.Relocates 1 .c4
        (Pools.empty.performAll [.take ⟨.inner, .c1⟩]) ∧
      (∃ leaf grown, ((empty none).after crowded).cell? 0x101 0 = some leaf ∧
        Redirected ((empty none).after crowded)
          (((empty none).after crowded).changedAt Subtree.roomMade 0x101 0 []).1 0x101 0 leaf grown) ∧
      ∃ root pools floor leaf grown, ((empty none).after crowded).root? = some root ∧
        let roomier := { (empty none).after crowded with pools := pools }
        Passing roomier root 0x105 6 floor leaf ∧
          Redirected (roomier.poised root 0x105 6 floor) (roomier.roomy root 0x105 6 floor).1 0x105
            floor leaf grown := by
  rcases growth_kept none crowded with ⟨alone, inTree⟩
  refine ⟨?_, ?_, ?_⟩
  · rcases alone .c1 (by decide) with ⟨larger, next, relocates⟩
    cases next
    exact relocates Bool 1 0 [.insert 5 true] [.take ⟨.inner, .c1⟩] Anchor.root (by decide +kernel)
      (by decide +kernel) (by decide +kernel)
  · have passed : (((empty none).after crowded).cell? 0x101 0).map (fun leaf =>
        (leaf.isFull, leaf.sizeClass)) = some (true, .c4) := by decide +kernel
    rcases Option.map_eq_some_iff.mp passed with ⟨leaf, found, facts⟩
    rcases Prod.mk.inj facts with ⟨full, sizeClass⟩
    have small : leaf.sizeClass ≠ .c256 := by
      rw [sizeClass]
      decide
    rcases inTree.anywhere 0x101 0 leaf [] found full small with ⟨grown, redirected⟩
    exact ⟨leaf, grown, found, redirected⟩
  · have rooted : ((empty none).after crowded).root?.isSome = true := by decide +kernel
    rcases Option.isSome_iff_exists.mp rooted with ⟨root, held⟩
    have added : (((empty none).after crowded).insertWithin none 0x105 6).result = .ok false := by
      decide +kernel
    have fits : ¬ ((empty none).after crowded).ceiling < 0x105 := by decide +kernel
    have placed : ((empty none).after crowded).placement 0x105 = .gap 0 .c4 true := by
      decide +kernel
    rcases inTree.inserting 0x105 6 none added root held with
      ⟨pools, floor, leaf, _, passing, _⟩
    have gap := passing.gap
    rw [raisedFor, if_neg fits] at gap
    rw [placement_of_root held, if_neg fits] at placed
    injection gap.symm.trans placed with _ _ full
    rcases passing.grows full with ⟨grown, _, redirected⟩
    exact ⟨root, pools, floor, leaf, grown, held, passing, redirected⟩

end Tree
end AdaptiveRadix
