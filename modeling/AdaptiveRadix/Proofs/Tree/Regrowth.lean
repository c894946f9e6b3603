import AdaptiveRadix.Proofs.Node.Overwrite
import AdaptiveRadix.Proofs.Tree.Events
import AdaptiveRadix.Proofs.Tree.Frame
import AdaptiveRadix.Proofs.Tree.Relocation

namespace AdaptiveRadix

/-!
# Growing one node of a subtree

An insertion descends to a node and makes room there before it adds anything.  Here the
descent is taken apart from the rest: `changedAt` does something to the node that a search
passes at a level and puts what comes of it in its place, and `roomMade` is what an
insertion does there first.  `insert_eq_changedAt` says that an insertion is this, between
the taking of the missing path and the joining of it.

A node that grows changes in what it is itself, in the slot of its parent, and in the edges
that its children have on record, and `Replanted` says so of the subtree around it.  It is
proved where the node is, and carried upwards by one lemma, a parent at a time.
-/

namespace Content

/-- The node that a slot names. -/
def child? : Content -> Option Handle
  | .child handle => some handle
  | .value _ => none

end Content

namespace Cell

def isFull (cell : Cell) : Bool :=
  cell.count == cell.sizeClass.capacity

/-- The edges to the children of a cell, if it goes by a handle. -/
def children (cell : Cell) (holder : Handle) : List (Handle × Anchor) :=
  Node.heads holder Content.child? (cell.entries.map Entry.binding)

/-- The edges that name a cell at one of their ends, if it goes by a handle. -/
def reach (cell : Cell) (own : Anchor) (handle : Handle) : List (Handle × Anchor) :=
  (handle, own) :: cell.children handle

/-- A cell after the node that a search for the key passes at a level has got another handle:
the parent of that node names it, and no other cell does. -/
def rehung (cell : Cell) (key : Key) (floor : Nat) (handle : Handle) : Cell :=
  if cell.level = floor + 1 ∧ cell.stem = key.above (floor + 2) then
    cell.given (key.chunk (floor + 1)) (.child handle)
  else cell

theorem rehung_of_level_ne {cell : Cell} {floor : Nat} (different : cell.level ≠ floor + 1)
    (key : Key) (handle : Handle) : cell.rehung key floor handle = cell :=
  if_neg fun parent => different parent.1

/-- A cell in a larger class, with the same of everything else. -/
structure Regrown (cell grown : Cell) : Prop where
  next : cell.sizeClass.next? = some grown.sizeClass
  family : grown.handle.pool.family = cell.handle.pool.family
  level : grown.level = cell.level
  stem : grown.stem = cell.stem
  count : grown.count = cell.count
  bindings : grown.entries.map Entry.binding = cell.entries.map Entry.binding

/-- What the move of a node is to the pools. -/
structure Rehoused (cell grown : Cell) (before after : Pools) : Prop where
  exchange : forall own, Exchange before after (cell.reach own cell.handle) (cell.reach own grown.handle)
  waits_first : before.Sound -> forall own, before.anchor? cell.handle = some own ->
    (after.slab cell.handle.pool).firstFree? = some cell.handle.slot

theorem Regrown.handle_ne {cell grown : Cell} (regrown : cell.Regrown grown) :
    grown.handle ≠ cell.handle := by
  intro same
  have classes : grown.sizeClass = cell.sizeClass :=
    congrArg (fun handle : Handle => handle.pool.sizeClass) same
  have more := SizeClass.capacity_lt_of_next? regrown.next
  rw [classes] at more
  exact Nat.lt_irrefl _ more

end Cell

namespace Node

variable {α : Type} {node : Node α} {view : α -> Content} {child? : α -> Option Handle}

theorem bindings_cell (node : Node α) (view : α -> Content) (level : Nat) (key : Key) :
    (node.cell view level key).entries.map Entry.binding =
      node.bindings.map fun binding => (binding.1, view binding.2) := by
  rw [cell, bindings, List.map_map, List.map_map]
  rfl

theorem children_cell (seen : forall value, (view value).child? = child? value) (node : Node α)
    (level : Nat) (key : Key) (holder : Handle) :
    (node.cell view level key).children holder = heads holder child? node.bindings := by
  rw [Cell.children, bindings_cell, heads, heads, List.filterMap_map]
  congr 1
  funext binding
  exact congrArg (Option.map _) (seen binding.2)

variable [Inhabited α]

theorem copied_withRoom (valid : node.Valid) (full : node.isFull = true) {larger : SizeClass}
    (next : node.sizeClass.next? = some larger) (level : Nat) (child? : α -> Option Handle)
    (ledger : Ledger) : Copied node (node.withRoom level child? ledger).1 := by
  rw [withRoom_of_full full next]
  exact copied_moved valid next _

omit [Inhabited α] in
theorem Copied.regrown {target : Node α} (copied : Copied node target) (view : α -> Content)
    (level : Nat) (key : Key) : (node.cell view level key).Regrown (target.cell view level key) where
  next := copied.next
  family := rfl
  level := rfl
  stem := rfl
  count := copied.count_eq
  bindings := by rw [bindings_cell, bindings_cell, copied.bindings_eq]

theorem rehoused_withRoom (seen : forall value, (view value).child? = child? value)
    (valid : node.Valid) (full : node.isFull = true) {larger : SizeClass}
    (next : node.sizeClass.next? = some larger) (level : Nat) (ledger : Ledger) (key : Key) :
    (node.cell view level key).Rehoused
      ((node.withRoom level child? ledger).1.cell view level key) ledger.pools
      (node.withRoom level child? ledger).2.pools where
  exchange own := by
    rw [Cell.reach, Cell.reach, children_cell seen, children_cell seen]
    exact withRoom_exchange_of_next valid full next level child? ledger own
  waits_first sound own recorded := by
    rw [withRoom_eq_relocated full next, Pools.firstFree?_adoptedAll]
    exact (relocated_of_recorded valid full next sound recorded).waits_first

end Node

namespace Subtree

variable {level floor : Nat} {node : Node (Subtree level)} {subtree child after : Subtree level}
  {key : Key} {cell grown : Cell}

/-- Make room in the top of a subtree if it is full. -/
def roomMade : {level : Nat} -> Subtree level -> Ledger -> Subtree level × Ledger
  | 0, (leaf : Node UInt64), ledger => leaf.withRoom 0 (fun _ => none) ledger
  | level + 1, (node : Node (Subtree level)), ledger =>
      node.withRoom (level + 1) (fun child => some child.handle) ledger

/-- Change the node that a search for the key passes at a level, in its place. -/
def changedAt (change : forall {level : Nat}, Subtree level -> Ledger -> Subtree level × Ledger)
    (key : Key) (floor : Nat) :
    {level : Nat} -> Subtree level -> Ledger -> Subtree level × Ledger
  | 0, (leaf : Node UInt64), ledger =>
      if floor = 0 then change (ofLeaf leaf) ledger else (ofLeaf leaf, ledger)
  | level + 1, (node : Node (Subtree level)), ledger =>
      if floor = level + 1 then change (ofNode node) ledger
      else
        match node.get? (key.chunk (level + 1)) with
        | some child =>
            let changed := child.changedAt change key floor ledger
            (ofNode (node.replace (key.chunk (level + 1)) changed.1), changed.2)
        | none => (ofNode node, ledger)

variable {change : forall {level : Nat}, Subtree level -> Ledger -> Subtree level × Ledger}

theorem changedAt_leaf (leaf : Node UInt64) (key : Key) (ledger : Ledger) :
    (ofLeaf leaf).changedAt change key 0 ledger = change (ofLeaf leaf) ledger :=
  if_pos rfl

theorem changedAt_top (node : Node (Subtree level)) (key : Key) (ledger : Ledger) :
    (ofNode node).changedAt change key (level + 1) ledger = change (ofNode node) ledger :=
  if_pos rfl

theorem changedAt_of_child (different : floor ≠ level + 1)
    (held : node.get? (key.chunk (level + 1)) = some child) (ledger : Ledger) :
    (ofNode node).changedAt change key floor ledger =
      (ofNode (node.replace (key.chunk (level + 1)) (child.changedAt change key floor ledger).1),
        (child.changedAt change key floor ledger).2) := by
  rw [ofNode, changedAt, if_neg different, held]

/-! ## One node and all around it -/

/-- A subtree in which the node that a search passes at a level has grown. -/
structure Replanted (before after : Subtree level) (key : Key) (floor : Nat) (cell grown : Cell) :
    Prop where
  sound : after.Sound
  get?_eq : after.get? = before.get?
  handle : after.handle = if floor = level then grown.handle else before.handle
  here : after.cell? key floor = some grown
  elsewhere : forall other height, other.above (level + 1) = key.above (level + 1) ->
    ¬ (height = floor ∧ other.above (floor + 1) = key.above (floor + 1)) ->
      after.cell? other height =
        (before.cell? other height).map fun cell => cell.rehung key floor grown.handle
  edges : forall anchor, ∃ own rest,
    (before.edges anchor).Perm (cell.reach own cell.handle ++ rest) ∧
      (after.edges anchor).Perm (cell.reach own grown.handle ++ rest)

theorem replanted_leaf {leaf target : Node UInt64} (sound : (ofLeaf leaf).Sound)
    (copied : Node.Copied leaf target) (key : Key) :
    Replanted (ofLeaf leaf) (ofLeaf target) key 0 (leaf.cell .value 0 key)
      (target.cell .value 0 key) where
  sound := by
    rcases sound_leaf.mp sound with ⟨_, occupied⟩
    exact ⟨copied.valid, copied.isEmpty_eq.trans occupied⟩
  get?_eq := by
    funext other
    rw [get?_leaf, get?_leaf, copied.get?_eq (sound_leaf.mp sound).1]
  handle := rfl
  here := rfl
  elsewhere := by
    intro other height near away
    have above : height ≠ 0 := fun same => away ⟨same, near⟩
    rw [cell?_leaf, cell?_leaf, if_neg above, if_neg above, Option.map_none]
  edges := by
    intro anchor
    have blank : forall holder, (leaf.cell .value 0 key).children holder = [] := fun holder =>
      (Node.children_cell (fun _ => rfl) leaf 0 key holder).trans (Node.heads_none holder _)
    refine ⟨anchor, [], ?_, ?_⟩
    · rw [Cell.reach, blank]
      exact List.Perm.refl _
    · rw [Cell.reach, blank]
      exact List.Perm.refl _

theorem replanted_node {target : Node (Subtree level)} (sound : (ofNode node).Sound)
    (copied : Node.Copied node target) (key : Key) :
    Replanted (ofNode node) (ofNode target) key (level + 1) (node.cell content (level + 1) key)
      (target.cell content (level + 1) key) where
  sound := by
    rcases sound_node.mp sound with ⟨valid, occupied, children⟩
    refine sound_node.mpr ⟨copied.valid, copied.isEmpty_eq.trans occupied, ?_⟩
    rw [copied.get?_eq valid]
    exact children
  get?_eq := by
    funext other
    rw [get?_node, get?_node, copied.get?_eq (sound_node.mp sound).1]
  handle := (if_pos rfl).symm
  here := cell?_top target key
  elsewhere := by
    intro other height near away
    have below : height ≠ level + 1 := fun same => away ⟨same, near⟩
    rw [cell?_below below, cell?_below below, copied.get?_eq (sound_node.mp sound).1]
    cases found : (node.get? (other.chunk (level + 1))).bind fun child => child.cell? other height with
    | none => rfl
    | some cell =>
        rcases Option.bind_eq_some_iff.mp found with ⟨child, _, passed⟩
        rcases place_of_cell? passed with ⟨here, _, lower⟩
        have deep : cell.level ≠ level + 1 + 1 := by omega
        rw [Option.map_some, Cell.rehung_of_level_ne deep]
  edges := by
    intro anchor
    have tops : forall holder, (node.cell content (level + 1) key).children holder =
        Node.heads holder (fun child => some child.handle) node.bindings :=
      Node.children_cell (fun _ => rfl) node (level + 1) key
    refine ⟨anchor, node.bindings.flatMap fun binding => binding.2.innerEdges, ?_, ?_⟩
    · rw [edges_node, Cell.reach, tops]
      exact (heads_perm _ _).symm.cons _
    · rw [edges_node, copied.bindings_eq, Cell.reach, tops]
      exact (heads_perm _ _).symm.cons _

/-- The parent of a subtree in which a node has grown is the top of one. -/
theorem Replanted.lift (below : Replanted child after key floor cell grown) (lower : floor ≤ level)
    (sound : (ofNode node).Sound) (held : node.get? (key.chunk (level + 1)) = some child) :
    Replanted (ofNode node) (ofNode (node.replace (key.chunk (level + 1)) after)) key floor cell
      grown where
  sound := by
    rcases sound_node.mp sound with ⟨valid, occupied, children⟩
    exact sound_of_child (Node.valid_replace valid held after) occupied children below.sound
      (Node.get?_replace valid held after)
  get?_eq := by
    funext other
    rw [get?_of_child (Node.get?_replace (sound_node.mp sound).1 held after)]
    split
    · rename_i here
      rw [below.get?_eq, get?_of_held held here]
    · rfl
  handle := by
    have different : floor ≠ level + 1 := by omega
    rw [if_neg different]
    exact node.named_replace _ after (level + 1)
  here := by
    have different : floor ≠ level + 1 := by omega
    rw [cell?_of_child (Node.get?_replace (sound_node.mp sound).1 held after) different,
      if_pos rfl, below.here]
  elsewhere := by
    intro other height near away
    have valid := (sound_node.mp sound).1
    by_cases top : height = level + 1
    · subst height
      rw [cell?_top, cell?_top, Option.map_some]
      refine congrArg some ?_
      by_cases parent : floor = level
      -- The top is the parent of the node, and names it by its new handle.
      · subst floor
        have name : content after = .child grown.handle :=
          congrArg Content.child (below.handle.trans (if_pos rfl))
        rw [Node.cell_replace valid held, name, Cell.rehung, if_pos ⟨rfl, near⟩]
      · have name : content after = content child :=
          congrArg Content.child (below.handle.trans (if_neg parent))
        have higher : (node.cell content (level + 1) other).level ≠ floor + 1 :=
          fun same => parent (Nat.succ.inj same).symm
        rw [Node.cell_replace_of_same valid held name, Cell.rehung_of_level_ne higher]
    · rw [cell?_of_child (Node.get?_replace valid held after) top]
      split
      · rename_i same
        rw [cell?_below top, same, held, Option.bind_some]
        exact below.elsewhere other height (Key.above_eq_iff.mpr ⟨near, same⟩) away
      -- Aside of the path of the key there is no parent of the node.
      · rename_i different
        cases found : (ofNode node).cell? other height with
        | none => rfl
        | some aside =>
            rcases place_of_cell? found with ⟨here, stem, most⟩
            refine congrArg some (if_neg fun parent => different ?_).symm
            rw [here, stem] at parent
            rcases parent with ⟨rfl, stems⟩
            exact Key.chunk_eq_of_above_eq (by omega) stems
  edges := by
    intro anchor
    have valid := (sound_node.mp sound).1
    rcases below.edges ⟨some (node.named (level + 1)), key.chunk (level + 1)⟩ with
      ⟨own, rest, first, second⟩
    refine ⟨own, rest ++ (ofNode (node.erase (key.chunk (level + 1)))).edges anchor, ?_, ?_⟩
    · rw [← List.append_assoc]
      exact (edges_perm_of_held valid held anchor).trans (first.append_right _)
    · rw [← List.append_assoc]
      exact (edges_perm_of_replaced valid held after anchor).trans (second.append_right _)

/-- A full node of any class but the largest grows where it is. -/
theorem replanted_changedAt (sound : subtree.Sound) (found : subtree.cell? key floor = some cell)
    (full : cell.isFull = true) {larger : SizeClass} (next : cell.sizeClass.next? = some larger)
    (ledger : Ledger) :
    ∃ grown, cell.Regrown grown ∧
      cell.Rehoused grown ledger.pools (subtree.changedAt roomMade key floor ledger).2.pools ∧
      Replanted subtree (subtree.changedAt roomMade key floor ledger).1 key floor cell grown := by
  induction subtree using byLevel with
  | leaf leaf =>
      rcases Option.ite_none_right_eq_some.mp found with ⟨rfl, same⟩
      cases Option.some.inj same
      have valid := (sound_leaf.mp sound).1
      have copied := Node.copied_withRoom valid full next 0 (fun _ => none) ledger
      rw [changedAt_leaf]
      exact ⟨_, copied.regrown .value 0 key,
        Node.rehoused_withRoom (fun _ => rfl) valid full next 0 ledger key,
        replanted_leaf sound copied key⟩
  | @node level node inductionHypothesis =>
      rcases sound_node.mp sound with ⟨valid, _, children⟩
      by_cases top : floor = level + 1
      · subst floor
        rw [cell?_top] at found
        cases Option.some.inj found
        have copied := Node.copied_withRoom valid full next (level + 1)
          (fun child => some child.handle) ledger
        rw [changedAt_top]
        exact ⟨_, copied.regrown content (level + 1) key,
          Node.rehoused_withRoom (fun _ => rfl) valid full next (level + 1) ledger key,
          replanted_node sound copied key⟩
      · rw [cell?_below top] at found
        rcases Option.bind_eq_some_iff.mp found with ⟨child, held, passed⟩
        rcases inductionHypothesis child (children _ child held) passed with
          ⟨grown, regrown, rehoused, below⟩
        rw [changedAt_of_child top held]
        exact ⟨grown, regrown, rehoused, below.lift (place_of_cell? passed).2.2 sound held⟩

/-! ## Growth in the course of an insertion -/

/-- The pools after the missing part of a path has been taken that ends at a level. -/
def pathPools (key : Key) (value : UInt64) (pools : Pools) : (floor : Nat) -> Pools
  | 0 => pools
  | level + 1 => (chain key value pools level).2

/-- Put the missing part of a path, which was taken from some pools, under the top of a subtree. -/
def joined (key : Key) (value : UInt64) (start : Pools) :
    {level : Nat} -> Subtree level -> Ledger -> Subtree level × Ledger
  | 0, (leaf : Node UInt64), ledger => (ofLeaf (leaf.insert (key.chunk 0) value), ledger)
  | level + 1, (node : Node (Subtree level)), ledger =>
      let held := hold node (key.chunk (level + 1)) (chain key value start level).1 ledger.pools
      (held.1, { ledger with pools := held.2 })

/-- A descent ends at a node that a search passes. -/
theorem floor_le_of_gap (sound : subtree.Sound) {sizeClass : SizeClass} {full : Bool}
    (gap : subtree.placement key = .gap floor sizeClass full) : floor ≤ level := by
  have missed : subtree.get? key = none := by
    apply Option.eq_none_iff_forall_ne_some.mpr
    intro value found
    have present := (subtree.placement_eq_present_iff key).mpr ⟨value, found⟩
    rw [gap] at present
    cases present
  rcases exists_endsAt sound missed with ⟨post, ends, _, placed, _⟩
  injection gap.symm.trans placed with height
  rw [height]
  exact (place_of_post? ends.passed).2.2

/-- An insertion takes the missing path, makes room at the node at which the path begins, and
joins the two. -/
theorem insert_eq_changedAt (sound : subtree.Sound) {sizeClass : SizeClass} {full : Bool}
    (gap : subtree.placement key = .gap floor sizeClass full) (value : UInt64) (ledger : Ledger) :
    subtree.insert key value ledger =
      let roomy := subtree.changedAt roomMade key floor
        { ledger with pools := pathPools key value ledger.pools floor }
      roomy.1.changedAt (joined key value ledger.pools) key floor roomy.2 := by
  induction subtree using byLevel with
  | leaf leaf =>
      cases Nat.le_zero.mp (floor_le_of_gap sound gap)
      rw [changedAt_leaf]
      rfl
  | @node level node inductionHypothesis =>
      rcases sound_node.mp sound with ⟨valid, _, children⟩
      cases held : node.get? (key.chunk (level + 1)) with
      | some child =>
          rw [placement_of_child held] at gap
          have different : floor ≠ level + 1 := by
            have lower := floor_le_of_gap (children _ child held) gap
            omega
          have below := inductionHypothesis child (children _ child held) gap
          have again := Node.get?_replace valid held (child.changedAt roomMade key floor
            { ledger with pools := pathPools key value ledger.pools floor }).1 (key.chunk (level + 1))
          rw [if_pos rfl] at again
          rw [insert_of_child held, below, changedAt_of_child different held]
          simp only
          rw [changedAt_of_child different again, Node.replace_replace]
      | none =>
          rw [placement_of_gap held] at gap
          cases gap
          rw [insert_of_gap held, changedAt_top]
          show _ = (ofNode (roomFor node key value ledger).1).changedAt
            (joined key value ledger.pools) key (level + 1) (roomFor node key value ledger).2
          rw [changedAt_top]
          rfl

end Subtree
end AdaptiveRadix
