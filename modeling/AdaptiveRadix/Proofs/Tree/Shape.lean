import AdaptiveRadix.Proofs.Tree.Run
import AdaptiveRadix.Stats.Basic

namespace AdaptiveRadix

/-!
# Shapes

The shape of a tree is what is left of it when it is forgotten which slots its nodes were
given, and at which positions inside a node its entries lie.  A shape has a walk of its
own, which is the walk of the tree with these numbers erased.

A `View` is all that a tree shows of itself but for such numbers and for the room in its
pools.  What a sound tree shows is determined by its shape.
-/

/-- A node without its slot, and without the positions of its entries. -/
structure NodeShape (α : Type) where
  sizeClass : SizeClass
  count : Nat
  bindings : List (Chunk × α)
deriving DecidableEq

namespace Node

variable {α β : Type} {view : α -> β} {first second : Node α}

/-- The shape of a node whose values are looked at through a view. -/
def shape (view : α -> β) (node : Node α) : NodeShape β :=
  ⟨node.sizeClass, node.count, node.bindings.map fun binding => (binding.1, view binding.2)⟩

/-- Valid nodes have the same shape when they have the same class and the same entries. -/
theorem shape_eq_iff (valid : first.Valid) (validToo : second.Valid) :
    first.shape view = second.shape view ↔ first.sizeClass = second.sizeClass ∧
      forall chunk, (first.get? chunk).map view = (second.get? chunk).map view := by
  have listed := (listing valid).map view
  have listedToo := (listing validToo).map view
  constructor
  · intro same
    have entries := congrArg NodeShape.bindings same
    refine ⟨congrArg NodeShape.sizeClass same, ?_⟩
    intro chunk
    apply Option.ext
    intro value
    exact listed.mem_iff.symm.trans ((iff_of_eq (congrArg _ entries)).trans listedToo.mem_iff)
  · intro same
    rcases same with ⟨sizeClass, found⟩
    have entries := (funext found ▸ listed).eq listedToo
    have count : first.count = second.count := by
      have lengths := congrArg List.length entries
      simpa only [List.length_map, length_bindings, valid.counted, validToo.counted] using lengths
    rw [shape, shape, sizeClass, count, entries]

end Node

/-- The shape of a subtree at a level. -/
def Shape : Nat -> Type
  | 0 => NodeShape UInt64
  | level + 1 => NodeShape (Shape level)

namespace Shape

def decEq : (level : Nat) -> DecidableEq (Shape level)
  | 0 => inferInstanceAs (DecidableEq (NodeShape UInt64))
  | level + 1 =>
      let _ : DecidableEq (Shape level) := decEq level
      inferInstanceAs (DecidableEq (NodeShape (Shape level)))

instance (level : Nat) : DecidableEq (Shape level) :=
  decEq level

/-- The pool of the top node. -/
def pool : {level : Nat} -> Shape level -> PoolId
  | 0, (leaf : NodeShape UInt64) => ⟨.leaf, leaf.sizeClass⟩
  | _ + 1, (node : NodeShape (Shape _)) => ⟨.inner, node.sizeClass⟩

/-- The walk through a shape.  Slots and positions are all written as zero. -/
def walk : {level : Nat} -> Shape level -> Nat -> Key -> List Visit
  | 0, (leaf : NodeShape UInt64), depth, partialKey =>
      .node depth ⟨⟨.leaf, leaf.sizeClass⟩, 0⟩ 0 leaf.count partialKey ::
        leaf.bindings.map fun binding =>
          .value depth 0 binding.1 (Key.extend partialKey binding.1 0) binding.2
  | level + 1, (node : NodeShape (Shape level)), depth, partialKey =>
      .node depth ⟨⟨.inner, node.sizeClass⟩, 0⟩ (level + 1) node.count partialKey ::
        node.bindings.flatMap fun binding =>
          .child depth 0 binding.1 ⟨pool binding.2, 0⟩ ::
            walk binding.2 (depth + 1) (Key.extend partialKey binding.1 (level + 1))

end Shape

namespace Visit

/-- The visit with slots and positions erased. -/
def faded : Visit -> Visit
  | node depth handle level count partialKey => node depth ⟨handle.pool, 0⟩ level count partialKey
  | child depth _ chunk held => child depth 0 chunk ⟨held.pool, 0⟩
  | value depth _ chunk key bound => value depth 0 chunk key bound

/-- The pool of a visited node. -/
def pool? : Visit -> Option PoolId
  | node _ handle _ _ _ => some handle.pool
  | _ => none

theorem binding?_faded (visit : Visit) : visit.faded.binding? = visit.binding? := by
  cases visit <;> rfl

theorem pool?_faded (visit : Visit) : visit.faded.pool? = visit.pool? := by
  cases visit <;> rfl

theorem noted_faded (levels : List LevelTally) (visit : Visit) :
    LevelTally.noted levels visit.faded = LevelTally.noted levels visit := by
  cases visit <;> rfl

end Visit

namespace Subtree

variable {level : Nat} {first second : Subtree level}

/-- A subtree without its slots and positions. -/
def shape : {level : Nat} -> Subtree level -> Shape level
  | 0, (leaf : Node UInt64) => leaf.shape id
  | _ + 1, (node : Node (Subtree _)) => node.shape shape

theorem pool_shape (subtree : Subtree level) : subtree.shape.pool = subtree.handle.pool := by
  cases level <;> rfl

/-- The walk through a shape is the walk through any subtree of that shape. -/
theorem walk_shape (subtree : Subtree level) (depth : Nat) (partialKey : Key) :
    subtree.shape.walk depth partialKey = (subtree.visits depth partialKey).map Visit.faded := by
  induction subtree using byLevel generalizing depth partialKey with
  | leaf leaf =>
      refine congrArg (Visit.node depth ⟨⟨.leaf, leaf.sizeClass⟩, 0⟩ 0 leaf.count partialKey :: ·) ?_
      change ((leaf.entries.map Entry.binding).map fun binding => (binding.1, id binding.2)).map _ =
        (leaf.entries.map _).map Visit.faded
      simp only [List.map_map]
      rfl
  | @node level node inductionHypothesis =>
      refine congrArg
        (Visit.node depth ⟨⟨.inner, node.sizeClass⟩, 0⟩ (level + 1) node.count partialKey :: ·) ?_
      change ((node.entries.map Entry.binding).map fun binding =>
          (binding.1, binding.2.shape)).flatMap _ = (node.entries.flatMap _).map Visit.faded
      simp only [List.flatMap_map, List.map_flatMap, List.map_cons, pool_shape, inductionHypothesis]
      rfl

/-- The walk visits the nodes that the pools are asked about. -/
theorem pools_visits (subtree : Subtree level) (anchor : Anchor) (depth : Nat) (partialKey : Key) :
    (subtree.visits depth partialKey).filterMap Visit.pool? =
      (subtree.edges anchor).map fun edge => edge.1.pool := by
  induction subtree using byLevel generalizing anchor depth partialKey with
  | leaf leaf =>
      have values : leaf.entries.filterMap (fun _ => (none : Option PoolId)) = [] :=
        List.filterMap_eq_nil_iff.mpr fun _ _ => rfl
      refine congrArg ((⟨.leaf, leaf.sizeClass⟩ : PoolId) :: ·) ?_
      rw [List.filterMap_map]
      exact values
  | @node level node inductionHypothesis =>
      refine congrArg ((⟨.inner, node.sizeClass⟩ : PoolId) :: ·) ?_
      rw [List.filterMap_flatMap, List.map_flatMap]
      refine congrArg (node.entries.flatMap ·) (funext fun entry => ?_)
      rw [List.filterMap_cons_none rfl]
      exact inductionHypothesis entry.value _ _ _

end Subtree

/-- What a tree shows of itself, apart from slots and positions and from the room that its
pools have obtained. -/
structure View where
  shape? : Option (Sigma Shape)
  size : Nat
  isEmpty : Bool
  height : Nat
  maxKey? : Option Key
  walk : List Visit
  toList : List (Key × UInt64)
  liveBytes : Nat
  stats : Stats
deriving DecidableEq

namespace Tree

variable {tree first second : Tree}

/-- The level of the root, and the shape of all below it. -/
def shape? (tree : Tree) : Option (Sigma Shape) :=
  tree.root?.map fun root => ⟨root.level, root.top.shape⟩

/-- The walk with slots and positions erased. -/
def walk (tree : Tree) : List Visit :=
  tree.visits.map Visit.faded

def view (tree : Tree) : View where
  shape? := tree.shape?
  size := tree.size
  isEmpty := tree.isEmpty
  height := tree.height
  maxKey? := tree.maxKey?
  walk := tree.walk
  toList := tree.toList
  liveBytes := tree.liveBytes
  stats := { tree.stats with allocatedBytes := 0 }

theorem walk_eq (tree : Tree) :
    tree.walk = tree.shape?.elim [] fun shape => shape.2.walk 0 0 := by
  rw [walk, visits, shape?]
  cases tree.root? with
  | none => rfl
  | some root => exact (root.top.walk_shape 0 0).symm

theorem toList_eq (tree : Tree) : tree.toList = tree.walk.filterMap Visit.binding? := by
  rw [walk, List.filterMap_map]
  exact congrArg (tree.visits.filterMap ·) (funext fun visit => visit.binding?_faded.symm)

theorem levels_eq (tree : Tree) :
    tree.visits.foldl LevelTally.noted [] = tree.walk.foldl LevelTally.noted [] := by
  rw [walk, List.foldl_map]
  simp only [Visit.noted_faded]

/-- The pools have as many nodes in use as the walk visits. -/
theorem liveNodes_eq (sound : tree.Sound) (pool : PoolId) :
    tree.pools.liveNodes pool = (tree.walk.filterMap Visit.pool?).count pool := by
  have pools : tree.walk.filterMap Visit.pool? = tree.edges.map fun edge => edge.1.pool := by
    rw [walk, List.filterMap_map, edges, visits]
    cases tree.root? with
    | none => rfl
    | some root =>
        refine Eq.trans ?_ (root.top.pools_visits Anchor.root 0 0)
        exact congrArg (List.filterMap · _) (funext Visit.pool?_faded)
  rw [sound.inventory.liveNodes_eq, pools, List.count, List.countP_map, List.countP_map]
  rfl

theorem height_eq (tree : Tree) : tree.height = tree.shape?.elim 0 fun shape => shape.1 + 1 := by
  rw [height, shape?]
  cases tree.root? <;> rfl

theorem isEmpty_eq (tree : Tree) : tree.isEmpty = tree.shape?.isNone := by
  rw [isEmpty, shape?, Option.isNone_map]

theorem maxKey?_eq (rooted : tree.Rooted) :
    tree.maxKey? = tree.shape?.map fun shape => Key.bound shape.1 := by
  rw [maxKey?, shape?, rooted.ceiling]
  cases tree.root? <;> rfl

/-- Sound trees of the same shape cannot be told apart by what they show. -/
theorem view_eq_of_shape? (sound : first.Sound) (soundToo : second.Sound)
    (same : first.shape? = second.shape?) : first.view = second.view := by
  have walks : first.walk = second.walk := by rw [walk_eq, walk_eq, same]
  have lists : first.toList = second.toList := by rw [toList_eq, toList_eq, walks]
  have sizes : first.size = second.size := by rw [sound.counted, soundToo.counted, lists]
  have heights : first.height = second.height := by rw [height_eq, height_eq, same]
  have nodes : first.pools.liveNodes = second.pools.liveNodes := by
    funext pool
    rw [liveNodes_eq sound, liveNodes_eq soundToo, walks]
  have bytes : first.liveBytes = second.liveBytes := by
    simp only [liveBytes, Pools.liveBytes, nodes]
  have depths : first.stats.depth = second.stats.depth := by
    have depth : forall tree : Tree, tree.stats.depth = tree.height - 1 := by
      intro tree
      simp only [stats, height]
      cases tree.root? <;> rfl
    rw [depth, depth, heights]
  have levels : first.stats.levels = second.stats.levels := by
    simp only [stats, levels_eq, walks]
  have tallies : first.stats.nodes = second.stats.nodes := by
    simp only [stats, nodes]
  have entries : first.stats.entries = second.stats.entries := sizes
  simp only [view, same, walks, lists, sizes, heights, bytes, isEmpty_eq,
    maxKey?_eq sound.toRooted, maxKey?_eq soundToo.toRooted, entries, depths, levels, tallies]

end Tree
end AdaptiveRadix
