import AdaptiveRadix.Proofs.Node.Entries
import AdaptiveRadix.Proofs.Tree.Posts

namespace AdaptiveRadix

/-!
# Cells

A cell is a node as it lies in its pool: where it is in the tree, and what is in each of its
slots, a child only by its handle.  A subtree has everything in it that lies below, so it
changes with every change further down; a cell does not.

All that a node has beside its cell is the edge that the pools keep for it.  That edge can be
read off the cell one level up on the way to the same keys, so who knows what becomes of the
cells knows what becomes of the edges.
-/

/-- What a slot holds. -/
inductive Content where
  | child (handle : Handle)
  | value (value : UInt64)
deriving DecidableEq, Repr

/-- A node in its pool: its place, its count, and its occupied slots. -/
structure Cell where
  handle : Handle
  level : Nat
  stem : Nat
  count : Nat
  entries : List (Entry Content)
deriving DecidableEq, Repr

namespace Cell

def sizeClass (cell : Cell) : SizeClass :=
  cell.handle.pool.sizeClass

def post (cell : Cell) : Post :=
  ⟨cell.level, cell.stem, cell.handle, cell.count⟩

end Cell

namespace Entry

variable {α β : Type}

/-- An entry with its value seen through a view. -/
def viewed (view : α -> β) (entry : Entry α) : Entry β :=
  ⟨entry.position, entry.chunk, view entry.value⟩

theorem viewed_given (view : α -> β) (chunk : Chunk) (value : α) (entry : Entry α) :
    (entry.given chunk value).viewed view = (entry.viewed view).given chunk (view value) := by
  by_cases same : entry.chunk = chunk
  · have seen : (entry.viewed view).chunk = chunk := same
    rw [given_of_eq same, given_of_eq seen]
    rfl
  · have seen : (entry.viewed view).chunk ≠ chunk := same
    rw [given_of_ne same, given_of_ne seen]

end Entry

namespace Node

variable {α : Type}

/-- The node as a cell, on the path of a key. -/
def cell (node : Node α) (view : α -> Content) (level : Nat) (key : Key) : Cell :=
  ⟨node.named level, level, key.above (level + 1), node.count, node.entries.map (Entry.viewed view)⟩

theorem cell_congr (node : Node α) (view : α -> Content) {level : Nat} {key other : Key}
    (same : key.above (level + 1) = other.above (level + 1)) :
    node.cell view level key = node.cell view level other := by
  rw [cell, same]
  rfl

end Node

namespace Subtree

variable {level floor : Nat} {leaf : Node UInt64} {node after : Node (Subtree level)}
  {subtree child : Subtree level} {chunk : Chunk} {key other : Key} {cell : Cell}

/-- What the slots of an inner node hold. -/
def content (subtree : Subtree level) : Content :=
  .child subtree.handle

/-- The cell that a search for the key passes at a level. -/
def cell? : {level : Nat} -> Subtree level -> Key -> (floor : Nat) -> Option Cell
  | 0, (leaf : Node UInt64), key, floor => if floor = 0 then some (leaf.cell .value 0 key) else none
  | level + 1, (node : Node (Subtree level)), key, floor =>
      if floor = level + 1 then some (node.cell content (level + 1) key)
      else
        match node.get? (key.chunk (level + 1)) with
        | some child => child.cell? key floor
        | none => none

theorem cell?_leaf (leaf : Node UInt64) (key : Key) (floor : Nat) :
    (ofLeaf leaf).cell? key floor = if floor = 0 then some (leaf.cell .value 0 key) else none :=
  rfl

theorem cell?_top (node : Node (Subtree level)) (key : Key) :
    (ofNode node).cell? key (level + 1) = some (node.cell content (level + 1) key) :=
  if_pos rfl

theorem cell?_below (different : floor ≠ level + 1) (node : Node (Subtree level)) (key : Key) :
    (ofNode node).cell? key floor =
      (node.get? (key.chunk (level + 1))).bind fun child => child.cell? key floor := by
  rw [ofNode, cell?, if_neg different]
  cases node.get? (key.chunk (level + 1)) <;> rfl

/-- Below a node with one entry changed, a search passes what it passed or the new child's. -/
theorem cell?_of_child
    (found : forall other, after.get? other = if other = chunk then some child else node.get? other)
    (below : floor ≠ level + 1) (other : Key) :
    (ofNode after).cell? other floor =
      if other.chunk (level + 1) = chunk then child.cell? other floor
      else (ofNode node).cell? other floor := by
  rw [cell?_below below, cell?_below below, found]
  split <;> rfl

/-- A cell says more of its node than a post does. -/
theorem post?_eq (subtree : Subtree level) (key : Key) (floor : Nat) :
    subtree.post? key floor = (subtree.cell? key floor).map Cell.post := by
  induction subtree using byLevel with
  | leaf leaf =>
      rw [post?_leaf, cell?_leaf]
      split <;> rfl
  | @node level node inductionHypothesis =>
      by_cases top : floor = level + 1
      · subst floor
        rw [post?_top, cell?_top]
        rfl
      · rw [post?_below top, cell?_below top, Option.map_bind]
        exact Option.bind_congr fun child _ => inductionHypothesis child

/-- A cell that a search passes is at the place that the search has come to. -/
theorem place_of_cell? (found : subtree.cell? key floor = some cell) :
    cell.level = floor ∧ cell.stem = key.above (floor + 1) ∧ floor ≤ level := by
  have passed := subtree.post?_eq key floor
  rw [found, Option.map_some] at passed
  exact place_of_post? passed

theorem cell?_of_lt (above : level < floor) (subtree : Subtree level) (key : Key) :
    subtree.cell? key floor = none := by
  cases found : subtree.cell? key floor with
  | none => rfl
  | some cell => exact absurd (place_of_cell? found).2.2 (Nat.not_le.mpr above)

/-- Keys that agree above a level pass the same cell there. -/
theorem cell?_congr (subtree : Subtree level)
    (same : key.above (floor + 1) = other.above (floor + 1)) :
    subtree.cell? key floor = subtree.cell? other floor := by
  induction subtree using byLevel with
  | leaf leaf =>
      rw [cell?_leaf, cell?_leaf]
      by_cases top : floor = 0
      · subst floor
        rw [leaf.cell_congr _ same]
      · rw [if_neg top, if_neg top]
  | @node level node inductionHypothesis =>
      rcases Nat.lt_trichotomy floor (level + 1) with lower | rfl | higher
      · rw [cell?_below lower.ne, cell?_below lower.ne, Key.chunk_eq_of_above_eq lower same]
        exact Option.bind_congr fun child _ => inductionHypothesis child
      · rw [cell?_top, cell?_top, node.cell_congr _ same]
      · rw [cell?_of_lt higher, cell?_of_lt higher]

/-- A search that comes to a level passes a cell on every level above it. -/
theorem exists_cell?_above (found : subtree.cell? key floor = some cell) {high : Nat}
    (higher : floor ≤ high) (lower : high ≤ level) :
    ∃ upper, subtree.cell? key high = some upper := by
  induction subtree using byLevel with
  | leaf leaf => exact ⟨_, if_pos (Nat.le_zero.mp lower)⟩
  | @node level node inductionHypothesis =>
      by_cases top : high = level + 1
      · subst high
        exact ⟨_, cell?_top node key⟩
      · have below : floor ≠ level + 1 := by omega
        rw [cell?_below below] at found
        rcases Option.bind_eq_some_iff.mp found with ⟨child, held, passed⟩
        rcases inductionHypothesis child passed (by omega) with ⟨upper, there⟩
        refine ⟨upper, ?_⟩
        rw [cell?_below top, held, Option.bind_some, there]

/-- The edge to a passed cell starts at the cell above it, or is the edge to the top. -/
theorem mem_edges_of_cell? (sound : subtree.Sound) (found : subtree.cell? key floor = some cell)
    (anchor : Anchor) :
    (cell.handle, (subtree.cell? key (floor + 1)).elim anchor fun parent =>
      (⟨some parent.handle, key.chunk (floor + 1)⟩ : Anchor)) ∈ subtree.edges anchor := by
  induction subtree using byLevel generalizing anchor with
  | leaf leaf =>
      rcases Option.ite_none_right_eq_some.mp found with ⟨rfl, same⟩
      cases Option.some.inj same
      exact List.mem_cons_self
  | @node level node inductionHypothesis =>
      rcases sound_node.mp sound with ⟨valid, _, children⟩
      rw [edges_node]
      by_cases top : floor = level + 1
      · subst floor
        rw [cell?_of_lt (Nat.lt_succ_self _)]
        rw [cell?_top] at found
        cases Option.some.inj found
        exact List.mem_cons_self
      · rw [cell?_below top] at found
        rcases Option.bind_eq_some_iff.mp found with ⟨child, held, passed⟩
        have lower := (place_of_cell? passed).2.2
        have inside := inductionHypothesis child (children _ child held) passed
          ⟨some (node.named (level + 1)), key.chunk (level + 1)⟩
        apply List.mem_cons_of_mem
        refine List.mem_flatMap.mpr ⟨_, (Node.mem_bindings_iff valid).mpr held, ?_⟩
        rcases lower.eq_or_lt with rfl | deeper
        · rw [cell?_of_lt (Nat.lt_succ_self _)] at inside
          rw [cell?_top]
          exact inside
        · rcases exists_cell?_above passed (Nat.le_succ floor) deeper with ⟨upper, there⟩
          rw [there] at inside
          rw [cell?_below (Nat.succ_lt_succ deeper).ne, held, Option.bind_some, there]
          exact inside

end Subtree

namespace Tree

variable {tree : Tree} {root : Root} {key other : Key} {floor : Nat} {cell : Cell}

/-- The cell that a search for the key passes at a level. -/
def cell? (tree : Tree) (key : Key) (floor : Nat) : Option Cell :=
  tree.root?.bind fun root =>
    if key ≤ Key.bound root.level then root.top.cell? key floor else none

/-- The nodes of a tree, as searches pass them. -/
def cells (tree : Tree) : Set Cell :=
  {cell | ∃ key floor, tree.cell? key floor = some cell}

/-- The edge to the cell at a level, read off the cell above. -/
def edgeAt (tree : Tree) (key : Key) (floor : Nat) : Anchor :=
  (tree.cell? key (floor + 1)).elim Anchor.root fun parent =>
    ⟨some parent.handle, key.chunk (floor + 1)⟩

theorem cell?_of_root (held : tree.root? = some root) (key : Key) (floor : Nat) :
    tree.cell? key floor =
      if key ≤ Key.bound root.level then root.top.cell? key floor else none := by
  rw [cell?, held, Option.bind_some]

theorem cell?_of_none (held : tree.root? = none) (key : Key) (floor : Nat) :
    tree.cell? key floor = none := by
  rw [cell?, held, Option.bind_none]

theorem post?_eq (tree : Tree) (key : Key) (floor : Nat) :
    tree.post? key floor = (tree.cell? key floor).map Cell.post := by
  cases held : tree.root? with
  | none => rw [post?_of_none held, cell?_of_none held, Option.map_none]
  | some root =>
      rw [post?_of_root held, cell?_of_root held]
      split
      · exact root.top.post?_eq key floor
      · rfl

theorem post?_of_cell? (found : tree.cell? key floor = some cell) :
    tree.post? key floor = some cell.post := by
  rw [post?_eq, found, Option.map_some]

theorem place_of_cell? (found : tree.cell? key floor = some cell) :
    cell.level = floor ∧ cell.stem = key.above (floor + 1) :=
  place_of_post? (post?_of_cell? found)

/-- A tree in which a search passes a cell has a root above it. -/
theorem root_of_cell? (found : tree.cell? key floor = some cell) :
    ∃ root, tree.root? = some root ∧ key ≤ Key.bound root.level ∧
      root.top.cell? key floor = some cell ∧ floor ≤ root.level := by
  rcases Option.bind_eq_some_iff.mp found with ⟨root, held, below⟩
  rcases Option.ite_none_right_eq_some.mp below with ⟨fits, passed⟩
  exact ⟨root, held, fits, passed, (Subtree.place_of_cell? passed).2.2⟩

theorem cell?_congr (rooted : tree.Rooted) (same : key.above (floor + 1) = other.above (floor + 1)) :
    tree.cell? key floor = tree.cell? other floor := by
  cases held : tree.root? with
  | none => rw [cell?_of_none held, cell?_of_none held]
  | some root =>
      have low := (rooted.sound root held).low
      rw [cell?_of_root held, cell?_of_root held, root.top.cell?_congr same]
      by_cases lower : floor ≤ root.level
      · have higher := Key.above_eq_of_le (Nat.succ_le_succ lower) same
        simp only [Key.le_bound_iff_above low, higher]
      · rw [Subtree.cell?_of_lt (Nat.not_le.mp lower), ite_self, ite_self]

/-- Below the root, a search passes a cell above every cell. -/
theorem exists_cell?_above (held : tree.root? = some root)
    (found : tree.cell? key floor = some cell) (lower : floor < root.level) :
    ∃ parent, tree.cell? key (floor + 1) = some parent := by
  rcases root_of_cell? found with ⟨_, same, fits, passed, _⟩
  cases Option.some.inj (held.symm.trans same)
  rw [cell?_of_root held, if_pos fits]
  exact Subtree.exists_cell?_above passed (Nat.le_succ floor) lower

/-- The edge that the pools keep for a node is the one that the cells tell of. -/
theorem anchor?_of_cell? (sound : tree.Sound) (found : tree.cell? key floor = some cell) :
    tree.pools.anchor? cell.handle = some (tree.edgeAt key floor) := by
  rcases root_of_cell? found with ⟨root, held, fits, passed, _⟩
  have listed := Subtree.mem_edges_of_cell? (sound.sound root held).top passed Anchor.root
  apply sound.inventory.mem_iff.mp
  rw [edges, held, Option.elim_some, edgeAt, cell?_of_root held, if_pos fits]
  exact listed

/-- The nodes that the pools have in use are the cells. -/
theorem live_iff_cells (sound : tree.Sound) {handle : Handle} :
    (tree.pools.anchor? handle).isSome = true ↔ ∃ cell ∈ tree.cells, cell.handle = handle := by
  rw [← mem_handles_iff sound, List.mem_map]
  constructor
  · intro listed
    rcases listed with ⟨post, met, rfl⟩
    rcases (mem_posts_iff sound.toRooted).mp met with ⟨key, passed⟩
    rw [post?_eq] at passed
    rcases Option.map_eq_some_iff.mp passed with ⟨cell, found, rfl⟩
    exact ⟨cell, ⟨key, _, found⟩, rfl⟩
  · intro used
    rcases used with ⟨cell, ⟨key, floor, found⟩, rfl⟩
    refine ⟨cell.post, (mem_posts_iff sound.toRooted).mpr ⟨key, ?_⟩, rfl⟩
    rw [← post?_of_cell? found]
    exact congrArg _ (place_of_cell? found).1

/-- No two nodes go by one handle. -/
theorem eq_of_handle (sound : tree.Sound) {first second : Cell} (met : first ∈ tree.cells)
    (metToo : second ∈ tree.cells) (same : first.handle = second.handle) : first = second := by
  rcases met with ⟨key, floor, found⟩
  rcases metToo with ⟨other, height, foundToo⟩
  have posts : first.post = second.post := by
    have distinct := sound.inventory.distinct
    rw [← handles_posts] at distinct
    apply List.inj_on_of_nodup_map distinct _ _ same
    · refine (mem_posts_iff sound.toRooted).mpr ⟨key, ?_⟩
      rw [← post?_of_cell? found]
      exact congrArg _ (place_of_cell? found).1
    · refine (mem_posts_iff sound.toRooted).mpr ⟨other, ?_⟩
      rw [← post?_of_cell? foundToo]
      exact congrArg _ (place_of_cell? foundToo).1
  rcases place_of_cell? found with ⟨rfl, stem⟩
  rcases place_of_cell? foundToo with ⟨rfl, stemToo⟩
  have levels : first.level = second.level := congrArg Post.level posts
  have stems : first.stem = second.stem := congrArg Post.stem posts
  rw [stem, stemToo, levels] at stems
  rw [levels, cell?_congr sound.toRooted stems, foundToo] at found
  exact (Option.some.inj found).symm

end Tree
end AdaptiveRadix
