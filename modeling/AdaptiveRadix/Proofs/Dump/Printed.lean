import AdaptiveRadix.Proofs.Dump.Outline
import AdaptiveRadix.Proofs.Stats.Agreement

namespace AdaptiveRadix

/-!
# What a dump shows

The lines of a dump are those of the walk, so what they show is proved along it.  The lines of
a subtree are in place wherever they are printed; the children they name are the nodes below
its top.  `shown_after` puts together what a reader of any dump can rely on.
-/

/-- Extending a partial key sets bits. -/
theorem Key.toNat_extend_eq_or (partialKey : Key) (chunk : Chunk) {level : Nat}
    (low : level ≤ maxLevel) :
    (partialKey.extend chunk level).toNat = partialKey.toNat ||| chunk.toNat <<< shift level := by
  rw [extend, UInt64.toNat_or, toNat_placed chunk low, Nat.shiftLeft_eq]

namespace Node

variable {α : Type} {node : Node α}

/-- The entries of a valid node are as a dump should show them. -/
theorem laid (valid : node.Valid) :
    Line.Laid node.sizeClass node.count
      (node.entries.map fun entry => (entry.position, entry.chunk.toNat)) where
  counted := (List.length_map _).trans valid.counted
  distinct := by
    rw [List.map_map]
    exact nodup_positions valid
  bounded := by
    intro place listed
    rcases List.mem_map.mp listed with ⟨entry, met, rfl⟩
    exact position_lt valid entry met
  ascending := by
    have chunks := List.pairwise_map.mp (ascending_entries valid)
    rw [List.map_map, List.pairwise_map]
    exact chunks.imp UInt8.lt_iff_toNat_lt.mp

end Node

namespace Visit

theorem binding?_told (pools : Pools) (visit : Visit) :
    (visit.told pools).binding? = visit.binding?.map fun binding => (binding.1.toNat, binding.2.toNat) := by
  cases visit <;> rfl

/-- The child that a visit is about. -/
def child? : Visit -> Option Handle
  | child _ _ _ handle => some handle
  | _ => none

theorem child?_told (pools : Pools) (visit : Visit) : (visit.told pools).child? = visit.child? := by
  cases visit <;> rfl

/-- A visit is of a node, of an edge or of a key. -/
theorem length_eq (visits : List Visit) :
    visits.length = (visits.filterMap post?).length + (visits.filterMap child?).length +
      (visits.filterMap binding?).length := by
  induction visits with
  | nil => rfl
  | cons visit visits inductionHypothesis =>
      rw [List.length_cons, inductionHypothesis]
      cases visit <;> simp only [List.filterMap_cons, post?, child?, binding?, List.length_cons] <;>
        omega

end Visit

namespace Subtree

variable {level depth : Nat} {leaf : Node UInt64} {node : Node (Subtree level)} {pools : Pools}
  {partialKey : Key} {above below : List Line}

/-- The walk through a subtree, as lines. -/
def lines (pools : Pools) (subtree : Subtree level) (depth : Nat) (partialKey : Key) : List Line :=
  (subtree.visits depth partialKey).map (Visit.told pools)

/-- The line of a value. -/
def valueLine (depth : Nat) (partialKey : Key) (entry : Entry UInt64) : Line :=
  .value (4 * depth + 2) entry.position entry.chunk.toNat (partialKey.extend entry.chunk 0).toNat
    entry.value.toNat

/-- The line of a child. -/
def childLine (depth : Nat) (entry : Entry (Subtree level)) : Line :=
  .child (4 * depth + 2) entry.position entry.chunk.toNat entry.value.handle

/-- The line of a node. -/
def nodeLine {α : Type} (pools : Pools) (node : Node α) (level depth : Nat) (partialKey : Key) : Line :=
  .node (4 * depth) (Family.ofLevel level) node.sizeClass node.count (Key.shift level)
    ((pools.anchor? (node.named level)).getD Anchor.root).chunk.toNat partialKey.toNat

theorem lines_leaf (pools : Pools) (leaf : Node UInt64) (depth : Nat) (partialKey : Key) :
    (ofLeaf leaf).lines pools depth partialKey =
      nodeLine pools leaf 0 depth partialKey ::
        leaf.entries.flatMap fun entry => [valueLine depth partialKey entry] := by
  refine congrArg (nodeLine pools leaf 0 depth partialKey :: ·) ?_
  refine List.map_map.trans ?_
  exact (List.flatMap_pure_eq_map (valueLine depth partialKey) leaf.entries).symm

theorem lines_node (pools : Pools) (node : Node (Subtree level)) (depth : Nat) (partialKey : Key) :
    (ofNode node).lines pools depth partialKey =
      nodeLine pools node (level + 1) depth partialKey ::
        node.entries.flatMap fun entry => childLine depth entry ::
          entry.value.lines pools (depth + 1) (partialKey.extend entry.chunk (level + 1)) := by
  refine congrArg (nodeLine pools node (level + 1) depth partialKey :: ·) ?_
  rw [List.map_flatMap]
  rfl

/-- The lines of a subtree start with that of its top. -/
theorem exists_lines_eq_cons (pools : Pools) (subtree : Subtree level) (depth : Nat)
    (partialKey : Key) :
    ∃ count rest, subtree.lines pools depth partialKey =
      .node (4 * depth) subtree.handle.pool.family subtree.handle.pool.sizeClass count
        (Key.shift level) ((pools.anchor? subtree.handle).getD Anchor.root).chunk.toNat
        partialKey.toNat :: rest := by
  cases level with
  | zero => exact ⟨_, _, rfl⟩
  | succ level => exact ⟨_, _, rfl⟩

/-- Nothing below a node is printed to the left of it. -/
theorem indent_lines (pools : Pools) (subtree : Subtree level) (depth : Nat) (partialKey : Key) :
    ∀ line ∈ subtree.lines pools depth partialKey, 4 * depth ≤ line.indent := by
  induction subtree using byLevel generalizing depth partialKey with
  | leaf leaf =>
      rw [lines_leaf]
      intro line listed
      rcases List.mem_cons.mp listed with rfl | below
      · exact Nat.le_refl _
      · rcases List.mem_flatMap.mp below with ⟨entry, _, inside⟩
        rw [List.mem_singleton.mp inside]
        exact Nat.le_add_right _ _
  | @node level node inductionHypothesis =>
      rw [lines_node]
      intro line listed
      rcases List.mem_cons.mp listed with rfl | below
      · exact Nat.le_refl _
      · rcases List.mem_flatMap.mp below with ⟨entry, _, inside⟩
        rcases List.mem_cons.mp inside with rfl | deeper
        · exact Nat.le_add_right _ _
        · exact (Nat.mul_le_mul_left 4 (Nat.le_succ depth)).trans
            (inductionHypothesis entry.value _ _ line deeper)

theorem entered_values (depth : Nat) (partialKey : Key) :
    Line.Entered (4 * depth) (valueLine depth partialKey) fun _ => [] where
  indent _ := rfl
  place _ := rfl
  deeper _ _ impossible := by cases impossible

theorem entered_children (pools : Pools) (level depth : Nat) (partialKey : Key) :
    Line.Entered (4 * depth) (childLine depth) fun entry : Entry (Subtree level) =>
      entry.value.lines pools (depth + 1) (partialKey.extend entry.chunk (level + 1)) where
  indent _ := rfl
  place _ := rfl
  deeper entry line listed := indent_lines pools entry.value (depth + 1) _ line listed

/-- The line of a value is in place below that of its leaf. -/
theorem inPlace_value (pools : Pools) (leaf : Node UInt64) (partialKey : Key) (entry : Entry UInt64)
    (owned : Line.owner? above (4 * depth + 2) = some (nodeLine pools leaf 0 depth partialKey)) :
    (valueLine depth partialKey entry).InPlace above below :=
  ⟨4 * depth, leaf.sizeClass, leaf.count, _, partialKey.toNat, rfl, owned,
    Key.toNat_extend_eq_or partialKey entry.chunk (Nat.zero_le _)⟩

/-- The line of a child is in place above that of the node. -/
theorem inPlace_child (low : level + 1 ≤ Key.maxLevel) {entry : Entry (Subtree level)}
    {anchor : Anchor}
    (owned : Line.owner? above (4 * depth + 2) = some (nodeLine pools node (level + 1) depth partialKey))
    (recorded : pools.anchor? entry.value.handle = some anchor) (chunk : anchor.chunk = entry.chunk)
    (below : List Line) :
    (childLine depth entry).InPlace above
      (entry.value.lines pools (depth + 1) (partialKey.extend entry.chunk (level + 1)) ++ below) := by
  refine ⟨4 * depth, node.sizeClass, node.count, Key.shift level, _, partialKey.toNat, rfl, owned, ?_⟩
  rcases exists_lines_eq_cons pools entry.value (depth + 1)
    (partialKey.extend entry.chunk (level + 1)) with ⟨count, rest, lines⟩
  rw [recorded, Option.getD_some, chunk, Key.toNat_extend_eq_or _ _ low] at lines
  exact ⟨count, rest ++ below, congrArg (· ++ below) lines⟩

/-- All lines of a subtree are in place, wherever they are printed. -/
theorem orderly_lines {subtree : Subtree level} (sound : subtree.Sound)
    (low : level ≤ Key.maxLevel) {anchor : Anchor}
    (recorded : ∀ edge ∈ subtree.edges anchor, pools.anchor? edge.1 = some edge.2)
    (depth : Nat) (partialKey : Key) (above below : List Line)
    (fence : ∀ line ∈ below.head?, line.indent ≤ 4 * depth) :
    Line.Orderly above (subtree.lines pools depth partialKey) below := by
  induction subtree using byLevel generalizing anchor depth partialKey above below with
  | leaf leaf =>
      have entered := entered_values depth partialKey
      rw [lines_leaf]
      refine entered.orderly rfl ?_ fence ?_
      · rw [nodeLine, Line.InPlace, entered.placesUnder_eq _ fence]
        exact Node.laid (sound_leaf.mp sound).1
      · intro entry _ above below owned _
        exact ⟨inPlace_value pools leaf partialKey entry owned, trivial⟩
  | @node level node inductionHypothesis =>
      rcases sound_node.mp sound with ⟨valid, _, children⟩
      have entered := entered_children pools level depth partialKey
      rw [edges_node] at recorded
      rw [lines_node]
      refine entered.orderly rfl ?_ fence ?_
      · rw [nodeLine, Line.InPlace, entered.placesUnder_eq _ fence]
        exact Node.laid valid
      -- The line of the child comes first and finds the child's own line after it; the pools
      -- have the edge that is printed on record, so both lines show one chunk.
      · intro entry met above below owned near
        have inside : ∀ edge ∈ entry.value.edges ⟨some (node.named (level + 1)), entry.chunk⟩,
            pools.anchor? edge.1 = some edge.2 := by
          intro edge listed
          apply recorded edge
          exact List.mem_cons_of_mem _
            (List.mem_flatMap.mpr ⟨(entry.chunk, entry.value), List.mem_map_of_mem met, listed⟩)
        have top := inside (entry.value.handle, _)
          (by rw [edges_eq_cons]; exact List.mem_cons_self)
        refine ⟨inPlace_child low owned top rfl below, ?_⟩
        exact inductionHypothesis entry.value (children _ _ (Node.mem_entries valid met))
          (Nat.le_of_succ_le low) inside _ _ _ _ near

theorem innerEdges_node (node : Node (Subtree level)) :
    (ofNode node).innerEdges = edgesBelow (node.named (level + 1)) node.bindings :=
  congrArg List.tail (edges_node node Anchor.root)

/-- The children that the walk through a subtree comes to are the nodes below its top. -/
theorem children_visits (subtree : Subtree level) (depth : Nat) (partialKey : Key) :
    (subtree.visits depth partialKey).filterMap Visit.child? = subtree.innerEdges.map Prod.fst := by
  induction subtree using byLevel generalizing depth partialKey with
  | leaf leaf =>
      refine (List.filterMap_cons_none rfl).trans ?_
      rw [List.filterMap_map]
      exact List.filterMap_eq_nil_iff.mpr fun _ _ => rfl
  | @node level node inductionHypothesis =>
      rw [innerEdges_node, edgesBelow, Node.bindings, List.flatMap_map, List.map_flatMap]
      refine (List.filterMap_cons_none rfl).trans ?_
      rw [List.filterMap_flatMap]
      refine congrArg (node.entries.flatMap ·) (funext fun entry => ?_)
      rw [edges_eq_cons, List.map_cons]
      exact congrArg (entry.value.handle :: ·) (inductionHypothesis entry.value _ _)

/-- All below the top of a subtree have a parent. -/
theorem exists_parent_of_innerEdges (subtree : Subtree level) :
    ∀ edge ∈ subtree.innerEdges, ∃ parent, edge.2.parent? = some parent := by
  induction subtree using byLevel with
  | leaf leaf =>
      intro edge impossible
      cases impossible
  | @node level node inductionHypothesis =>
      rw [innerEdges_node]
      intro edge listed
      rcases List.mem_flatMap.mp listed with ⟨binding, _, inside⟩
      rw [edges_eq_cons] at inside
      rcases List.mem_cons.mp inside with rfl | deeper
      · exact ⟨_, rfl⟩
      · exact inductionHypothesis binding.2 edge deeper

end Subtree

/-- Each of some handles is in one pool. -/
theorem PoolId.total_countP (handles : List Handle) :
    PoolId.total (fun pool => handles.countP fun handle => handle.pool = pool) = handles.length := by
  induction handles with
  | nil => rfl
  | cons handle handles inductionHypothesis =>
      rw [List.length_cons, ← inductionHypothesis]
      simp only [List.countP_cons, decide_eq_true_eq]
      rcases handle with ⟨⟨family, sizeClass⟩, slot⟩
      cases family <;> cases sizeClass <;>
        simp [PoolId.total, PoolId.all, Vector.toList] <;> omega

namespace Stats

theorem totalNodes_eq (tree : Tree) :
    tree.stats.totalNodes = PoolId.total tree.pools.liveNodes := by
  simp only [totalNodes, familyTotal, Tree.stats, PerPool.get_tabulate, PoolId.total, PoolId.all,
    SizeClass.total, SizeClass.all, List.foldr]
  simp only [Vector.toList, List.foldr]
  omega

end Stats

namespace Tree

variable {tree : Tree} {root : Root}

/-- The nodes that the pools count are those that the walk comes to. -/
theorem totalNodes_eq_length (sound : tree.Sound) : tree.stats.totalNodes = tree.posts.length := by
  rw [Stats.totalNodes_eq, funext sound.inventory.liveNodes_eq, ← handles_posts,
    PoolId.total_countP, List.length_map]

/-- The children that the walk comes to. -/
def children (tree : Tree) : List Handle :=
  tree.visits.filterMap Visit.child?

theorem visits_of_none (held : tree.root? = none) : tree.visits = [] := by
  rw [visits, held]

/-- The nodes are the root and the children that the walk comes to. -/
theorem exists_edges_eq_cons (held : tree.root? = some root) :
    ∃ inner, tree.edges = (root.top.handle, Anchor.root) :: inner ∧
      tree.children = inner.map Prod.fst ∧ ∀ edge ∈ inner, ∃ parent, edge.2.parent? = some parent := by
  refine ⟨root.top.innerEdges, ?_, ?_, root.top.exists_parent_of_innerEdges⟩
  · rw [edges, held, Option.elim_some, Subtree.edges_eq_cons]
  · rw [children, visits, held]
    exact root.top.children_visits 0 0

theorem nodup_children (sound : tree.Sound) : tree.children.Nodup := by
  cases held : tree.root? with
  | none =>
      rw [children, visits_of_none held]
      exact List.nodup_nil
  | some root =>
      rcases exists_edges_eq_cons held with ⟨inner, edges, children, _⟩
      have distinct := sound.inventory.distinct
      rw [edges, List.map_cons] at distinct
      rw [children]
      exact (List.nodup_cons.mp distinct).2

theorem mem_children_iff (sound : tree.Sound) {handle : Handle} :
    handle ∈ tree.children ↔
      ∃ parent chunk, tree.pools.anchor? handle = some ⟨some parent, chunk⟩ := by
  simp only [← sound.inventory.mem_iff]
  cases held : tree.root? with
  | none =>
      have nothing : tree.edges = [] := by rw [edges, held, Option.elim_none]
      simp [children, visits_of_none held, nothing]
  | some root =>
      rcases exists_edges_eq_cons held with ⟨inner, edges, children, parents⟩
      rw [edges, children, List.mem_map]
      constructor
      · intro listed
        rcases listed with ⟨⟨_, ⟨parent?, chunk⟩⟩, inside, rfl⟩
        rcases parents _ inside with ⟨parent, rfl⟩
        exact ⟨parent, chunk, List.mem_cons_of_mem _ inside⟩
      · intro recorded
        rcases recorded with ⟨parent, chunk, listed⟩
        rcases List.mem_cons.mp listed with top | inside
        · cases top
        · exact ⟨_, inside, rfl⟩

/-- What a dump shows to its reader. -/
structure Shown (tree : Tree) (lines : List Line) : Prop where
  /-- A line for the tree as a whole, one for each node and each key, and one for the edge to each
  node but the root. -/
  counted : (Text.linesOf tree.dump).length =
    if tree.isEmpty then 1 else 2 * tree.stats.totalNodes + tree.stats.entries
  /-- The keys and their values from top to bottom. -/
  bindings : lines.filterMap Line.binding? =
    tree.toList.map fun binding => (binding.1.toNat, binding.2.toNat)
  /-- No node is printed as a child twice, and those that have a parent are printed. -/
  distinct : (lines.filterMap Line.child?).Nodup
  complete : forall handle, handle ∈ lines.filterMap Line.child? ↔
    ∃ parent chunk, tree.pools.anchor? handle = some ⟨some parent, chunk⟩
  /-- Every line goes with those above and below it. -/
  inPlace : forall above line below, lines = above ++ line :: below -> line.InPlace above below

theorem length_dumpLines (sound : tree.Sound) :
    tree.dumpLines.length =
      if tree.isEmpty then 1 else 2 * tree.stats.totalNodes + tree.stats.entries := by
  cases held : tree.root? with
  | none => rw [dumpLines, visits_of_none held, isEmpty, held, Option.isNone_none, if_pos rfl]; rfl
  | some root =>
      rcases exists_edges_eq_cons held with ⟨inner, edges, children, _⟩
      have keys : (tree.visits.filterMap Visit.binding?).length = tree.stats.entries :=
        sound.counted.symm
      have below : (tree.visits.filterMap Visit.child?).length = inner.length := by
        rw [← Tree.children, children, List.length_map]
      have nodes : tree.posts.length = inner.length + 1 := by
        rw [← List.length_map, handles_posts, edges, List.length_map, List.length_cons]
      rw [totalNodes_eq_length sound, isEmpty, held, Option.isNone_some, if_neg (by decide),
        dumpLines, List.length_cons, List.length_map, Visit.length_eq, ← posts, nodes, below, keys]
      omega

/-- All lines of a dump but the first are in place. -/
theorem orderly_told (sound : tree.Sound) :
    Line.Orderly [] (tree.visits.map (Visit.told tree.pools)) [] := by
  cases held : tree.root? with
  | none =>
      rw [visits_of_none held]
      exact trivial
  | some root =>
      have recorded : ∀ edge ∈ root.top.edges Anchor.root,
          tree.pools.anchor? edge.1 = some edge.2 := by
        intro edge listed
        apply sound.inventory.mem_iff.mp
        rwa [edges, held, Option.elim_some]
      rcases sound.sound root held with ⟨low, top⟩
      rw [visits, held]
      refine Subtree.orderly_lines top low recorded 0 0 [] [] ?_
      intro line impossible
      cases impossible

theorem Sound.shown (sound : tree.Sound) :
    tree.Shown (tree.visits.map (Visit.told tree.pools)) := by
  have told : (tree.visits.map (Visit.told tree.pools)).filterMap Line.child? = tree.children := by
    rw [List.filterMap_map, children]
    exact congrArg (List.filterMap · tree.visits) (funext (Visit.child?_told tree.pools))
  refine ⟨?_, ?_, ?_, ?_, ?_⟩
  · rw [Line.linesOf_dump, List.length_map]
    exact length_dumpLines sound
  · rw [List.filterMap_map, toList, List.map_filterMap]
    exact congrArg (List.filterMap · tree.visits) (funext (Visit.binding?_told tree.pools))
  · rw [told]
    exact nodup_children sound
  · intro handle
    rw [told]
    exact mem_children_iff sound
  · intro above line below split
    have placed := Line.inPlace_of_orderly (orderly_told sound) split
    rwa [List.nil_append, List.append_nil] at placed

/-- After every run of a new tree, its dump can be read and shows the tree. -/
theorem shown_after (limit? : Option Nat) (requests : List Request) :
    ∃ lines, Line.readAll? ((empty limit?).after requests).dump = some lines ∧
      ((empty limit?).after requests).Shown lines :=
  ⟨_, Line.readAll?_dump _, (sound_after (sound_empty limit?) requests).shown⟩

end Tree
end AdaptiveRadix
