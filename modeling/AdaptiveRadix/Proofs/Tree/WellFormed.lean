import AdaptiveRadix.Proofs.Tree.Run

namespace AdaptiveRadix

/-!
# Well-formed trees

What a check of the whole structure would look at, node by node.  A site is one node
as a walk from the root meets it, with all that the node says of itself; the pools say
the rest.  `Tree.WellFormed` compares the two accounts, and holds after every run: the
invariant of trees already has the handles right, and what remains is said by one
induction over the nodes for each clause.
-/

/-- A node as a walk meets it: its name, the edge that leads to it, its level, its
class, its count, the number of its occupied slots, and what lies under its chunks. -/
structure Site where
  handle : Handle
  edge : Anchor
  level : Nat
  sizeClass : SizeClass
  count : Nat
  occupied : Nat
  children : List (Chunk × Handle)

namespace Site

/-- A node that is where its name says, and has neither no entries nor too many. -/
structure Proper (site : Site) : Prop where
  housed : site.handle.pool = ⟨Family.ofLevel site.level, site.sizeClass⟩
  occupied : site.count = site.occupied
  positive : 1 ≤ site.count
  capacity : site.count ≤ site.sizeClass.capacity

/-- One node holds another under the chunk that the other names, eight bits lower. -/
structure Holds (parent child : Site) : Prop where
  edge : child.edge.parent? = some parent.handle
  listed : (child.edge.chunk, child.handle) ∈ parent.children
  shift : Key.shift child.level + 8 = Key.shift parent.level

/-- The values in a node: only leaves have any. -/
def values (site : Site) : Nat :=
  if site.level = 0 then site.occupied else 0

end Site

namespace Subtree

variable {level : Nat} {node : Node (Subtree level)}

/-- The nodes of a subtree, parents first. -/
def sites : {level : Nat} -> Subtree level -> Anchor -> List Site
  | 0, (leaf : Node UInt64), edge =>
      [⟨leaf.named 0, edge, 0, leaf.sizeClass, leaf.count, leaf.entries.length, []⟩]
  | level + 1, (node : Node (Subtree level)), edge =>
      ⟨node.named (level + 1), edge, level + 1, node.sizeClass, node.count, node.entries.length,
          node.entries.map fun entry => (entry.chunk, entry.value.handle)⟩ ::
        node.entries.flatMap fun entry =>
          entry.value.sites ⟨some (node.named (level + 1)), entry.chunk⟩

/-- The top of a node of subtrees. -/
def site (node : Node (Subtree level)) (edge : Anchor) : Site :=
  ⟨node.named (level + 1), edge, level + 1, node.sizeClass, node.count, node.entries.length,
    node.bindings.map fun binding => (binding.1, binding.2.handle)⟩

theorem sites_node (node : Node (Subtree level)) (edge : Anchor) :
    (ofNode node).sites edge =
      site node edge :: node.bindings.flatMap fun binding =>
        binding.2.sites ⟨some (node.named (level + 1)), binding.1⟩ := by
  rw [site, Node.bindings, List.flatMap_map, List.map_map]
  rfl

theorem exists_top (subtree : Subtree level) (edge : Anchor) :
    ∃ top ∈ subtree.sites edge, top.handle = subtree.handle ∧ top.edge = edge ∧ top.level = level := by
  cases level with
  | zero => exact ⟨_, List.mem_singleton_self _, rfl, rfl, rfl⟩
  | succ level => exact ⟨_, List.mem_cons_self, rfl, rfl, rfl⟩

/-- The sites are the nodes that the pools are asked about. -/
theorem edges_eq (subtree : Subtree level) (edge : Anchor) :
    subtree.edges edge = (subtree.sites edge).map fun site => (site.handle, site.edge) := by
  induction subtree using byLevel generalizing edge with
  | leaf leaf => rfl
  | node node inductionHypothesis =>
      rw [edges_node, sites_node, List.map_cons, List.map_flatMap, edgesBelow]
      simp only [inductionHypothesis]
      rfl

theorem proper_of_mem {subtree : Subtree level} (sound : subtree.Sound) (edge : Anchor) :
    ∀ site ∈ subtree.sites edge, site.Proper := by
  induction subtree using byLevel generalizing edge with
  | leaf leaf =>
      rcases sound_leaf.mp sound with ⟨valid, occupied⟩
      intro site listed
      cases List.mem_singleton.mp listed
      exact ⟨rfl, valid.counted.symm, Node.count_pos occupied, Node.count_le_capacity valid⟩
  | node node inductionHypothesis =>
      rcases sound_node.mp sound with ⟨valid, occupied, children⟩
      intro site listed
      rw [sites_node] at listed
      rcases List.mem_cons.mp listed with rfl | below
      · exact ⟨rfl, valid.counted.symm, Node.count_pos occupied, Node.count_le_capacity valid⟩
      · rcases List.mem_flatMap.mp below with ⟨binding, member, inside⟩
        have held := (Node.mem_bindings_iff valid).mp member
        exact inductionHypothesis binding.2 (children _ _ held) _ site inside

/-- Whatever a node lists under a chunk is a node that it holds there. -/
theorem exists_child {subtree : Subtree level} (edge : Anchor) :
    ∀ site ∈ subtree.sites edge, ∀ entry ∈ site.children,
      ∃ child ∈ subtree.sites edge, (child.edge.chunk, child.handle) = entry ∧ site.Holds child := by
  induction subtree using byLevel generalizing edge with
  | leaf leaf =>
      intro site listed entry member
      cases List.mem_singleton.mp listed
      cases member
  | @node level node inductionHypothesis =>
      rw [sites_node]
      intro site listed entry member
      rcases List.mem_cons.mp listed with rfl | below
      · rcases List.mem_map.mp member with ⟨binding, held, rfl⟩
        rcases exists_top binding.2 ⟨some (node.named (level + 1)), binding.1⟩ with
          ⟨top, inside, name, led, lower⟩
        have same : (top.edge.chunk, top.handle) = (binding.1, binding.2.handle) := by
          rw [name, led]
        refine ⟨top, List.mem_cons_of_mem _ (List.mem_flatMap.mpr ⟨binding, held, inside⟩), same, ?_⟩
        refine ⟨by rw [led]; rfl, same ▸ member, ?_⟩
        rw [lower]
        rfl
      · rcases List.mem_flatMap.mp below with ⟨binding, held, inside⟩
        rcases inductionHypothesis binding.2 _ site inside entry member with
          ⟨child, childInside, same, holds⟩
        exact ⟨child, List.mem_cons_of_mem _ (List.mem_flatMap.mpr ⟨binding, held, childInside⟩),
          same, holds⟩

/-- Every node but the top is held by a node. -/
theorem exists_parent {subtree : Subtree level} (edge : Anchor) :
    ∀ site ∈ subtree.sites edge,
      (site.handle = subtree.handle ∧ site.edge = edge ∧ site.level = level) ∨
        ∃ parent ∈ subtree.sites edge, parent.Holds site := by
  induction subtree using byLevel generalizing edge with
  | leaf leaf =>
      intro site listed
      cases List.mem_singleton.mp listed
      exact Or.inl ⟨rfl, rfl, rfl⟩
  | @node level node inductionHypothesis =>
      rw [sites_node]
      intro site listed
      rcases List.mem_cons.mp listed with rfl | below
      · exact Or.inl ⟨rfl, rfl, rfl⟩
      · rcases List.mem_flatMap.mp below with ⟨binding, held, inside⟩
        apply Or.inr
        rcases inductionHypothesis binding.2 _ site inside with top | deeper
        · rcases top with ⟨name, led, lower⟩
          refine ⟨Subtree.site node edge, List.mem_cons_self, ?_, ?_, ?_⟩
          · rw [led]
            rfl
          · rw [name, led]
            exact List.mem_map_of_mem held
          · rw [lower]
            rfl
        · rcases deeper with ⟨parent, parentInside, holds⟩
          exact ⟨parent, List.mem_cons_of_mem _ (List.mem_flatMap.mpr ⟨binding, held, parentInside⟩),
            holds⟩

/-- The walk meets as many values as the leaves hold. -/
theorem length_bindings (subtree : Subtree level) (depth : Nat) (partialKey : Key) (edge : Anchor) :
    (subtree.bindings depth partialKey).length = ((subtree.sites edge).map Site.values).sum := by
  induction subtree using byLevel generalizing depth partialKey edge with
  | leaf leaf =>
      rw [bindings_leaf, List.length_map, Node.length_bindings]
      rfl
  | @node level node inductionHypothesis =>
      have top : (Subtree.site node edge).values = 0 := rfl
      rw [bindings_node, sites_node, List.length_flatMap, List.map_cons, List.sum_cons, top,
        Nat.zero_add, List.map_flatMap, List.flatMap, List.sum_flatten, List.map_map]
      exact congrArg List.sum (List.map_congr_left fun binding _ => inductionHypothesis binding.2 _ _ _)

end Subtree

namespace Tree

/-- The nodes that a walk from the root meets. -/
def sites (tree : Tree) : List Site :=
  tree.root?.elim [] fun root => root.top.sites Anchor.root

/-- What holds of the structure as a whole: the nodes below the root, and the pools. -/
structure WellFormed (tree : Tree) : Prop where
  /-- Without a root there is nothing. -/
  rootless : tree.root? = none ->
    tree.size = 0 ∧ tree.ceiling = 0 ∧ forall pool, tree.pools.liveNodes pool = 0
  /-- The root is held by no node, and its shift says what the largest key is. -/
  rooted : ∀ root ∈ tree.root?, tree.pools.anchor? root.top.handle = some Anchor.root ∧
    8 ∣ Key.shift root.level ∧ Key.shift root.level ≤ 56 ∧ tree.ceiling = Key.bound root.level
  /-- Every node is a node of its pool, and its count is right. -/
  proper : ∀ site ∈ tree.sites, site.Proper
  /-- Leaves are the nodes with no bits below them. -/
  leaves : ∀ site ∈ tree.sites, site.handle.pool.family = .leaf ↔ Key.shift site.level = 0
  /-- The edge that leads to a node is the one on record. -/
  recorded : ∀ site ∈ tree.sites, tree.pools.anchor? site.handle = some site.edge
  /-- What a node lists is there, and is one level lower. -/
  children : ∀ site ∈ tree.sites, ∀ entry ∈ site.children,
    ∃ child ∈ tree.sites, (child.edge.chunk, child.handle) = entry ∧ site.Holds child
  /-- Every node but the root is listed by the parent on record. -/
  parents : ∀ site ∈ tree.sites, (∃ root ∈ tree.root?, site.handle = root.top.handle) ∨
    ∃ parent ∈ tree.sites, parent.Holds site
  /-- No node is met twice. -/
  distinct : (tree.sites.map Site.handle).Nodup
  /-- The nodes in use are the ones that are met. -/
  complete : forall handle,
    (tree.pools.anchor? handle).isSome = true ↔ handle ∈ tree.sites.map Site.handle
  /-- The pools count the nodes that are met. -/
  live : forall pool, tree.pools.liveNodes pool =
    (tree.sites.map Site.handle).countP fun handle => handle.pool = pool
  /-- The tree counts the values that are met. -/
  counted : tree.size = (tree.sites.map Site.values).sum

variable {tree : Tree}

private theorem edges_eq_sites (tree : Tree) :
    tree.edges = tree.sites.map fun site => (site.handle, site.edge) := by
  rw [edges, sites]
  cases tree.root? with
  | none => rfl
  | some root => exact root.top.edges_eq Anchor.root

private theorem handles_eq (tree : Tree) :
    tree.edges.map Prod.fst = tree.sites.map Site.handle := by
  rw [edges_eq_sites, List.map_map]
  rfl

/-- Whoever meets a site meets it below the root. -/
private theorem exists_of_mem_sites {site : Site} (listed : site ∈ tree.sites) :
    ∃ root, tree.root? = some root ∧ tree.sites = root.top.sites Anchor.root := by
  rw [sites] at listed ⊢
  cases held : tree.root? with
  | none =>
      rw [held] at listed
      cases listed
  | some root => exact ⟨root, rfl, rfl⟩

private theorem recorded_of_sound (sound : tree.Sound) :
    ∀ site ∈ tree.sites, tree.pools.anchor? site.handle = some site.edge := by
  intro site listed
  apply sound.inventory.mem_iff.mp
  rw [edges_eq_sites]
  exact List.mem_map_of_mem listed

private theorem proper_of_sound (sound : tree.Sound) : ∀ site ∈ tree.sites, site.Proper := by
  intro site listed
  rcases exists_of_mem_sites listed with ⟨root, held, below⟩
  rw [below] at listed
  exact Subtree.proper_of_mem (sound.sound root held).top Anchor.root site listed

private theorem size_eq_sum_values (sound : tree.Sound) :
    tree.size = (tree.sites.map Site.values).sum := by
  rw [sound.counted, sites]
  cases held : tree.root? with
  | none =>
      rw [toList_of_none held]
      rfl
  | some root =>
      rw [toList_of_root held]
      exact Subtree.length_bindings root.top 0 0 Anchor.root

private theorem empty_of_rootless (sound : tree.Sound) (held : tree.root? = none) :
    tree.size = 0 ∧ tree.ceiling = 0 ∧ forall pool, tree.pools.liveNodes pool = 0 := by
  have ceiling := sound.ceiling
  rw [held] at ceiling
  refine ⟨?_, ceiling, ?_⟩
  · rw [sound.counted, toList_of_none held]
    rfl
  · intro pool
    rw [sound.inventory.liveNodes_eq, edges, held]
    rfl

private theorem rooted_of_sound (sound : tree.Sound) {root : Root} (held : tree.root? = some root) :
    tree.pools.anchor? root.top.handle = some Anchor.root ∧ 8 ∣ Key.shift root.level ∧
      Key.shift root.level ≤ 56 ∧ tree.ceiling = Key.bound root.level := by
  refine ⟨?_, Nat.dvd_mul_right 8 root.level, ?_, ceiling_of_root sound.toRooted held⟩
  · apply sound.inventory.mem_iff.mp
    rw [edges, held, Option.elim_some, Subtree.edges_eq_cons]
    exact List.mem_cons_self
  · exact Nat.mul_le_mul_left 8 (sound.sound root held).low

/-- The invariant of trees has all of this in it. -/
theorem Sound.wellFormed (sound : tree.Sound) : tree.WellFormed where
  rootless := empty_of_rootless sound
  rooted _ held := rooted_of_sound sound held
  proper := proper_of_sound sound
  leaves := by
    intro site listed
    rw [(proper_of_sound sound site listed).housed]
    cases site.level with
    | zero => simp [Family.ofLevel, Key.shift]
    | succ level => simp [Family.ofLevel, Key.shift, Key.chunkBits]
  recorded := recorded_of_sound sound
  children := by
    intro site listed
    rcases exists_of_mem_sites listed with ⟨root, _, below⟩
    rw [below] at listed ⊢
    exact Subtree.exists_child Anchor.root site listed
  parents := by
    intro site listed
    rcases exists_of_mem_sites listed with ⟨root, held, below⟩
    rw [below] at listed ⊢
    rcases Subtree.exists_parent Anchor.root site listed with top | parent
    · exact Or.inl ⟨root, held, top.1⟩
    · exact Or.inr parent
  distinct := handles_eq tree ▸ sound.inventory.distinct
  complete := by
    intro handle
    rw [← handles_eq, Option.isSome_iff_exists, List.mem_map]
    constructor
    · intro used
      rcases used with ⟨anchor, found⟩
      exact ⟨(handle, anchor), sound.inventory.mem_iff.mpr found, rfl⟩
    · intro met
      rcases met with ⟨⟨_, anchor⟩, listed, rfl⟩
      exact ⟨anchor, sound.inventory.mem_iff.mp listed⟩
  live := by
    intro pool
    rw [← handles_eq]
    exact sound.inventory.liveNodes_eq pool
  counted := size_eq_sum_values sound

/-- Whatever is asked of a new tree, granted or refused, its structure is well formed. -/
theorem wellFormed_after (limit? : Option Nat) (requests : List Request) :
    ((empty limit?).after requests).WellFormed :=
  (sound_after (sound_empty limit?) requests).wellFormed

end Tree
end AdaptiveRadix
