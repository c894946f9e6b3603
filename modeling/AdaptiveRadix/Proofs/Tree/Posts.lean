import AdaptiveRadix.Proofs.Tree.Canonical

namespace AdaptiveRadix

/-!
# Posts

A node can be followed through the life of a tree by its place: its level, and what its keys
have above it, which the chunks on its path fix.  Handles will not do, since a node gets
another one when it moves to a larger class.

A post is a node at its place.  The walk meets the posts of a tree one after the other; a
search for a key passes one on each level, as far as it gets.  Both find the same posts, and
no two are at the same place.
-/

/-- A node at its place. -/
structure Post where
  level : Nat
  stem : Nat
  handle : Handle
  count : Nat
deriving DecidableEq, Repr

namespace Post

def sizeClass (post : Post) : SizeClass :=
  post.handle.pool.sizeClass

end Post

namespace Visit

/-- The post of a visited node. -/
def post? : Visit -> Option Post
  | node _ handle level count partialKey =>
      some ⟨level, partialKey.above (level + 1), handle, count⟩
  | _ => none

end Visit

namespace Node

variable {α : Type}

/-- The node as a post, on the path of a key. -/
def post (node : Node α) (level : Nat) (key : Key) : Post :=
  ⟨level, key.above (level + 1), node.named level, node.count⟩

theorem post_congr (node : Node α) {level : Nat} {key other : Key}
    (same : key.above (level + 1) = other.above (level + 1)) :
    node.post level key = node.post level other := by
  rw [post, same]
  rfl

end Node

namespace Subtree

variable {level floor depth : Nat} {leaf : Node UInt64} {node : Node (Subtree level)}
  {subtree : Subtree level} {key other partialKey : Key} {post : Post}

/-- The post that a search for the key passes at a level. -/
def post? : {level : Nat} -> Subtree level -> Key -> (floor : Nat) -> Option Post
  | 0, (leaf : Node UInt64), key, floor => if floor = 0 then some (leaf.post 0 key) else none
  | level + 1, (node : Node (Subtree level)), key, floor =>
      if floor = level + 1 then some (node.post (level + 1) key)
      else
        match node.get? (key.chunk (level + 1)) with
        | some child => child.post? key floor
        | none => none

/-- The posts that the walk through a subtree meets. -/
def posts (subtree : Subtree level) (depth : Nat) (partialKey : Key) : List Post :=
  (subtree.visits depth partialKey).filterMap Visit.post?

theorem posts_leaf (leaf : Node UInt64) (depth : Nat) (partialKey : Key) :
    (ofLeaf leaf).posts depth partialKey = [leaf.post 0 partialKey] := by
  have values : leaf.entries.filterMap (fun _ => (none : Option Post)) = [] :=
    List.filterMap_eq_nil_iff.mpr fun _ _ => rfl
  refine congrArg (leaf.post 0 partialKey :: ·) ?_
  rw [List.filterMap_map]
  exact values

theorem posts_node (node : Node (Subtree level)) (depth : Nat) (partialKey : Key) :
    (ofNode node).posts depth partialKey =
      node.post (level + 1) partialKey :: node.bindings.flatMap fun binding =>
        binding.2.posts (depth + 1) (partialKey.extend binding.1 (level + 1)) := by
  refine congrArg (node.post (level + 1) partialKey :: ·) ?_
  rw [List.filterMap_flatMap, Node.bindings, List.flatMap_map]
  rfl

/-- The walk meets the nodes that the pools have on record. -/
theorem handles_posts (subtree : Subtree level) (depth : Nat) (partialKey : Key) (anchor : Anchor) :
    (subtree.posts depth partialKey).map Post.handle = (subtree.edges anchor).map Prod.fst := by
  induction subtree using byLevel generalizing depth partialKey anchor with
  | leaf leaf =>
      rw [posts_leaf]
      rfl
  | @node level node inductionHypothesis =>
      rw [posts_node, edges_node, List.map_cons, List.map_cons, List.map_flatMap, edgesBelow,
        List.map_flatMap]
      refine congrArg (node.named (level + 1) :: ·) ?_
      exact congrArg (node.bindings.flatMap ·)
        (funext fun binding => inductionHypothesis binding.2 _ _ _)

theorem exists_top_post (subtree : Subtree level) (depth : Nat) (partialKey : Key) :
    ∃ post ∈ subtree.posts depth partialKey, post.handle = subtree.handle ∧ post.level = level := by
  cases level with
  | zero => exact ⟨_, List.mem_cons_self, rfl, rfl⟩
  | succ level => exact ⟨_, List.mem_cons_self, rfl, rfl⟩

/-! ## What a search passes -/

theorem post?_leaf (leaf : Node UInt64) (key : Key) (floor : Nat) :
    (ofLeaf leaf).post? key floor = if floor = 0 then some (leaf.post 0 key) else none :=
  rfl

theorem post?_top (node : Node (Subtree level)) (key : Key) :
    (ofNode node).post? key (level + 1) = some (node.post (level + 1) key) :=
  if_pos rfl

theorem post?_below (different : floor ≠ level + 1) (node : Node (Subtree level)) (key : Key) :
    (ofNode node).post? key floor =
      (node.get? (key.chunk (level + 1))).bind fun child => child.post? key floor := by
  rw [ofNode, post?, if_neg different]
  cases node.get? (key.chunk (level + 1)) <;> rfl

/-- A post that a search passes is at the place that the search has come to. -/
theorem place_of_post? (found : subtree.post? key floor = some post) :
    post.level = floor ∧ post.stem = key.above (floor + 1) ∧ floor ≤ level := by
  induction subtree using byLevel with
  | leaf leaf =>
      rcases Option.ite_none_right_eq_some.mp found with ⟨rfl, same⟩
      cases Option.some.inj same
      exact ⟨rfl, rfl, Nat.le_refl 0⟩
  | @node level node inductionHypothesis =>
      by_cases top : floor = level + 1
      · subst floor
        rw [post?_top] at found
        cases Option.some.inj found
        exact ⟨rfl, rfl, Nat.le_refl _⟩
      · rw [post?_below top] at found
        rcases Option.bind_eq_some_iff.mp found with ⟨child, _, below⟩
        rcases inductionHypothesis child below with ⟨here, stem, lower⟩
        exact ⟨here, stem, Nat.le_succ_of_le lower⟩

theorem post?_of_lt (above : level < floor) (subtree : Subtree level) (key : Key) :
    subtree.post? key floor = none := by
  cases found : subtree.post? key floor with
  | none => rfl
  | some post => exact absurd (place_of_post? found).2.2 (Nat.not_le.mpr above)

/-- Keys that agree above a level pass the same post there. -/
theorem post?_congr (subtree : Subtree level)
    (same : key.above (floor + 1) = other.above (floor + 1)) :
    subtree.post? key floor = subtree.post? other floor := by
  induction subtree using byLevel with
  | leaf leaf =>
      rw [post?_leaf, post?_leaf]
      by_cases top : floor = 0
      · subst floor
        rw [leaf.post_congr same]
      · rw [if_neg top, if_neg top]
  | @node level node inductionHypothesis =>
      rcases Nat.lt_trichotomy floor (level + 1) with lower | rfl | higher
      · rw [post?_below lower.ne, post?_below lower.ne, Key.chunk_eq_of_above_eq lower same]
        exact Option.bind_congr fun child _ => inductionHypothesis child
      · rw [post?_top, post?_top, node.post_congr same]
      · rw [post?_of_lt higher, post?_of_lt higher]

/-- A key that is present has a post on every level. -/
theorem exists_post? {value : UInt64} (found : subtree.get? key = some value) (lower : floor ≤ level) :
    ∃ post, subtree.post? key floor = some post := by
  induction subtree using byLevel with
  | leaf leaf => exact ⟨_, if_pos (Nat.le_zero.mp lower)⟩
  | @node level node inductionHypothesis =>
      by_cases top : floor = level + 1
      · subst floor
        exact ⟨_, post?_top node key⟩
      · rw [get?_node] at found
        rcases Option.bind_eq_some_iff.mp found with ⟨child, held, below⟩
        rcases inductionHypothesis child below (by omega) with ⟨post, passed⟩
        refine ⟨post, ?_⟩
        rw [post?_below top, held, Option.bind_some, passed]

/-- The walk meets the posts that searches pass, for keys under its partial key. -/
theorem mem_posts_iff (sound : subtree.Sound) (low : level ≤ Key.maxLevel)
    (aligned : partialKey.Aligned (level + 1)) :
    post ∈ subtree.posts depth partialKey ↔
      ∃ key : Key, key.above (level + 1) = partialKey.above (level + 1) ∧
        subtree.post? key post.level = some post := by
  induction subtree using byLevel generalizing depth partialKey with
  | leaf leaf =>
      rw [posts_leaf, List.mem_singleton]
      constructor
      · intro same
        exact ⟨partialKey, rfl, same ▸ if_pos rfl⟩
      · intro searched
        rcases searched with ⟨key, same, found⟩
        rcases Option.ite_none_right_eq_some.mp found with ⟨_, passed⟩
        exact (Option.some.inj passed).symm.trans (leaf.post_congr same)
  | @node level node inductionHypothesis =>
      rcases sound_node.mp sound with ⟨valid, _, children⟩
      have below : forall binding, binding ∈ node.bindings ->
          (post ∈ binding.2.posts (depth + 1) (partialKey.extend binding.1 (level + 1)) ↔
            ∃ key : Key, key.above (level + 1) =
                (partialKey.extend binding.1 (level + 1)).above (level + 1) ∧
              binding.2.post? key post.level = some post) := by
        intro binding listed
        exact inductionHypothesis binding.2
          (children _ _ ((Node.mem_bindings_iff valid).mp listed)) (Nat.le_of_succ_le low)
          (Key.aligned_extend low aligned binding.1)
      rw [posts_node, List.mem_cons, List.mem_flatMap]
      constructor
      · intro member
        rcases member with rfl | ⟨binding, listed, met⟩
        · exact ⟨partialKey, rfl, post?_top node partialKey⟩
        · rcases (below binding listed).mp met with ⟨key, same, found⟩
          rcases (Key.above_eq_extend_iff low aligned).mp same with ⟨higher, chunk⟩
          refine ⟨key, higher, ?_⟩
          rw [post?_below (Nat.lt_succ_of_le (place_of_post? found).2.2).ne, chunk,
            (Node.mem_bindings_iff valid).mp listed, Option.bind_some, found]
      · intro searched
        rcases searched with ⟨key, higher, found⟩
        by_cases top : post.level = level + 1
        · rw [top, post?_top] at found
          rw [← Option.some.inj found]
          exact Or.inl (node.post_congr higher)
        · rw [post?_below top] at found
          rcases Option.bind_eq_some_iff.mp found with ⟨child, held, passed⟩
          have listed := (Node.mem_bindings_iff valid).mpr held
          refine Or.inr ⟨_, listed, (below _ listed).mpr ⟨key, ?_, passed⟩⟩
          exact (Key.above_eq_extend_iff low aligned).mpr ⟨higher, rfl⟩

end Subtree

namespace Tree

variable {tree : Tree} {root : Root} {key other : Key} {floor : Nat} {post : Post}

/-- The posts that the walk meets. -/
def posts (tree : Tree) : List Post :=
  tree.visits.filterMap Visit.post?

/-- The post that a search for the key passes at a level. -/
def post? (tree : Tree) (key : Key) (floor : Nat) : Option Post :=
  tree.root?.bind fun root =>
    if key ≤ Key.bound root.level then root.top.post? key floor else none

/-- The node at a place. -/
def postAt? (tree : Tree) (level stem : Nat) : Option Post :=
  tree.posts.find? fun post => decide (post.level = level ∧ post.stem = stem)

theorem posts_of_root (held : tree.root? = some root) : tree.posts = root.top.posts 0 0 := by
  rw [posts, visits, held]
  rfl

theorem posts_of_none (held : tree.root? = none) : tree.posts = [] := by
  rw [posts, visits, held]
  rfl

theorem post?_of_root (held : tree.root? = some root) (key : Key) (floor : Nat) :
    tree.post? key floor =
      if key ≤ Key.bound root.level then root.top.post? key floor else none := by
  rw [post?, held, Option.bind_some]

theorem post?_of_none (held : tree.root? = none) (key : Key) (floor : Nat) :
    tree.post? key floor = none := by
  rw [post?, held, Option.bind_none]

/-- The nodes in use are the posts, each once. -/
theorem handles_posts (tree : Tree) : tree.posts.map Post.handle = tree.edges.map Prod.fst := by
  cases held : tree.root? with
  | none =>
      rw [posts_of_none held, edges, held]
      rfl
  | some root =>
      rw [posts_of_root held, edges, held]
      exact root.top.handles_posts 0 0 Anchor.root

theorem mem_handles_iff (sound : tree.Sound) {handle : Handle} :
    handle ∈ tree.posts.map Post.handle ↔ (tree.pools.anchor? handle).isSome = true := by
  rw [handles_posts, List.mem_map, Option.isSome_iff_exists]
  constructor
  · intro listed
    rcases listed with ⟨⟨_, anchor⟩, member, rfl⟩
    exact ⟨anchor, sound.inventory.mem_iff.mp member⟩
  · intro used
    rcases used with ⟨anchor, found⟩
    exact ⟨(handle, anchor), sound.inventory.mem_iff.mpr found, rfl⟩

theorem nodup_posts (sound : tree.Sound) : tree.posts.Nodup := by
  have distinct := sound.inventory.distinct
  rw [← handles_posts] at distinct
  exact distinct.of_map Post.handle

theorem place_of_post? (found : tree.post? key floor = some post) :
    post.level = floor ∧ post.stem = key.above (floor + 1) := by
  rcases Option.bind_eq_some_iff.mp found with ⟨root, _, below⟩
  rcases Option.ite_none_right_eq_some.mp below with ⟨_, passed⟩
  rcases Subtree.place_of_post? passed with ⟨level, stem, _⟩
  exact ⟨level, stem⟩

theorem post?_congr (rooted : tree.Rooted) (same : key.above (floor + 1) = other.above (floor + 1)) :
    tree.post? key floor = tree.post? other floor := by
  cases held : tree.root? with
  | none => rw [post?_of_none held, post?_of_none held]
  | some root =>
      have low := (rooted.sound root held).low
      rw [post?_of_root held, post?_of_root held, root.top.post?_congr same]
      by_cases lower : floor ≤ root.level
      · have higher := Key.above_eq_of_le (Nat.succ_le_succ lower) same
        simp only [Key.le_bound_iff_above low, higher]
      · rw [Subtree.post?_of_lt (Nat.not_le.mp lower), ite_self, ite_self]

theorem mem_posts_iff (rooted : tree.Rooted) :
    post ∈ tree.posts ↔ ∃ key, tree.post? key post.level = some post := by
  cases held : tree.root? with
  | none =>
      rw [posts_of_none held]
      simp only [post?_of_none held, List.not_mem_nil, reduceCtorEq, exists_false]
  | some root =>
      rcases rooted.sound root held with ⟨low, top⟩
      rw [posts_of_root held, Subtree.mem_posts_iff top low (Key.aligned_zero _)]
      simp only [post?_of_root held, Option.ite_none_right_eq_some, Key.le_bound_iff_above low]

/-- No two nodes are at the same place. -/
theorem eq_of_place (rooted : tree.Rooted) {first second : Post} (met : first ∈ tree.posts)
    (metToo : second ∈ tree.posts) (level : first.level = second.level)
    (stem : first.stem = second.stem) : first = second := by
  rcases (mem_posts_iff rooted).mp met with ⟨key, found⟩
  rcases (mem_posts_iff rooted).mp metToo with ⟨other, foundToo⟩
  have same : key.above (second.level + 1) = other.above (second.level + 1) := by
    rw [← (place_of_post? foundToo).2, ← stem, (place_of_post? found).2, level]
  rw [level, post?_congr rooted same, foundToo] at found
  exact (Option.some.inj found).symm

theorem postAt?_eq_some_iff (rooted : tree.Rooted) {level stem : Nat} :
    tree.postAt? level stem = some post ↔
      post ∈ tree.posts ∧ post.level = level ∧ post.stem = stem := by
  constructor
  · intro found
    rw [postAt?] at found
    have place := List.find?_some found
    exact ⟨List.mem_of_find?_eq_some found, of_decide_eq_true place⟩
  · intro place
    rcases place with ⟨met, rfl, rfl⟩
    rw [postAt?]
    cases found : tree.posts.find? fun other =>
        decide (other.level = post.level ∧ other.stem = post.stem) with
    | none =>
        have missed := List.find?_eq_none.mp found post met
        exact absurd (decide_eq_true ⟨rfl, rfl⟩) missed
    | some other =>
        have place := List.find?_some found
        rcases of_decide_eq_true place with ⟨level, stem⟩
        exact congrArg some (eq_of_place rooted (List.mem_of_find?_eq_some found) met level stem)

/-- A search passes the node at the place that it has come to. -/
theorem post?_eq_postAt? (rooted : tree.Rooted) (key : Key) (floor : Nat) :
    tree.post? key floor = tree.postAt? floor (key.above (floor + 1)) := by
  apply Option.ext
  intro post
  rw [postAt?_eq_some_iff rooted]
  constructor
  · intro found
    rcases place_of_post? found with ⟨rfl, stem⟩
    exact ⟨(mem_posts_iff rooted).mpr ⟨key, found⟩, rfl, stem⟩
  · intro place
    rcases place with ⟨met, rfl, stem⟩
    rcases (mem_posts_iff rooted).mp met with ⟨other, found⟩
    rw [← found]
    exact post?_congr rooted (stem.symm.trans (place_of_post? found).2)

end Tree
end AdaptiveRadix
