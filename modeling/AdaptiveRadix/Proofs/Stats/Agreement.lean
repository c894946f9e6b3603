import AdaptiveRadix.Proofs.Stats.Ratio
import AdaptiveRadix.Proofs.Tree.Accounts
import AdaptiveRadix.Proofs.Tree.Census

namespace AdaptiveRadix

/-!
# The two accounts of the statistics

The pools count a node when they hand it out and when they take it back; a node that grows
leaves the count of one pool and joins that of the next.  The levels come from a walk, long
after.  Both are accounts of the same nodes, so they have the same sums.

The walk has its own sums besides: every entry of an inner node is a node on the next level,
and every entry of a leaf is a key.  No sum is large: a level has at most one node for each
stem that keys can have above it, so its slots are at most as many as there are keys.
-/

/-- A sum over the pools is no larger than another with no smaller terms. -/
theorem PoolId.total_le_total {first second : PoolId -> Nat} (each : forall pool, first pool ≤ second pool) :
    total first ≤ total second := by
  rw [total, total]
  induction all.toList with
  | nil => exact Nat.le_refl 0
  | cons pool rest inductionHypothesis => exact Nat.add_le_add (each pool) inductionHypothesis

namespace LevelTally

theorem depth_tallied (depth : Nat) (family : Family) (posts : List Post) :
    (tallied depth family posts).depth = depth :=
  (depth_foldl_counted posts (empty depth family)).1

theorem family_tallied (depth : Nat) (family : Family) (posts : List Post) :
    (tallied depth family posts).family = family :=
  (depth_foldl_counted posts (empty depth family)).2

theorem nodes_tallied (depth : Nat) (family : Family) (posts : List Post) (sizeClass : SizeClass) :
    ((tallied depth family posts).tally sizeClass).nodes =
      posts.countP fun post => post.sizeClass = sizeClass := by
  rw [(additive_nodes sizeClass).tallied]
  simp [List.sum_map_ite, List.countP_eq_length_filter]

/-- A level of nodes that have entries and no more than fit is neither bare nor overfull. -/
structure Filled (level : LevelTally) : Prop where
  positive : 0 < level.population
  least : level.population ≤ level.used
  most : level.used ≤ level.slots
  /-- What the level makes of its slots, as a quotient and as the double that is shown. -/
  load : 0 < (level.used : ℚ) / level.slots ∧ (level.used : ℚ) / level.slots ≤ 1
  loadFactor : 0 < level.loadFactor ∧ level.loadFactor ≤ 1

theorem slots_tallied_le {posts : List Post} (few : posts.length ≤ 2 ^ 56) (depth : Nat)
    (family : Family) : (tallied depth family posts).slots ≤ 2 ^ 64 := by
  have each : ∀ capacity ∈ posts.map (fun post => post.sizeClass.capacity), capacity ≤ 256 := by
    intro capacity listed
    rcases List.mem_map.mp listed with ⟨post, _, rfl⟩
    cases post.sizeClass <;> decide
  have most := List.sum_le_card_nsmul _ 256 each
  rw [List.length_map, smul_eq_mul] at most
  rw [additive_slots.tallied]
  exact most.trans (by omega)

theorem filled_tallied {posts : List Post} (nonempty : posts ≠ []) (few : posts.length ≤ 2 ^ 56)
    (fit : ∀ post ∈ posts, post.Fit) (depth : Nat) (family : Family) :
    (tallied depth family posts).Filled := by
  have population := additive_population.tallied depth family posts
  have used := additive_used.tallied depth family posts
  have slots := additive_slots.tallied depth family posts
  rw [List.map_const', List.sum_replicate, smul_eq_mul, Nat.mul_one] at population
  have positive : 0 < (tallied depth family posts).population :=
    population ▸ List.length_pos_of_ne_nil nonempty
  have least : (tallied depth family posts).population ≤ (tallied depth family posts).used := by
    rw [population, used]
    have each := List.card_nsmul_le_sum (posts.map Post.count) 1 fun count listed => by
      rcases List.mem_map.mp listed with ⟨post, met, rfl⟩
      exact (fit post met).positive
    rwa [List.length_map, smul_eq_mul, Nat.mul_one] at each
  have most : (tallied depth family posts).used ≤ (tallied depth family posts).slots := by
    rw [used, slots]
    exact List.sum_le_sum fun post met => (fit post met).room
  have occupied : (0 : ℚ) < (tallied depth family posts).used :=
    Nat.cast_pos.mpr (positive.trans_le least)
  have room : (0 : ℚ) < (tallied depth family posts).slots :=
    Nat.cast_pos.mpr ((positive.trans_le least).trans_le most)
  have load := And.intro (div_pos occupied room) ((div_le_one room).mpr (Nat.cast_le.mpr most))
  exact ⟨positive, least, most, load,
    ratio_pos_le_one (positive.trans_le least) most (slots_tallied_le few depth family)⟩

end LevelTally

namespace Stats

/-- The bytes by family are the bytes by pool. -/
theorem liveBytes_eq (tree : Tree) : tree.stats.liveBytes = tree.liveBytes := by
  simp only [liveBytes, familyBytes, Tree.stats, PerPool.get_tabulate, Tree.liveBytes,
    Pools.liveBytes, PoolId.total, PoolId.all, SizeClass.total, SizeClass.all, List.foldr]
  simp only [Vector.toList, List.foldr]
  omega

end Stats

namespace Tree

variable {tree : Tree} {root : Root}

theorem levels_of_none (held : tree.root? = none) : tree.stats.levels = [] := by
  rw [stats, visits, held]
  rfl

theorem levels_of_root (rooted : tree.Rooted) (held : tree.root? = some root) :
    tree.stats.levels = (List.range (root.level + 1)).map fun depth =>
      LevelTally.tallied depth (Family.ofLevel (root.level - depth))
        (tree.postsOn (root.level - depth)) := by
  apply List.ext_getElem?
  intro depth
  rw [List.getElem?_map]
  by_cases inside : depth < root.level + 1
  · rw [levels_eq_tallied rooted held (Nat.le_of_lt_succ inside), List.getElem?_range inside]
    rfl
  · have short : tree.stats.levels.length ≤ depth := by
      rw [length_levels rooted, height_of_root held]
      exact Nat.not_lt.mp inside
    rw [List.getElem?_eq_none short, List.getElem?_eq_none (by simpa using inside)]
    rfl

theorem fit_of_mem_posts (rooted : tree.Rooted) {post : Post} (met : post ∈ tree.posts) : post.Fit := by
  cases held : tree.root? with
  | none =>
      rw [posts_of_none held] at met
      cases met
  | some root =>
      rw [posts_of_root held] at met
      exact Subtree.fit_of_mem_posts (rooted.sound root held).top met

/-- The nodes level by level are the nodes. -/
theorem perm_postsOn (sound : tree.Sound) (held : tree.root? = some root) :
    ((List.range (root.level + 1)).flatMap fun depth => tree.postsOn (root.level - depth)).Perm
      tree.posts := by
  have distinct := nodup_posts sound
  apply (List.perm_ext_iff_of_nodup _ distinct).mpr
  · intro post
    simp only [List.mem_flatMap, List.mem_range, mem_postsOn_iff]
    constructor
    · intro placed
      rcases placed with ⟨_, _, met, _⟩
      exact met
    · intro met
      have low := level_le sound.toRooted held met
      exact ⟨root.level - post.level, by omega, met, by omega⟩
  · apply List.nodup_flatMap.mpr
    refine ⟨fun depth _ => distinct.filter _, ?_⟩
    apply List.nodup_range.pairwise_of_forall_ne
    intro first listed second listedToo different post met metToo
    have level := (mem_postsOn_iff.mp met).2
    have levelToo := (mem_postsOn_iff.mp metToo).2
    have low := List.mem_range.mp listed
    have lowToo := List.mem_range.mp listedToo
    omega

/-- The nodes of a pool are the nodes of its class on the levels of its family. -/
theorem liveNodes_eq_sum (sound : tree.Sound) (family : Family) (sizeClass : SizeClass) :
    tree.pools.liveNodes ⟨family, sizeClass⟩ =
      ((tree.stats.levels.filter fun level => level.family = family).map fun level =>
        (level.tally sizeClass).nodes).sum := by
  rw [sound.inventory.liveNodes_eq, ← handles_posts, List.countP_map]
  cases held : tree.root? with
  | none =>
      rw [posts_of_none held, levels_of_none held]
      rfl
  | some root =>
      have selected : ((tree.stats.levels.filter fun level => level.family = family).map fun level =>
          (level.tally sizeClass).nodes).sum = (tree.stats.levels.map fun level =>
            if level.family = family then (level.tally sizeClass).nodes else 0).sum := by
        simp [List.sum_map_ite]
      rw [← (perm_postsOn sound held).countP_eq, List.countP_flatMap, selected,
        levels_of_root sound.toRooted held, List.map_map]
      apply congrArg List.sum
      apply List.map_congr_left
      intro depth _
      simp only [Function.comp_apply, LevelTally.family_tallied, LevelTally.nodes_tallied]
      have housed : ∀ post ∈ tree.postsOn (root.level - depth),
          post.handle.pool.family = Family.ofLevel (root.level - depth) := by
        intro post placed
        rcases mem_postsOn_iff.mp placed with ⟨met, level⟩
        exact level ▸ (fit_of_mem_posts sound.toRooted met).family
      split
      · rename_i same
        apply List.countP_congr
        intro post placed
        simp only [Function.comp_apply, decide_eq_true_eq]
        have family := (housed post placed).trans same
        constructor
        · intro pool
          exact congrArg PoolId.sizeClass pool
        · intro sizeClass
          rw [← family, ← sizeClass]
          rfl
      · rename_i different
        apply List.countP_eq_zero.mpr
        intro post placed
        simp only [Function.comp_apply, decide_eq_true_eq]
        intro pool
        exact different ((housed post placed).symm.trans (congrArg PoolId.family pool))

/-- The level below holds as many nodes as the entries of a level call for. -/
theorem used_eq_population (sound : tree.Sound) (held : tree.root? = some root) {depth : Nat}
    (inner : depth < root.level) {upper lower : LevelTally}
    (here : tree.stats.levels[depth]? = some upper)
    (below : tree.stats.levels[depth + 1]? = some lower) : upper.used = lower.population := by
  have census := sound.census held
  rcases census.tallies depth inner.le with ⟨first, found, _, used⟩
  rcases census.tallies (depth + 1) inner with ⟨second, foundToo, population, _⟩
  have step : root.level - (depth + 1) + 1 = root.level - depth := by omega
  rw [step] at population
  cases Option.some.inj (here.symm.trans found)
  cases Option.some.inj (below.symm.trans foundToo)
  rw [used, population]

theorem card_keys (sound : tree.Sound) : tree.keys.card = tree.size := by
  rw [keys, List.toFinset_card_of_nodup (listing sound.toRooted).nodup_keys, List.length_map,
    sound.counted]

/-- Every entry of a leaf is a key. -/
theorem used_eq_size (sound : tree.Sound) (held : tree.root? = some root) {level : LevelTally}
    (last : tree.stats.levels[root.level]? = some level) : level.used = tree.size := by
  rcases (sound.census held).tallies root.level (Nat.le_refl _) with ⟨bottom, found, _, used⟩
  cases Option.some.inj (last.symm.trans found)
  have whole : Function.Injective fun key : Key => key.above 0 := by
    intro first second same
    simp only [Key.above_zero] at same
    exact UInt64.toNat_inj.mp same
  rw [used, Nat.sub_self, stems, Finset.card_image_of_injective _ whole, card_keys sound]

/-- What the two sources of the statistics, and the levels among themselves, agree on. -/
structure Agreed (tree : Tree) : Prop where
  /-- The nodes that the pools count are those that the walk counts on the levels of the family. -/
  nodes : forall family sizeClass, tree.stats.nodes.get ⟨family, sizeClass⟩ =
    ((tree.stats.levels.filter fun level => level.family = family).map fun level =>
      (level.tally sizeClass).nodes).sum
  /-- One level for each depth of the tree, in order; the last is that of the leaves. -/
  depths : tree.stats.levels.map LevelTally.depth = List.range tree.height
  families : ∀ level ∈ tree.stats.levels,
    level.family = if level.depth + 1 = tree.height then .leaf else .inner
  /-- The root is alone; the entries of a level are the nodes of the next. -/
  topmost : ∀ level ∈ tree.stats.levels[0]?, level.population = 1
  below : forall depth, ∀ upper ∈ tree.stats.levels[depth]?,
    ∀ lower ∈ tree.stats.levels[depth + 1]?, upper.used = lower.population
  /-- The entries of the leaves are the keys. -/
  bottom : ∀ level ∈ tree.stats.levels.getLast?, level.used = tree.stats.entries
  entries : tree.stats.entries = tree.size ∧ tree.size = tree.toList.length
  filled : ∀ level ∈ tree.stats.levels, level.Filled
  bytes : tree.stats.liveBytes = tree.liveBytes ∧ tree.stats.liveBytes ≤ tree.stats.allocatedBytes

theorem postsOn_ne_nil (sound : tree.Sound) (held : tree.root? = some root) {level : Nat}
    (lower : level ≤ root.level) : tree.postsOn level ≠ [] := by
  have occupied : 0 < tree.keys.card := by
    rw [card_keys sound, sound.counted, toList_of_root held]
    exact List.length_pos_of_ne_nil (Subtree.bindings_ne_nil (sound.sound root held).top 0 0)
  rw [← List.length_pos_iff, length_postsOn sound held lower, stems, Finset.card_pos]
  exact (Finset.card_pos.mp occupied).image _

/-- No level has more nodes than there are numbers of seven chunks. -/
theorem length_postsOn_le (sound : tree.Sound) (held : tree.root? = some root) {level : Nat}
    (lower : level ≤ root.level) : (tree.postsOn level).length ≤ 2 ^ 56 := by
  have few : stems tree.keys (level + 1) ⊆ Finset.range (2 ^ 56) := by
    intro stem listed
    rcases Finset.mem_image.mp listed with ⟨key, _, rfl⟩
    exact Finset.mem_range.mpr (key.above_succ_lt level)
  rw [length_postsOn sound held lower, ← Finset.card_range (2 ^ 56)]
  exact Finset.card_le_card few

/-- A level of the statistics is that of a depth of the tree. -/
private theorem exists_tallied (rooted : tree.Rooted) {level : LevelTally}
    (listed : level ∈ tree.stats.levels) :
    ∃ root, tree.root? = some root ∧ ∃ depth ≤ root.level, level = LevelTally.tallied depth
      (Family.ofLevel (root.level - depth)) (tree.postsOn (root.level - depth)) := by
  cases held : tree.root? with
  | none =>
      rw [levels_of_none held] at listed
      cases listed
  | some root =>
      rw [levels_of_root rooted held] at listed
      rcases List.mem_map.mp listed with ⟨depth, inside, rfl⟩
      exact ⟨root, rfl, depth, Nat.le_of_lt_succ (List.mem_range.mp inside), rfl⟩

theorem depths_levels (rooted : tree.Rooted) :
    tree.stats.levels.map LevelTally.depth = List.range tree.height := by
  cases held : tree.root? with
  | none =>
      rw [levels_of_none held, height_of_none held]
      rfl
  | some root =>
      rw [levels_of_root rooted held, height_of_root held, List.map_map]
      refine (List.map_congr_left fun depth _ => ?_).trans (List.map_id _)
      exact LevelTally.depth_tallied depth _ _

theorem family_levels (rooted : tree.Rooted) : ∀ level ∈ tree.stats.levels,
    level.family = if level.depth + 1 = tree.height then .leaf else .inner := by
  intro level listed
  rcases exists_tallied rooted listed with ⟨root, held, depth, inside, rfl⟩
  rw [LevelTally.family_tallied, LevelTally.depth_tallied, height_of_root held]
  by_cases last : depth = root.level
  · rw [if_pos (congrArg (· + 1) last), last, Nat.sub_self]
    rfl
  · rw [if_neg (last ∘ Nat.succ.inj)]
    rcases Nat.exists_eq_succ_of_ne_zero (Nat.sub_ne_zero_of_lt (Nat.lt_of_le_of_ne inside last)) with
      ⟨below, level⟩
    rw [level]
    rfl

theorem filled_levels (sound : tree.Sound) : ∀ level ∈ tree.stats.levels, level.Filled := by
  intro level listed
  rcases exists_tallied sound.toRooted listed with ⟨root, held, depth, inside, rfl⟩
  apply LevelTally.filled_tallied (postsOn_ne_nil sound held (Nat.sub_le _ _))
    (length_postsOn_le sound held (Nat.sub_le _ _))
  intro post placed
  exact fit_of_mem_posts sound.toRooted (mem_postsOn_iff.mp placed).1

/-- A tree with levels has a root, and as many levels as its height. -/
private theorem root_of_level (rooted : tree.Rooted) {depth : Nat} {level : LevelTally}
    (found : tree.stats.levels[depth]? = some level) :
    ∃ root, tree.root? = some root ∧ depth ≤ root.level := by
  have inside := (List.getElem?_eq_some_iff.mp found).1
  rw [length_levels rooted] at inside
  cases held : tree.root? with
  | none =>
      rw [height_of_none held] at inside
      cases inside
  | some root =>
      rw [height_of_root held] at inside
      exact ⟨root, rfl, Nat.le_of_lt_succ inside⟩

theorem population_topmost (sound : tree.Sound) :
    ∀ level ∈ tree.stats.levels[0]?, level.population = 1 := by
  intro level found
  rcases root_of_level sound.toRooted found with ⟨root, held, inside⟩
  rcases postsOn_top sound held with ⟨post, alone, _⟩
  rw [levels_eq_tallied sound.toRooted held inside, Nat.sub_zero, alone] at found
  cases Option.some.inj found
  exact LevelTally.additive_population.tallied _ _ _

/-- The room of the pools is room for what they have handed out. -/
theorem liveBytes_le_allocatedBytes (solvent : tree.Solvent) :
    tree.liveBytes ≤ tree.pools.allocatedBytes := by
  rw [liveBytes, Pools.liveBytes, Pools.allocatedBytes]
  refine PoolId.total_le_total fun pool => ?_
  exact Nat.mul_le_mul_right _
    ((Slab.live_le_size (solvent.sound.inventory.sound pool)).trans (solvent.opened pool))

theorem Solvent.agreed (solvent : tree.Solvent) : tree.Agreed where
  nodes family sizeClass :=
    (PerPool.get_tabulate _ _).trans (liveNodes_eq_sum solvent.sound family sizeClass)
  depths := depths_levels solvent.sound.toRooted
  families := family_levels solvent.sound.toRooted
  topmost := population_topmost solvent.sound
  below depth upper here lower under := by
    rcases root_of_level solvent.sound.toRooted under with ⟨root, held, inner⟩
    exact used_eq_population solvent.sound held inner here under
  bottom level last := by
    rw [List.getLast?_eq_getElem?] at last
    rcases root_of_level solvent.sound.toRooted last with ⟨root, held, _⟩
    rw [length_levels solvent.sound.toRooted, height_of_root held, Nat.add_sub_cancel] at last
    exact used_eq_size solvent.sound held last
  entries := ⟨rfl, solvent.sound.counted⟩
  filled := filled_levels solvent.sound
  bytes := ⟨Stats.liveBytes_eq tree,
    (Stats.liveBytes_eq tree).trans_le (liveBytes_le_allocatedBytes solvent)⟩

/-- After every run of a new tree, the pools and the walk give one account of its nodes. -/
theorem agreed_after (limit? : Option Nat) (requests : List Request) :
    ((empty limit?).after requests).Agreed :=
  (solvent_after (solvent_empty limit?) requests).agreed

end Tree
end AdaptiveRadix
