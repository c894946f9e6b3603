import AdaptiveRadix.Proofs.Stats.Levels

namespace AdaptiveRadix

/-!
# The census of a tree

The keys of a tree and its height say which nodes it has.  On each level there is one node for
each stem that some key has above the level, and the node has one entry for each chunk that
the keys with its stem have at the level.  So the level statistics can be foretold, whatever
requests have led to the tree.
-/

namespace Subtree

variable {level floor : Nat} {leaf : Node UInt64} {node : Node (Subtree level)}
  {subtree : Subtree level} {key : Key} {post : Post}

/-- The entries of a node on the path of a key, as chunks that keys in the subtree have there. -/
structure Entered (subtree : Subtree level) (key : Key) (floor : Nat) (post : Post)
    (chunks : List Chunk) : Prop where
  distinct : chunks.Nodup
  counted : chunks.length = post.count
  positive : 0 < post.count
  mem_iff : forall chunk, chunk ∈ chunks ↔ ∃ other value,
    other.above (floor + 1) = key.above (floor + 1) ∧ other.chunk floor = chunk ∧
      subtree.get? other = some value

private theorem entered_leaf (sound : (ofLeaf leaf).Sound) (key : Key) :
    Entered (ofLeaf leaf) key 0 (leaf.post 0 key) (leaf.bindings.map Prod.fst) := by
  rcases sound_leaf.mp sound with ⟨valid, occupied⟩
  refine ⟨(Node.listing valid).nodup_keys, ?_, Node.count_pos occupied, ?_⟩
  · rw [List.length_map, Node.length_bindings, valid.counted]
    rfl
  · intro chunk
    rw [(Node.listing valid).mem_keys_iff, Option.isSome_iff_exists]
    constructor
    · intro held
      rcases held with ⟨value, found⟩
      rcases Key.exists_chunk_zero chunk with ⟨lower, rfl⟩
      rcases Key.exists_joined (Nat.zero_le _) key lower with ⟨other, stem, below⟩
      have here := Key.below_zero_inj.mp below
      refine ⟨other, value, stem, here, ?_⟩
      rw [get?_leaf, here]
      exact found
    · intro present
      rcases present with ⟨other, value, _, rfl, found⟩
      exact ⟨value, found⟩

private theorem entered_node (sound : (ofNode node).Sound) (low : level + 1 ≤ Key.maxLevel)
    (key : Key) :
    Entered (ofNode node) key (level + 1) (node.post (level + 1) key)
      (node.bindings.map Prod.fst) := by
  rcases sound_node.mp sound with ⟨valid, occupied, children⟩
  refine ⟨(Node.listing valid).nodup_keys, ?_, Node.count_pos occupied, ?_⟩
  · rw [List.length_map, Node.length_bindings, valid.counted]
    rfl
  · intro chunk
    rw [(Node.listing valid).mem_keys_iff, Option.isSome_iff_exists]
    constructor
    · intro held
      rcases held with ⟨child, held⟩
      rcases exists_key (children chunk child held) (Nat.le_of_succ_le low) with
        ⟨lowest, value, found⟩
      rcases Key.exists_chunk_above low chunk lowest with ⟨lower, here, same⟩
      rcases Key.exists_joined low key lower with ⟨other, stem, below⟩
      rcases Key.below_succ_inj.mp below with ⟨hereToo, sameToo⟩
      refine ⟨other, value, stem, hereToo.trans here, ?_⟩
      rw [get?_node, hereToo, here, held, Option.bind_some, ← found]
      exact get?_congr child (sameToo.trans same)
    · intro present
      rcases present with ⟨other, value, _, rfl, found⟩
      rw [get?_node] at found
      rcases Option.bind_eq_some_iff.mp found with ⟨child, held, _⟩
      exact ⟨child, held⟩

/-- A node has an entry for each chunk that keys with its stem have at its level. -/
theorem exists_entered (sound : subtree.Sound) (low : level ≤ Key.maxLevel)
    (found : subtree.post? key floor = some post) :
    ∃ chunks, Entered subtree key floor post chunks := by
  induction subtree using byLevel with
  | leaf leaf =>
      rcases Option.ite_none_right_eq_some.mp found with ⟨rfl, same⟩
      exact ⟨_, Option.some.inj same ▸ entered_leaf sound key⟩
  | @node level node inductionHypothesis =>
      by_cases top : floor = level + 1
      · subst floor
        rw [post?_top] at found
        exact ⟨_, Option.some.inj found ▸ entered_node sound low key⟩
      · have lower : floor + 1 ≤ level + 1 := by
          have most := (place_of_post? found).2.2
          omega
        rw [post?_below top] at found
        rcases Option.bind_eq_some_iff.mp found with ⟨child, held, below⟩
        rcases inductionHypothesis child ((sound_node.mp sound).2.2 _ child held)
          (Nat.le_of_succ_le low) below with ⟨chunks, entered⟩
        refine ⟨chunks, entered.distinct, entered.counted, entered.positive, ?_⟩
        intro chunk
        rw [entered.mem_iff]
        refine exists_congr fun other => exists_congr fun value => and_congr_right fun stem => ?_
        rw [get?_of_held held (Key.chunk_eq_of_above_eq lower stem)]

end Subtree

namespace Tree

variable {tree : Tree} {root : Root} {key : Key} {level : Nat} {post : Post}

/-- The keys that have a value. -/
def keys (tree : Tree) : Finset Key :=
  (tree.toList.map Prod.fst).toFinset

/-- What some keys have from a level upwards. -/
def stems (keys : Finset Key) (level : Nat) : Finset Nat :=
  keys.image fun key => key.above level

theorem mem_keys_iff (rooted : tree.Rooted) : key ∈ tree.keys ↔ ∃ value, tree.get? key = some value := by
  rw [keys, List.mem_toFinset, (listing rooted).mem_keys_iff, Option.isSome_iff_exists]

/-- A key of the tree has a node on its path at every level. -/
theorem exists_post? (rooted : tree.Rooted) (held : tree.root? = some root) (present : key ∈ tree.keys)
    (lower : level ≤ root.level) : ∃ post, tree.post? key level = some post := by
  rcases (mem_keys_iff rooted).mp present with ⟨value, found⟩
  rcases exists_root rooted found with ⟨other, heldToo, fits, below⟩
  cases Option.some.inj (held.symm.trans heldToo)
  rw [post?_of_root held, if_pos fits]
  exact Subtree.exists_post? below lower

/-- A node has an entry for each chunk that keys of the tree with its stem have at its level. -/
theorem exists_chunks (rooted : tree.Rooted) (met : post ∈ tree.posts) :
    ∃ chunks : List Chunk, chunks.Nodup ∧ chunks.length = post.count ∧ 0 < post.count ∧
      forall chunk, chunk ∈ chunks ↔
        ∃ key ∈ tree.keys, key.above (post.level + 1) = post.stem ∧ key.chunk post.level = chunk := by
  rcases (mem_posts_iff rooted).mp met with ⟨key, found⟩
  have stem := (place_of_post? found).2
  rcases Option.bind_eq_some_iff.mp found with ⟨root, held, below⟩
  rcases Option.ite_none_right_eq_some.mp below with ⟨fits, passed⟩
  rcases rooted.sound root held with ⟨low, top⟩
  have lower := (Subtree.place_of_post? passed).2.2
  rcases Subtree.exists_entered top low passed with ⟨chunks, entered⟩
  refine ⟨chunks, entered.distinct, entered.counted, entered.positive, ?_⟩
  intro chunk
  rw [entered.mem_iff, stem]
  constructor
  · intro present
    rcases present with ⟨other, value, same, here, looked⟩
    refine ⟨other, (mem_keys_iff rooted).mpr ⟨value, ?_⟩, same, here⟩
    have inside : other ≤ Key.bound root.level := by
      rw [Key.le_bound_iff_above low] at fits ⊢
      exact (Key.above_eq_of_le (Nat.succ_le_succ lower) same).trans fits
    rw [get?_of_root rooted held, Subtree.boundedGet?_of_le _ inside, looked]
  · intro present
    rcases present with ⟨other, member, same, here⟩
    rcases (mem_keys_iff rooted).mp member with ⟨value, looked⟩
    rw [get?_of_root rooted held] at looked
    rw [Subtree.boundedGet?_of_le _ (Subtree.le_bound_of_boundedGet? looked)] at looked
    exact ⟨other, value, same, here, looked⟩

/-- The keys that have a stem above a level. -/
def keysUnder (tree : Tree) (level stem : Nat) : Finset Key :=
  tree.keys.filter fun key => key.above (level + 1) = stem

/-- What a stem and a chunk below it make together. -/
private def joined (stem : Nat) (chunk : Chunk) : Nat :=
  2 ^ Key.chunkBits * stem + chunk.toNat

private theorem joined_injective (stem : Nat) : Function.Injective (joined stem) :=
  fun _ _ same => UInt8.toNat_inj.mp (Nat.add_left_cancel same)

/-- The count of a node is the number of ways in which its keys go on. -/
theorem count_eq (rooted : tree.Rooted) (met : post ∈ tree.posts) :
    post.count = (stems (tree.keysUnder post.level post.stem) post.level).card := by
  rcases exists_chunks rooted met with ⟨chunks, distinct, counted, _, listed⟩
  have same : stems (tree.keysUnder post.level post.stem) post.level =
      chunks.toFinset.image (joined post.stem) := by
    ext number
    simp only [stems, keysUnder, Finset.mem_image, Finset.mem_filter, List.mem_toFinset, listed]
    constructor
    · intro present
      rcases present with ⟨key, ⟨member, stem⟩, rfl⟩
      refine ⟨key.chunk post.level, ⟨key, member, stem, rfl⟩, ?_⟩
      rw [joined, key.above_eq post.level, stem]
    · intro present
      rcases present with ⟨_, ⟨key, member, stem, rfl⟩, rfl⟩
      refine ⟨key, ⟨member, stem⟩, ?_⟩
      rw [joined, key.above_eq post.level, stem]
  rw [same, Finset.card_image_of_injective _ (joined_injective post.stem),
    List.toFinset_card_of_nodup distinct, counted]

theorem nodup_stems (sound : tree.Sound) (level : Nat) :
    ((tree.postsOn level).map Post.stem).Nodup := by
  apply List.Nodup.map_on _ ((nodup_posts sound).filter _)
  intro first met second metToo stem
  rcases mem_postsOn_iff.mp met with ⟨met, here⟩
  rcases mem_postsOn_iff.mp metToo with ⟨metToo, hereToo⟩
  exact eq_of_place sound.toRooted met metToo (here.trans hereToo.symm) stem

/-- The nodes of a level stand at the stems that keys have above it. -/
theorem toFinset_stems (rooted : tree.Rooted) (held : tree.root? = some root)
    (lower : level ≤ root.level) :
    ((tree.postsOn level).map Post.stem).toFinset = stems tree.keys (level + 1) := by
  ext stem
  simp only [List.mem_toFinset, List.mem_map, mem_postsOn_iff, stems, Finset.mem_image]
  constructor
  · intro placed
    rcases placed with ⟨post, ⟨met, rfl⟩, rfl⟩
    rcases exists_chunks rooted met with ⟨chunks, _, counted, positive, listed⟩
    rcases List.exists_mem_of_length_pos (counted.symm ▸ positive) with ⟨chunk, member⟩
    rcases (listed chunk).mp member with ⟨key, present, same, _⟩
    exact ⟨key, present, same⟩
  · intro present
    rcases present with ⟨key, member, rfl⟩
    rcases exists_post? rooted held member lower with ⟨post, found⟩
    rcases place_of_post? found with ⟨rfl, same⟩
    exact ⟨post, ⟨(mem_posts_iff rooted).mpr ⟨key, found⟩, rfl⟩, same⟩

theorem length_postsOn (sound : tree.Sound) (held : tree.root? = some root)
    (lower : level ≤ root.level) :
    (tree.postsOn level).length = (stems tree.keys (level + 1)).card := by
  rw [← toFinset_stems sound.toRooted held lower, List.toFinset_card_of_nodup (nodup_stems sound level),
    List.length_map]

/-- The entries on a level are as many as the stems that keys have from that level upwards. -/
theorem sum_count (sound : tree.Sound) (held : tree.root? = some root) (lower : level ≤ root.level) :
    ((tree.postsOn level).map Post.count).sum = (stems tree.keys level).card := by
  have counts : (tree.postsOn level).map Post.count =
      ((tree.postsOn level).map Post.stem).map fun stem =>
        (stems (tree.keysUnder level stem) level).card := by
    rw [List.map_map]
    apply List.map_congr_left
    intro post placed
    rcases mem_postsOn_iff.mp placed with ⟨met, rfl⟩
    exact count_eq sound.toRooted met
  have into : Set.MapsTo (· / 2 ^ Key.chunkBits) (stems tree.keys level : Set Nat)
      (stems tree.keys (level + 1)) := by
    intro number present
    rcases Finset.mem_image.mp (Finset.mem_coe.mp present) with ⟨key, member, rfl⟩
    exact Finset.mem_coe.mpr (Finset.mem_image.mpr ⟨key, member, key.above_succ level⟩)
  have fiber : forall stem,
      (stems tree.keys level).filter (fun number => number / 2 ^ Key.chunkBits = stem) =
        stems (tree.keysUnder level stem) level := by
    intro stem
    simp only [stems, keysUnder, Finset.filter_image, ← Key.above_succ]
  rw [counts, ← List.sum_toFinset _ (nodup_stems sound level),
    toFinset_stems sound.toRooted held lower, Finset.card_eq_sum_card_fiberwise into]
  simp only [fiber]

theorem level_le (rooted : tree.Rooted) (held : tree.root? = some root) (met : post ∈ tree.posts) :
    post.level ≤ root.level := by
  rcases (mem_posts_iff rooted).mp met with ⟨key, found⟩
  rw [post?_of_root held] at found
  exact (Subtree.place_of_post? (Option.ite_none_right_eq_some.mp found).2).2.2

/-- All keys fit below the root, so they have nothing above its level. -/
private theorem stem_of_top (rooted : tree.Rooted) (held : tree.root? = some root)
    (placed : post ∈ tree.postsOn root.level) : post.stem = 0 := by
  rcases mem_postsOn_iff.mp placed with ⟨met, level⟩
  rcases (mem_posts_iff rooted).mp met with ⟨key, found⟩
  have stem := (place_of_post? found).2
  rw [post?_of_root held] at found
  have fits := (Option.ite_none_right_eq_some.mp found).1
  rw [stem, level, (Key.le_bound_iff_above (rooted.sound root held).low).mp fits]
  exact Nat.zero_div _

/-- The only node on the level of the root is the root. -/
theorem postsOn_top (sound : tree.Sound) (held : tree.root? = some root) :
    ∃ post, tree.postsOn root.level = [post] ∧ post.handle = root.top.handle ∧ post.stem = 0 := by
  rcases root.top.exists_top_post 0 0 with ⟨post, met, handle, level⟩
  rw [← posts_of_root held] at met
  have placed : post ∈ tree.postsOn root.level := mem_postsOn_iff.mpr ⟨met, level⟩
  have zero := stem_of_top sound.toRooted held placed
  refine ⟨post, List.perm_singleton.mp ?_, handle, zero⟩
  apply (List.perm_ext_iff_of_nodup ((nodup_posts sound).filter _) (List.nodup_singleton post)).mpr
  intro other
  rw [List.mem_singleton]
  constructor
  · intro placedToo
    rcases mem_postsOn_iff.mp placedToo with ⟨metToo, levelToo⟩
    have zeroToo := stem_of_top sound.toRooted held placedToo
    exact eq_of_place sound.toRooted metToo met (levelToo.trans level.symm)
      (zeroToo.trans zero.symm)
  · intro same
    exact same ▸ placed

/-- What the keys of a tree and the level of its root say about its nodes and its statistics. -/
structure Census (tree : Tree) (root : Root) : Prop where
  /-- The nodes in use are the posts, each once. -/
  live : forall handle,
    (tree.pools.anchor? handle).isSome = true ↔ handle ∈ tree.posts.map Post.handle
  distinct : (tree.posts.map Post.handle).Nodup
  low : ∀ post ∈ tree.posts, post.level ≤ root.level
  /-- One node for each stem that keys have above a level. -/
  single : ∀ level ≤ root.level, ((tree.postsOn level).map Post.stem).Nodup
  stems : ∀ level ≤ root.level,
    ((tree.postsOn level).map Post.stem).toFinset = stems tree.keys (level + 1)
  /-- One entry for each way in which the keys of a node go on. -/
  entries : ∀ post ∈ tree.posts,
    0 < post.count ∧ post.count = (Tree.stems (tree.keysUnder post.level post.stem) post.level).card
  topmost : ∃ post, tree.postsOn root.level = [post] ∧ post.handle = root.top.handle ∧ post.stem = 0
  depths : tree.stats.levels.length = root.level + 1
  /-- The statistics of a depth, over all classes. -/
  tallies : ∀ depth ≤ root.level, ∃ tally, tree.stats.levels[depth]? = some tally ∧
    tally.population = (Tree.stems tree.keys (root.level - depth + 1)).card ∧
    tally.used = (Tree.stems tree.keys (root.level - depth)).card

theorem Sound.census (sound : tree.Sound) (held : tree.root? = some root) : tree.Census root where
  live _ := (mem_handles_iff sound).symm
  distinct := handles_posts tree ▸ sound.inventory.distinct
  low _ met := level_le sound.toRooted held met
  single level _ := nodup_stems sound level
  stems _ lower := toFinset_stems sound.toRooted held lower
  entries post met := by
    rcases exists_chunks sound.toRooted met with ⟨_, _, _, positive, _⟩
    exact ⟨positive, count_eq sound.toRooted met⟩
  topmost := postsOn_top sound held
  depths := (length_levels sound.toRooted).trans (height_of_root held)
  tallies depth inside := by
    have lower : root.level - depth ≤ root.level := Nat.sub_le _ _
    rcases exists_levelTally sound.toRooted held inside with ⟨tally, found, population, used⟩
    exact ⟨tally, found, population.trans (length_postsOn sound held lower),
      used.trans (sum_count sound held lower)⟩

/-- After every run of a new tree, its nodes are those that its keys and its height call for. -/
theorem census_after (limit? : Option Nat) (requests : List Request) :
    ∀ root ∈ ((empty limit?).after requests).root?, ((empty limit?).after requests).Census root :=
  fun _ held => (sound_after (sound_empty limit?) requests).census held

/-- A root that no key needs any more is still there, over the one path that is left. -/
theorem census_after_erased_top :
    ∃ root, ((empty none).after [.insert 5 7 none, .insert 256 8 none, .erase 256]).root? = some root ∧
      ((empty none).after [.insert 5 7 none, .insert 256 8 none, .erase 256]).Census root := by
  have rooted : ((empty none).after
      [.insert 5 7 none, .insert 256 8 none, .erase 256]).root?.isSome = true := by
    decide +kernel
  rcases Option.isSome_iff_exists.mp rooted with ⟨root, held⟩
  exact ⟨root, held, census_after none _ root held⟩

end Tree
end AdaptiveRadix
