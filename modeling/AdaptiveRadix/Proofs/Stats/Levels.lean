import AdaptiveRadix.Proofs.Tree.Height
import AdaptiveRadix.Proofs.Tree.Posts
import AdaptiveRadix.Stats.Basic

namespace AdaptiveRadix

/-!
# The level statistics

One pass over a walk fills the tallies of the levels.  It can do so because a walk never
skips a depth: every node lies at most one level below all that were met before it.  At the
end there is a tally for each depth of the tree, and it has counted the nodes at its depth.
-/

namespace SizeClass

/-- A sum over all classes follows the one class that gains. -/
theorem total_of_gain {before after : SizeClass -> Nat} {sizeClass : SizeClass} {gain : Nat}
    (here : after sizeClass = before sizeClass + gain)
    (elsewhere : forall other, other ≠ sizeClass -> after other = before other) :
    total after = total before + gain := by
  cases sizeClass <;>
    simp only [total, all, List.foldr_cons, List.foldr_nil, here, elsewhere, ne_eq, reduceCtorEq,
      not_false_eq_true] <;>
    omega

end SizeClass

namespace LevelTally

/-- Nodes of any class. -/
def population (level : LevelTally) : Nat :=
  SizeClass.total fun sizeClass => (level.tally sizeClass).nodes

theorem tally_empty (depth : Nat) (family : Family) (sizeClass : SizeClass) :
    (empty depth family).tally sizeClass = ⟨0, 0⟩ := by
  rw [tally, empty, Fin.getElem_fin, Vector.getElem_replicate]

theorem tally_counted_self (level : LevelTally) (sizeClass : SizeClass) (entries : Nat) :
    (level.counted sizeClass entries).tally sizeClass =
      ⟨(level.tally sizeClass).nodes + 1, (level.tally sizeClass).entries + entries⟩ := by
  simp only [tally, counted, Fin.getElem_fin, Vector.getElem_set_self]

theorem tally_counted_of_ne (level : LevelTally) {sizeClass other : SizeClass}
    (different : other ≠ sizeClass) (entries : Nat) :
    (level.counted sizeClass entries).tally other = level.tally other := by
  have apart : sizeClass.index.val ≠ other.index.val := by
    cases sizeClass <;> cases other <;> first | exact absurd rfl different | decide
  simp only [tally, counted, Fin.getElem_fin, Vector.getElem_set_ne _ _ apart]

/-- A measure of a level to which every node adds by its class and its count. -/
structure Additive (measure : LevelTally -> Nat) (gain : SizeClass -> Nat -> Nat) : Prop where
  empty : forall depth family, measure (empty depth family) = 0
  counted : forall level sizeClass entries,
    measure (counted level sizeClass entries) = measure level + gain sizeClass entries

theorem additive_nodes (sizeClass : SizeClass) :
    Additive (fun level => (level.tally sizeClass).nodes)
      fun other _ => if other = sizeClass then 1 else 0 where
  empty depth family := congrArg ClassTally.nodes (tally_empty depth family sizeClass)
  counted level other entries := by
    by_cases same : other = sizeClass
    · subst other
      rw [tally_counted_self, if_pos rfl]
    · rw [tally_counted_of_ne level (Ne.symm same), if_neg same, Nat.add_zero]

theorem additive_population : Additive population fun _ _ => 1 where
  empty depth family := by
    simp only [population, tally_empty]
    rfl
  counted level sizeClass entries :=
    SizeClass.total_of_gain (congrArg ClassTally.nodes (level.tally_counted_self sizeClass entries))
      fun _ different => congrArg ClassTally.nodes (level.tally_counted_of_ne different entries)

theorem additive_used : Additive used fun _ entries => entries where
  empty depth family := by
    simp only [used, tally_empty]
    rfl
  counted level sizeClass entries :=
    SizeClass.total_of_gain (congrArg ClassTally.entries (level.tally_counted_self sizeClass entries))
      fun _ different => congrArg ClassTally.entries (level.tally_counted_of_ne different entries)

theorem additive_slots : Additive slots fun sizeClass _ => sizeClass.capacity where
  empty depth family := by
    simp only [slots, tally_empty, Nat.zero_mul]
    rfl
  counted level sizeClass entries := by
    apply SizeClass.total_of_gain
    · rw [tally_counted_self, Nat.add_mul, Nat.one_mul]
    · intro other different
      rw [level.tally_counted_of_ne different]

/-- The level that counts some nodes and no others. -/
def tallied (depth : Nat) (family : Family) (posts : List Post) : LevelTally :=
  posts.foldl (fun level post => level.counted post.sizeClass post.count) (empty depth family)

theorem Additive.foldl_counted {measure : LevelTally -> Nat} {gain : SizeClass -> Nat -> Nat}
    (additive : Additive measure gain) (posts : List Post) (level : LevelTally) :
    measure (posts.foldl (fun level post => level.counted post.sizeClass post.count) level) =
      measure level + (posts.map fun post => gain post.sizeClass post.count).sum := by
  induction posts generalizing level with
  | nil => rfl
  | cons post rest inductionHypothesis =>
      rw [List.foldl_cons, inductionHypothesis, additive.counted, List.map_cons, List.sum_cons,
        Nat.add_assoc]

theorem Additive.tallied {measure : LevelTally -> Nat} {gain : SizeClass -> Nat -> Nat}
    (additive : Additive measure gain) (depth : Nat) (family : Family) (posts : List Post) :
    measure (tallied depth family posts) =
      (posts.map fun post => gain post.sizeClass post.count).sum := by
  rw [LevelTally.tallied, additive.foldl_counted, additive.empty, Nat.zero_add]

theorem depth_foldl_counted (posts : List Post) (level : LevelTally) :
    (posts.foldl (fun level post => level.counted post.sizeClass post.count) level).depth =
        level.depth ∧
      (posts.foldl (fun level post => level.counted post.sizeClass post.count) level).family =
        level.family := by
  induction posts generalizing level with
  | nil => exact ⟨rfl, rfl⟩
  | cons post rest inductionHypothesis => exact inductionHypothesis (level.counted _ _)

variable {levels : List LevelTally} {depth level count : Nat} {handle : Handle} {partialKey : Key}

theorem length_noted (near : depth ≤ levels.length) :
    (noted levels (.node depth handle level count partialKey)).length =
      max levels.length (depth + 1) := by
  rw [noted, List.length_modify]
  split
  · rw [List.length_append, List.length_singleton]
    omega
  · omega

/-- A node is counted at its depth and at no other.  A depth that has not been met counts as
one at which nothing has been counted, of the family that belongs there. -/
theorem getD_noted (families : Nat -> Family) (near : depth ≤ levels.length)
    (housed : handle.pool.family = families depth) (other : Nat) :
    (noted levels (.node depth handle level count partialKey))[other]?.getD
        (empty other (families other)) =
      let before := levels[other]?.getD (empty other (families other))
      if depth = other then before.counted handle.pool.sizeClass count else before := by
  let known := if levels.length ≤ depth then levels ++ [empty depth handle.pool.family] else levels
  have inside : depth < known.length := by
    simp only [known]
    split
    · rw [List.length_append, List.length_singleton]
      omega
    · omega
  have same : known[other]?.getD (empty other (families other)) =
      levels[other]?.getD (empty other (families other)) := by
    simp only [known]
    split
    · have next : depth = levels.length := by omega
      rw [List.getElem?_append, housed, next]
      split
      · rfl
      · rename_i outside
        rw [List.getElem?_eq_none (Nat.not_lt.mp outside), List.getElem?_singleton]
        split
        · have here : other = levels.length := by omega
          rw [here]
          rfl
        · rfl
    · rfl
  change ((known.modify depth _)[other]?).getD _ = _
  rw [List.getElem?_modify, ← same]
  by_cases here : depth = other
  · subst other
    simp only [List.getElem?_eq_getElem inside, if_true, Option.map_eq_map, Option.map_some,
      Option.getD_some]
  · simp [here]

end LevelTally

namespace Visit

/-- The depth of a visited node. -/
def depth? : Visit -> Option Nat
  | node depth _ _ _ _ => some depth
  | _ => none

end Visit

/-- A walk that never skips a depth, from the number of levels met before it to the number
met after it. -/
inductive Deepening : Nat -> List Visit -> Nat -> Prop
  | done (levels : Nat) : Deepening levels [] levels
  | node {levels final depth level count : Nat} {handle : Handle} {partialKey : Key}
      {rest : List Visit} (near : depth ≤ levels)
      (later : Deepening (max levels (depth + 1)) rest final) :
      Deepening levels (.node depth handle level count partialKey :: rest) final
  | edge {levels final : Nat} {visit : Visit} {rest : List Visit} (other : visit.depth? = none)
      (later : Deepening levels rest final) : Deepening levels (visit :: rest) final

namespace Deepening

variable {levels middle final top : Nat} {walk rest : List Visit}

theorem append (first : Deepening levels walk middle) (second : Deepening middle rest final) :
    Deepening levels (walk ++ rest) final := by
  induction first with
  | done => exact second
  | node near _ inductionHypothesis => exact .node near (inductionHypothesis second)
  | edge other _ inductionHypothesis => exact .edge other (inductionHypothesis second)

/-- Walks that all reach the same depth reach it together. -/
theorem flatMap {α : Type} {walk : α -> List Visit} {items : List α} (nonempty : items ≠ [])
    {bottom : Nat} (below : bottom ≤ levels) (each : ∀ item ∈ items, forall levels, bottom ≤ levels ->
      Deepening levels (walk item) (max levels top)) :
    Deepening levels (items.flatMap walk) (max levels top) := by
  induction items generalizing levels with
  | nil => exact absurd rfl nonempty
  | cons item rest inductionHypothesis =>
      have first := each item List.mem_cons_self levels below
      rw [List.flatMap_cons]
      cases rest with
      | nil =>
          rw [List.flatMap_nil, List.append_nil]
          exact first
      | cons next others =>
          have later : Deepening (max levels top) ((next :: others).flatMap walk)
              (max (max levels top) top) :=
            inductionHypothesis (List.cons_ne_nil next others) (by omega)
              fun item listed => each item (List.mem_cons_of_mem _ listed)
          rw [max_assoc, max_self] at later
          exact first.append later

end Deepening

/-- A node of the family that belongs on its level, with entries and no more than fit. -/
structure Post.Fit (post : Post) : Prop where
  family : post.handle.pool.family = Family.ofLevel post.level
  positive : 0 < post.count
  room : post.count ≤ post.sizeClass.capacity

namespace Subtree

variable {level : Nat} {subtree : Subtree level}

/-- The walk through a subtree without empty nodes goes down to its leaves, one level at a
time. -/
theorem deepening_visits (sound : subtree.Sound) {depth levels : Nat} (near : depth ≤ levels)
    (partialKey : Key) :
    Deepening levels (subtree.visits depth partialKey) (max levels (depth + level + 1)) := by
  induction subtree using byLevel generalizing depth levels partialKey with
  | leaf leaf =>
      have values : forall entries : List (Entry UInt64), Deepening (max levels (depth + 1))
          (entries.map fun entry => .value depth entry.position entry.chunk
            (Key.extend partialKey entry.chunk 0) entry.value) (max levels (depth + 1)) := by
        intro entries
        induction entries with
        | nil => exact .done _
        | cons entry rest inductionHypothesis => exact .edge rfl inductionHypothesis
      exact .node near (values leaf.entries)
  | @node level node inductionHypothesis =>
      rcases sound_node.mp sound with ⟨valid, occupied, children⟩
      have nonempty : node.entries ≠ [] := by
        rw [← List.length_pos_iff, valid.counted]
        exact Node.count_pos occupied
      have whole : max levels (depth + (level + 1) + 1) =
          max (max levels (depth + 1)) (depth + 1 + level + 1) := by
        omega
      rw [whole]
      refine .node near (Deepening.flatMap nonempty (Nat.le_max_right _ _) ?_)
      intro entry listed seen below
      have held : node.get? entry.chunk = some entry.value :=
        (Node.mem_bindings_iff valid).mp (List.mem_map_of_mem listed)
      exact .edge rfl (inductionHypothesis entry.value (children _ _ held) below _)

theorem fit_of_mem_posts (sound : subtree.Sound) {depth : Nat} {partialKey : Key} {post : Post}
    (met : post ∈ subtree.posts depth partialKey) : post.Fit := by
  induction subtree using byLevel generalizing depth partialKey with
  | leaf leaf =>
      rcases sound_leaf.mp sound with ⟨valid, occupied⟩
      rw [posts_leaf] at met
      cases List.mem_singleton.mp met
      exact ⟨rfl, Node.count_pos occupied, Node.count_le_capacity valid⟩
  | @node level node inductionHypothesis =>
      rcases sound_node.mp sound with ⟨valid, occupied, children⟩
      rw [posts_node] at met
      rcases List.mem_cons.mp met with rfl | below
      · exact ⟨rfl, Node.count_pos occupied, Node.count_le_capacity valid⟩
      · rcases List.mem_flatMap.mp below with ⟨binding, listed, inside⟩
        have held := (Node.mem_bindings_iff valid).mp listed
        exact inductionHypothesis binding.2 (children _ _ held) inside

/-- A walk gets one level lower with each step in depth. -/
theorem depth_add_level (subtree : Subtree level) {depth : Nat} {partialKey : Key} {visit : Visit}
    (met : visit ∈ subtree.visits depth partialKey) :
    ∀ post ∈ visit.post?, ∃ here, visit.depth? = some here ∧ here + post.level = depth + level := by
  induction subtree using byLevel generalizing depth partialKey with
  | leaf leaf =>
      intro post stands
      rcases List.mem_cons.mp met with rfl | value
      · cases Option.some.inj stands
        exact ⟨depth, rfl, rfl⟩
      · rcases List.mem_map.mp value with ⟨entry, _, rfl⟩
        cases stands
  | @node level node inductionHypothesis =>
      intro post stands
      rcases List.mem_cons.mp met with rfl | below
      · cases Option.some.inj stands
        exact ⟨depth, rfl, rfl⟩
      · rcases List.mem_flatMap.mp below with ⟨entry, _, inside⟩
        rcases List.mem_cons.mp inside with rfl | deeper
        · cases stands
        · rcases inductionHypothesis entry.value deeper post stands with ⟨here, found, same⟩
          exact ⟨here, found, by omega⟩

end Subtree

namespace LevelTally

variable {levels : List LevelTally} {walk : List Visit} {final : Nat}

theorem noted_of_edge {visit : Visit} (other : visit.depth? = none) :
    noted levels visit = levels := by
  cases visit with
  | node => cases other
  | child | value => rfl

theorem length_foldl_noted (deepening : Deepening levels.length walk final) :
    (walk.foldl noted levels).length = final := by
  generalize seen : levels.length = start at deepening
  induction deepening generalizing levels with
  | done => exact seen
  | node near _ inductionHypothesis =>
      exact inductionHypothesis ((length_noted (seen ▸ near)).trans (by rw [seen]))
  | edge other _ inductionHypothesis =>
      rw [List.foldl_cons, noted_of_edge other]
      exact inductionHypothesis seen

/-- The nodes that a walk meets at a depth. -/
def postsAt (walk : List Visit) (depth : Nat) : List Post :=
  walk.filterMap fun visit => if visit.depth? = some depth then visit.post? else none

/-- A walk that has at each depth nodes of the family that belongs there. -/
def Housed (families : Nat -> Family) (walk : List Visit) : Prop :=
  ∀ visit ∈ walk, ∀ depth ∈ visit.depth?, ∀ post ∈ visit.post?,
    post.handle.pool.family = families depth

/-- Each level has counted the nodes at its depth. -/
theorem getElem?_foldl_noted {families : Nat -> Family} (housed : Housed families walk)
    (deepening : Deepening levels.length walk final) {depth : Nat} (inside : depth < final) :
    (walk.foldl noted levels)[depth]? = some ((postsAt walk depth).foldl
      (fun level post => level.counted post.sizeClass post.count)
      (levels[depth]?.getD (empty depth (families depth)))) := by
  generalize seen : levels.length = start at deepening
  induction deepening generalizing levels with
  | done =>
      subst seen
      rw [List.foldl_nil, List.getElem?_eq_getElem inside]
      rfl
  | @node _ _ here level count handle partialKey rest near _ inductionHypothesis =>
      subst seen
      have family : handle.pool.family = families here :=
        housed _ List.mem_cons_self here rfl _ rfl
      have later : Housed families rest := fun visit met => housed visit (List.mem_cons_of_mem _ met)
      rw [List.foldl_cons, inductionHypothesis later inside (length_noted near),
        getD_noted families near family, postsAt, postsAt, List.filterMap_cons]
      by_cases same : here = depth
      · subst here
        simp [Visit.depth?, Visit.post?, Post.sizeClass]
      · simp [Visit.depth?, same]
  | @edge _ _ visit rest other _ inductionHypothesis =>
      have later : Housed families rest := fun visit met => housed visit (List.mem_cons_of_mem _ met)
      rw [List.foldl_cons, noted_of_edge other, inductionHypothesis later inside seen, postsAt,
        postsAt, List.filterMap_cons, other]
      rfl

end LevelTally

namespace Tree

variable {tree : Tree} {root : Root}

/-- The nodes of one level. -/
def postsOn (tree : Tree) (level : Nat) : List Post :=
  tree.posts.filter fun post => post.level = level

theorem mem_postsOn_iff {post : Post} {level : Nat} :
    post ∈ tree.postsOn level ↔ post ∈ tree.posts ∧ post.level = level := by
  rw [postsOn, List.mem_filter, decide_eq_true_iff]

theorem deepening_visits (rooted : tree.Rooted) : Deepening 0 tree.visits tree.height := by
  rw [visits, height]
  cases held : tree.root? with
  | none => exact .done 0
  | some root =>
      have walked := Subtree.deepening_visits (rooted.sound root held).top (Nat.le_refl 0) 0
      rwa [Nat.zero_max, Nat.zero_add] at walked

theorem postsAt_eq_postsOn (held : tree.root? = some root) {depth : Nat} (inside : depth ≤ root.level) :
    LevelTally.postsAt tree.visits depth = tree.postsOn (root.level - depth) := by
  rw [LevelTally.postsAt, postsOn, posts, List.filter_filterMap]
  apply List.filterMap_congr
  intro visit met
  rw [visits, held] at met
  cases found : visit.post? with
  | none =>
      rw [ite_self]
      rfl
  | some post =>
      rcases root.top.depth_add_level met post found with ⟨here, depths, same⟩
      rw [depths, Option.filter_some]
      by_cases reached : here = depth
      · rw [if_pos (congrArg some reached), if_pos (decide_eq_true (by omega))]
      · rw [if_neg (reached ∘ Option.some.inj), if_neg]
        rw [decide_eq_true_iff]
        omega

theorem length_levels (rooted : tree.Rooted) : tree.stats.levels.length = tree.height := by
  have walked : Deepening ([] : List LevelTally).length tree.visits tree.height :=
    deepening_visits rooted
  exact LevelTally.length_foldl_noted walked

/-- The statistics of a depth are those of the nodes on its level. -/
theorem levels_eq_tallied (rooted : tree.Rooted) (held : tree.root? = some root) {depth : Nat}
    (inside : depth ≤ root.level) :
    tree.stats.levels[depth]? = some (LevelTally.tallied depth (Family.ofLevel (root.level - depth))
      (tree.postsOn (root.level - depth))) := by
  have walked : Deepening ([] : List LevelTally).length tree.visits tree.height :=
    deepening_visits rooted
  have housed : LevelTally.Housed (fun depth => Family.ofLevel (root.level - depth)) tree.visits := by
    intro visit met here depths post stands
    have listed : post ∈ tree.posts := List.mem_filterMap.mpr ⟨visit, met, stands⟩
    rw [visits, held] at met
    rcases root.top.depth_add_level met post stands with ⟨same, found, sum⟩
    cases Option.some.inj (depths.symm.trans found)
    rw [posts_of_root held] at listed
    have level : root.level - here = post.level := by omega
    change post.handle.pool.family = Family.ofLevel (root.level - here)
    rw [level]
    exact (Subtree.fit_of_mem_posts (rooted.sound root held).top listed).family
  have low : depth < tree.height := by
    rw [height_of_root held]
    omega
  rw [LevelTally.tallied, ← postsAt_eq_postsOn held inside]
  exact LevelTally.getElem?_foldl_noted housed walked low

/-- The statistics have a tally for each depth, which counts the nodes on its level. -/
theorem exists_levelTally (rooted : tree.Rooted) (held : tree.root? = some root) {depth : Nat}
    (inside : depth ≤ root.level) :
    ∃ tally, tree.stats.levels[depth]? = some tally ∧
      tally.population = (tree.postsOn (root.level - depth)).length ∧
      tally.used = ((tree.postsOn (root.level - depth)).map Post.count).sum := by
  refine ⟨_, levels_eq_tallied rooted held inside, ?_, ?_⟩
  · rw [LevelTally.additive_population.tallied, List.map_const', List.sum_replicate, smul_eq_mul,
      Nat.mul_one]
  · exact LevelTally.additive_used.tallied _ _ _

end Tree
end AdaptiveRadix
