import AdaptiveRadix.Proofs.Tree.Moves

namespace AdaptiveRadix

/-!
# The moves of a request

Every request as the list of its moves.  An insertion first asks for room, pool by pool;
what it does in the room that it gets is the list of its growing root or of its first
path.  A removal gives nodes back from the leaf upwards.  The other requests make no
moves.

An insertion of an absent key takes what its placement demands, in each of its cases.
-/

/-- The pools that a reservation leaves behind. -/
def Reservation.left (pools : Pools) : Reservation -> Pools
  | granted roomier => roomier
  | overLimit _ _ => pools
  | refused roomier _ => roomier

namespace Pools

/-- The requests for room that are granted. -/
def grownMoves (demand : Demand) : List PoolId -> Allowance -> Pools -> List Move
  | [], _, _ => []
  | pool :: rest, allowance, pools =>
      if (pools.slab pool).mustGrow (demand.count pool) then
        if allowance = some 0 then []
        else
          .grow pool (demand.count pool) ::
            grownMoves demand rest (allowance.map (· - 1)) (pools.grown pool (demand.count pool))
      else grownMoves demand rest allowance pools

theorem performAll_grownMoves (demand : Demand) (order : List PoolId) (allowance : Allowance)
    (pools : Pools) :
    pools.performAll (grownMoves demand order allowance pools) =
      (pools.grownFor demand order allowance).1 := by
  induction order generalizing allowance pools with
  | nil => rfl
  | cons pool rest inductionHypothesis =>
      rw [grownMoves, grownFor]
      split
      · split
        · rfl
        · exact inductionHypothesis _ _
      · exact inductionHypothesis allowance pools

theorem taken_grownMoves (demand : Demand) (order : List PoolId) (allowance : Allowance)
    (pools : Pools) (pool : PoolId) : taken (grownMoves demand order allowance pools) pool = 0 := by
  induction order generalizing allowance pools with
  | nil => rfl
  | cons first rest inductionHypothesis =>
      rw [grownMoves]
      split
      · split
        · rfl
        · rw [taken_cons_of_ne (by simp)]
          exact inductionHypothesis _ _
      · exact inductionHypothesis allowance pools

/-- The moves of a reservation.  A demand for nothing and one over the limit make none. -/
def reserveMoves (pools : Pools) (limit? : Option Nat) (allowance : Allowance) (demand : Demand) :
    List Move :=
  if demand.isNone then []
  else
    match limit?.filter fun limit => pools.available limit < demand.bytes with
    | some _ => []
    | none => grownMoves demand PoolId.all.toList allowance pools

theorem taken_reserveMoves (pools : Pools) (limit? : Option Nat) (allowance : Allowance)
    (demand : Demand) (pool : PoolId) :
    taken (pools.reserveMoves limit? allowance demand) pool = 0 := by
  rw [reserveMoves]
  split
  · rfl
  · split
    · rfl
    · exact taken_grownMoves demand _ allowance pools pool

theorem releases_grownMoves (demand : Demand) (order : List PoolId) (allowance : Allowance)
    (pools : Pools) : releases (grownMoves demand order allowance pools) = [] := by
  induction order generalizing allowance pools with
  | nil => rfl
  | cons pool rest inductionHypothesis =>
      rw [grownMoves]
      split
      · split
        · rfl
        · exact (releases_cons_of_none rfl _).trans (inductionHypothesis _ _)
      · exact inductionHypothesis allowance pools

theorem releases_reserveMoves (pools : Pools) (limit? : Option Nat) (allowance : Allowance)
    (demand : Demand) : releases (pools.reserveMoves limit? allowance demand) = [] := by
  rw [reserveMoves]
  split
  · rfl
  · split
    · rfl
    · exact releases_grownMoves demand _ allowance pools

theorem performAll_reserveMoves (pools : Pools) (limit? : Option Nat) (allowance : Allowance)
    (demand : Demand) :
    pools.performAll (pools.reserveMoves limit? allowance demand) =
      (pools.reserve limit? allowance demand).left pools := by
  rw [reserveMoves, reserve]
  by_cases none : demand.isNone = true
  · rw [if_pos none, if_pos none]
    rfl
  · rw [if_neg none, if_neg none]
    cases limit?.filter fun limit => pools.available limit < demand.bytes with
    | some limit => rfl
    | none =>
        have grown := performAll_grownMoves demand PoolId.all.toList allowance pools
        generalize pools.grownFor demand PoolId.all.toList allowance = outcome at grown ⊢
        rcases outcome with ⟨roomier, _ | _⟩ <;> exact grown

end Pools

namespace Subtree

variable {level : Nat} {node : Node (Subtree level)} {child : Subtree level} {key : Key}

def keptMoves (subtree : Subtree level) : List Move :=
  if subtree.isEmpty then [.release subtree.handle] else []

theorem performAll_keptMoves (subtree : Subtree level) (pools : Pools) :
    pools.performAll subtree.keptMoves = (subtree.kept pools).2 := by
  rw [keptMoves, kept]
  split <;> rfl

theorem taken_keptMoves (subtree : Subtree level) (pool : PoolId) :
    Pools.taken subtree.keptMoves pool = 0 := by
  rw [keptMoves]
  split <;> rfl

/-- The nodes that a removal gives back, lowest first. -/
def eraseMoves : {level : Nat} -> Subtree level -> Key -> Pools -> List Move
  | 0, (leaf : Node UInt64), key, _ => keptMoves (show Subtree 0 from leaf.erase (key.chunk 0))
  | level + 1, (node : Node (Subtree level)), key, pools =>
      let chunk := key.chunk (level + 1)
      match node.get? chunk with
      | none => []
      | some child =>
          child.eraseMoves key pools ++
            match (child.erase key pools).1 with
            | some _ => []
            | none => keptMoves (show Subtree (level + 1) from node.erase chunk)

theorem eraseMoves_of_child (held : node.get? (key.chunk (level + 1)) = some child)
    (pools : Pools) :
    (ofNode node).eraseMoves key pools = child.eraseMoves key pools ++
      match (child.erase key pools).1 with
      | some _ => []
      | none => (ofNode (node.erase (key.chunk (level + 1)))).keptMoves := by
  simp only [ofNode, eraseMoves, held]

theorem eraseMoves_of_gap (missed : node.get? (key.chunk (level + 1)) = none) (pools : Pools) :
    (ofNode node).eraseMoves key pools = [] := by
  simp only [ofNode, eraseMoves, missed]

theorem erase_of_gap (missed : node.get? (key.chunk (level + 1)) = none) (pools : Pools) :
    (ofNode node).erase key pools = (some (ofNode node), pools) := by
  simp only [ofNode, erase, missed]

theorem performAll_eraseMoves (subtree : Subtree level) (key : Key) (pools : Pools) :
    pools.performAll (subtree.eraseMoves key pools) = (subtree.erase key pools).2 := by
  induction subtree using byLevel with
  | leaf leaf => exact performAll_keptMoves (ofLeaf (leaf.erase (key.chunk 0))) pools
  | @node level node inductionHypothesis =>
      cases held : node.get? (key.chunk (level + 1)) with
      | none =>
          rw [eraseMoves_of_gap held, erase_of_gap held]
          rfl
      | some child =>
          rw [eraseMoves_of_child held, erase_of_child held, Pools.performAll_append,
            inductionHypothesis child]
          cases (child.erase key pools).1 with
          | some smaller => rfl
          | none => exact performAll_keptMoves _ _

theorem taken_eraseMoves (subtree : Subtree level) (key : Key) (pools : Pools) (pool : PoolId) :
    Pools.taken (subtree.eraseMoves key pools) pool = 0 := by
  induction subtree using byLevel with
  | leaf leaf => exact taken_keptMoves (ofLeaf (leaf.erase (key.chunk 0))) pool
  | @node level node inductionHypothesis =>
      cases held : node.get? (key.chunk (level + 1)) with
      | none =>
          rw [eraseMoves_of_gap held]
          rfl
      | some child =>
          rw [eraseMoves_of_child held, Pools.taken_append, inductionHypothesis child]
          cases (child.erase key pools).1 with
          | some smaller => rfl
          | none => exact (Nat.zero_add _).trans (taken_keptMoves _ pool)

end Subtree

namespace Tree

variable {tree : Tree} {root : Root} {key : Key}

/-- The moves of raising a root under which a key does not fit. -/
def raisingMoves (tree : Tree) (root : Root) (key : Key) : List Move :=
  if tree.ceiling < key then root.top.wrappedMoves tree.pools (key.topLevel - root.level) else []

/-- The moves of adding a key that is absent. -/
def addedMoves (tree : Tree) (key : Key) (value : UInt64) : List Move :=
  match tree.root? with
  | none => Subtree.chainMoves key value tree.pools key.topLevel
  | some root =>
      let tall := tree.raisedFor root key
      tree.raisingMoves root key ++ tall.1.top.insertMoves key value tall.2

theorem addedMoves_of_none (held : tree.root? = none) (key : Key) (value : UInt64) :
    tree.addedMoves key value = Subtree.chainMoves key value tree.pools key.topLevel := by
  rw [addedMoves, held]

theorem addedMoves_of_root (held : tree.root? = some root) (key : Key) (value : UInt64) :
    tree.addedMoves key value = tree.raisingMoves root key ++
      (tree.raisedFor root key).1.top.insertMoves key value (tree.raisedFor root key).2 := by
  rw [addedMoves, held]

theorem performAll_raisingMoves (tree : Tree) (root : Root) (key : Key) :
    tree.pools.performAll (tree.raisingMoves root key) = (tree.raisedFor root key).2.pools := by
  rw [raisingMoves, raisedFor]
  split
  · exact Subtree.performAll_wrappedMoves root.top tree.pools _
  · rfl

theorem performAll_addedMoves (tree : Tree) (key : Key) (value : UInt64) :
    tree.pools.performAll (tree.addedMoves key value) = (tree.added key value).1.pools := by
  cases held : tree.root? with
  | none =>
      rw [addedMoves_of_none held, added_of_none held]
      exact Subtree.performAll_chainMoves key value tree.pools key.topLevel
  | some root =>
      rw [addedMoves_of_root held, added_of_root held, Pools.performAll_append,
        performAll_raisingMoves]
      exact Subtree.performAll_insertMoves _ key value _

theorem placement_of_none (held : tree.root? = none) (key : Key) :
    tree.placement key = .first key.topLevel := by
  rw [placement, held]

theorem placement_of_root (held : tree.root? = some root) (key : Key) :
    tree.placement key =
      if tree.ceiling < key then .above root.level key.topLevel else root.top.placement key := by
  rw [placement, held]

/-- A root that is too low is raised to the level that the key wants, where its topmost
wrapper has no room. -/
theorem placement_raised (rooted : tree.Rooted) (held : tree.root? = some root)
    (tooLow : tree.ceiling < key) :
    root.level < key.topLevel ∧
      (tree.raisedFor root key).1.top.placement key = .gap key.topLevel .c1 true := by
  have lower := level_lt_topLevel rooted held tooLow
  have rises : 0 < key.topLevel - root.level := Nat.sub_pos_of_lt lower
  have high : root.level + (key.topLevel - root.level) = key.topLevel :=
    Nat.add_sub_cancel' (Nat.le_of_lt lower)
  have digit : key.chunk (root.level + (key.topLevel - root.level)) ≠ 0 :=
    high.symm ▸ Key.chunk_topLevel_ne_zero (Nat.zero_lt_of_lt lower)
  refine ⟨lower, ?_⟩
  rw [raisedFor, if_pos tooLow]
  exact (Subtree.placement_wrapped root.top tree.pools rises digit).trans (by rw [high])

/-- An insertion takes what it demands, from every pool. -/
theorem taken_addedMoves (rooted : tree.Rooted) (missed : tree.get? key = none) (value : UInt64)
    (pool : PoolId) :
    Pools.taken (tree.addedMoves key value) pool = (tree.placement key).demand.count pool := by
  cases held : tree.root? with
  | none =>
      rw [addedMoves_of_none held, placement_of_none held, Subtree.taken_chainMoves]
      rfl
  | some root =>
      rw [addedMoves_of_root held, placement_of_root held, Pools.taken_append,
        Subtree.taken_insertMoves _ (get?_raisedFor rooted held missed), raisingMoves]
      by_cases tooLow : tree.ceiling < key
      · rcases placement_raised rooted held tooLow with ⟨lower, placement⟩
        rcases Nat.exists_eq_add_one.mpr (Nat.zero_lt_of_lt lower) with ⟨level, top⟩
        rw [if_pos tooLow, if_pos tooLow, placement, Subtree.taken_wrappedMoves, top]
        simp only [Placement.demand, Demand.growth, SizeClass.next?, Demand.raise, Demand.count_add,
          Nat.add_sub_cancel]
        omega
      · rw [if_neg tooLow, if_neg tooLow, raisedFor, if_neg tooLow]
        exact Nat.zero_add _

/-- An insertion gives back the node that has to grow, and no other. -/
theorem releases_addedMoves (rooted : tree.Rooted) (missed : tree.get? key = none)
    (value : UInt64) :
    Pools.releases (tree.addedMoves key value) = (tree.placement key).outgrown?.toList := by
  cases held : tree.root? with
  | none =>
      rw [addedMoves_of_none held, placement_of_none held, Subtree.releases_chainMoves]
      rfl
  | some root =>
      rw [addedMoves_of_root held, placement_of_root held, Pools.releases_append,
        Subtree.releases_insertMoves _ (get?_raisedFor rooted held missed), raisingMoves]
      by_cases tooLow : tree.ceiling < key
      · rcases placement_raised rooted held tooLow with ⟨lower, placement⟩
        rcases Nat.exists_eq_add_one.mpr (Nat.zero_lt_of_lt lower) with ⟨level, top⟩
        rw [if_pos tooLow, if_pos tooLow, placement, Subtree.releases_wrappedMoves, top]
        rfl
      · rw [if_neg tooLow, if_neg tooLow, raisedFor, if_neg tooLow]
        rfl

theorem releases_raisingMoves (tree : Tree) (root : Root) (key : Key) :
    Pools.releases (tree.raisingMoves root key) = [] := by
  rw [raisingMoves]
  split
  · exact Subtree.releases_wrappedMoves root.top tree.pools _
  · rfl

theorem honest_addedMoves (sound : tree.Sound) (missed : tree.get? key = none) (value : UInt64) :
    tree.pools.Honest (tree.addedMoves key value) := by
  cases held : tree.root? with
  | none =>
      rw [addedMoves_of_none held]
      exact Pools.honest_of_keeping (Subtree.releases_chainMoves key value tree.pools _) _
  | some root =>
      have fitting := fitting_raisedFor sound.toRooted held key
      have inventory := sound.inventory
      rw [edges, held] at inventory
      have raised := fitting.exchange.whole inventory
      rw [← List.append_nil (Subtree.edges _ _)] at raised
      rw [addedMoves_of_root held, Pools.honest_append, performAll_raisingMoves]
      refine ⟨Pools.honest_of_keeping (releases_raisingMoves tree root key) _, ?_⟩
      exact Subtree.honest_insertMoves fitting.sound.top
        (get?_raisedFor sound.toRooted held missed) value _ Anchor.root raised

/-- The moves of a request. -/
def moves (tree : Tree) : Request -> List Move
  | .insert key value allowance =>
      if tree.placement key = .present then []
      else
        tree.pools.reserveMoves tree.limit? allowance (tree.placement key).demand ++
          match tree.pools.reserve tree.limit? allowance (tree.placement key).demand with
          | .granted pools => ({ tree with pools := pools } : Tree).addedMoves key value
          | _ => []
  | .erase key =>
      match tree.root?, tree.get? key with
      | some root, some _ => root.top.eraseMoves key tree.pools
      | _, _ => []
  | _ => []

private theorem performAll_moves_insert (tree : Tree) (key : Key) (value : UInt64)
    (allowance : Allowance) :
    tree.pools.performAll (tree.moves (.insert key value allowance)) =
      (tree.insertWithin allowance key value).state.pools := by
  rw [moves, insertWithin]
  by_cases present : tree.placement key = .present
  · rw [if_pos present, if_pos present]
    rfl
  · rw [if_neg present, if_neg present, Pools.performAll_append, Pools.performAll_reserveMoves]
    cases tree.pools.reserve tree.limit? allowance (tree.placement key).demand with
    | granted pools => exact performAll_addedMoves { tree with pools := pools } key value
    | overLimit | refused => rfl

/-- Performing the moves of a request gives the pools that it leaves behind. -/
theorem performAll_moves (tree : Tree) (request : Request) :
    tree.pools.performAll (tree.moves request) = (tree.perform request).1.pools := by
  cases request with
  | insert key value allowance => exact performAll_moves_insert tree key value allowance
  | update key value =>
      rw [perform, update]
      cases tree.get? key <;> rfl
  | erase key =>
      cases found : tree.get? key with
      | none =>
          rw [perform, erase_of_get?_none found, moves, found]
          cases tree.root? <;> rfl
      | some old =>
          cases held : tree.root? with
          | none =>
              rw [get?_of_none held] at found
              cases found
          | some root =>
              rw [perform, (erase_of_root held found).2, moves, found, held]
              exact Subtree.performAll_eraseMoves root.top key tree.pools
  | lookup | size | isEmpty | forEach | toList => rfl

end Tree
end AdaptiveRadix
