import AdaptiveRadix.Proofs.Pool.Growths
import AdaptiveRadix.Proofs.Tree.Granted
import AdaptiveRadix.Proofs.Tree.RequestMoves

namespace AdaptiveRadix

/-!
# Insertions that are tried again

The system may refuse an insertion when a part of its room is made.  The pools that
grew keep what they gained, so the same insertion finds less to do when it is tried
again: it asks for what is left, and then for nothing that it would not have asked for
at first.  What it leaves behind is what it would have left without the refusal.

Requests are counted by what they leave: a request that is granted gives one pool more
room, and one that is refused is reported.
-/

/-! ## Room is asked for before a key is added -/

theorem Node.modest_roomMoves {α : Type} [Inhabited α] (node : Node α) (level : Nat)
    (child? : α -> Option Handle) (pools : Pools) :
    Modest (node.roomMoves level child? pools) := by
  intro move mem
  simp only [Node.roomMoves] at mem
  split at mem
  · simp only [List.mem_append, List.mem_cons, List.mem_map, List.not_mem_nil, or_false] at mem
    rcases mem with (rfl | rfl | rfl) | ⟨child, _, rfl⟩ <;> simp
  · cases mem

namespace Subtree

variable {level : Nat} {key : Key}

theorem modest_chainMoves (key : Key) (value : UInt64) (pools : Pools) (level : Nat) :
    Modest (chainMoves key value pools level) := by
  induction level with
  | zero => simp [Modest, chainMoves]
  | succ level inductionHypothesis => exact inductionHypothesis.append (by simp [Modest])

theorem modest_wrappedMoves (subtree : Subtree level) (pools : Pools) (rise : Nat) :
    Modest (subtree.wrappedMoves pools rise) := by
  induction rise with
  | zero => simp [Modest, wrappedMoves]
  | succ rise inductionHypothesis => exact inductionHypothesis.append (by simp [Modest])

theorem modest_insertMoves (subtree : Subtree level) (key : Key) (value : UInt64)
    (ledger : Ledger) : Modest (subtree.insertMoves key value ledger) := by
  induction subtree using byLevel generalizing ledger with
  | leaf leaf => exact leaf.modest_roomMoves 0 _ ledger.pools
  | @node level node inductionHypothesis =>
      cases held : node.get? (key.chunk (level + 1)) with
      | some child =>
          rw [insertMoves_of_child held]
          exact inductionHypothesis child ledger
      | none =>
          rw [insertMoves_of_gap held]
          exact ((modest_chainMoves key value _ level).append
            (node.modest_roomMoves (level + 1) _ _)).append (by simp [Modest])

end Subtree

namespace Tree

theorem modest_addedMoves (tree : Tree) (key : Key) (value : UInt64) :
    Modest (tree.addedMoves key value) := by
  cases held : tree.root? with
  | none =>
      rw [addedMoves_of_none held]
      exact Subtree.modest_chainMoves key value tree.pools key.topLevel
  | some root =>
      have raising : Modest (tree.raisingMoves root key) := by
        rw [raisingMoves]
        split
        · exact root.top.modest_wrappedMoves tree.pools _
        · simp [Modest]
      rw [addedMoves_of_root held]
      exact raising.append (Subtree.modest_insertMoves _ key value _)

/-- Adding a key takes room that is there. -/
theorem capacity_added (tree : Tree) (key : Key) (value : UInt64) (pool : PoolId) :
    ((tree.added key value).1.pools.slab pool).capacity = (tree.pools.slab pool).capacity := by
  rw [← performAll_addedMoves]
  exact (modest_addedMoves tree key value).capacity_performAll tree.pools pool

end Tree

namespace Event

/-- The system was asked for room and gave none. -/
def isRefusal : Event -> Bool
  | refused _ => true
  | _ => false

end Event

theorem Node.refusals_withRoom {α : Type} [Inhabited α] (node : Node α) (level : Nat)
    (child? : α -> Option Handle) (ledger : Ledger) :
    (node.withRoom level child? ledger).2.events.countP Event.isRefusal =
      ledger.events.countP Event.isRefusal := by
  rw [Node.withRoom]
  split
  · exact List.countP_append
  · rfl

theorem Subtree.refusals_insert {level : Nat} (subtree : Subtree level) (key : Key)
    (value : UInt64) (ledger : Ledger) :
    (subtree.insert key value ledger).2.events.countP Event.isRefusal =
      ledger.events.countP Event.isRefusal := by
  induction subtree using byLevel generalizing ledger with
  | leaf leaf => exact leaf.refusals_withRoom 0 (fun _ => none) ledger
  | @node level node inductionHypothesis =>
      cases held : node.get? (key.chunk (level + 1)) with
      | some child =>
          rw [insert_of_child held]
          exact inductionHypothesis child ledger
      | none =>
          rw [insert_of_gap held]
          exact node.refusals_withRoom (level + 1) (fun child => some child.handle) _

/-- A key is added without the system having a say. -/
theorem Tree.refusals_added (tree : Tree) (key : Key) (value : UInt64) :
    (tree.added key value).2.countP Event.isRefusal = 0 := by
  cases held : tree.root? with
  | none =>
      simp only [added, held]
      rfl
  | some root =>
      simp only [added, held]
      rw [Subtree.refusals_insert]
      split <;> rfl

/-! ## How an insertion goes -/

namespace Tree

variable {tree : Tree} {key : Key}

/-- The pools that have to grow before the key can be added. -/
def growing (tree : Tree) (key : Key) : List PoolId :=
  tree.pools.growing (tree.placement key).demand PoolId.all.toList

/-- The tree when the system has granted some of the requests for room. -/
def shortFor (tree : Tree) (allowance : Allowance) (key : Key) : Tree :=
  { tree with
    pools := tree.pools.grownAll (tree.placement key).demand (allowance.granted (tree.growing key)) }

/-- The demand of the key passes no limit.  It never does where the key is there. -/
def Admits (tree : Tree) (key : Key) : Prop :=
  ∀ limit ∈ tree.limit?, ¬ tree.pools.available limit < (tree.placement key).demand.bytes

private theorem isNone_of_found {old : UInt64} (found : tree.get? key = some old) :
    (tree.placement key).demand.isNone = true := by
  rw [(placement_eq_present_iff tree key).mpr ⟨old, found⟩]
  exact (Pools.isNone_iff Demand.none).mpr Demand.count_none

theorem admits_of_found {old : UInt64} (found : tree.get? key = some old) : tree.Admits key := by
  intro limit _
  rw [Pools.bytes_of_isNone (isNone_of_found found)]
  exact Nat.not_lt_zero _

theorem pools_roomyFor (tree : Tree) (key : Key) :
    (tree.roomyFor key).pools =
      tree.pools.grownAll (tree.placement key).demand (tree.growing key) := by
  rw [roomyFor, Pools.roomFor, Pools.grownFor_eq Pools.nodup_all]
  rfl

/-- The ways in which an insertion goes, whatever the system grants. -/
inductive Attempt (tree : Tree) (allowance : Allowance) (key : Key) (value : UInt64) : Prop
  | present {old : UInt64} (found : tree.get? key = some old)
      (does : tree.insertWithin allowance key value = ⟨tree.replace key value, .ok true, []⟩)
  | excess {limit : Nat} (missed : tree.get? key = none) (limited : tree.limit? = some limit)
      (excess : tree.pools.available limit < (tree.placement key).demand.bytes)
      (does : tree.insertWithin allowance key value =
        ⟨tree, .error ⟨(tree.placement key).demand.bytes, tree.pools.available limit⟩,
          [.overLimit (tree.placement key).demand.bytes (tree.pools.available limit) limit]⟩)
  | granted (missed : tree.get? key = none) (admits : tree.Admits key)
      (covered : allowance.covers (tree.growing key).length = true)
      (does : tree.insertWithin allowance key value = ⟨((tree.roomyFor key).added key value).1,
        .ok false, ((tree.roomyFor key).added key value).2⟩)
  | refused (missed : tree.get? key = none) (admits : tree.Admits key)
      (short : allowance.covers (tree.growing key).length = false)
      (does : tree.insertWithin allowance key value = ⟨tree.shortFor allowance key,
        .error ⟨(tree.placement key).demand.bytes,
          (tree.limit?.map tree.pools.available).getD 0⟩,
        [.refused (tree.placement key).demand.bytes]⟩)

/-- A demand for nothing makes no pool grow. -/
private theorem growing_of_isNone {pools : Pools} {demand : Demand} (nothing : demand.isNone = true)
    (order : List PoolId) : pools.growing demand order = [] := by
  rw [Pools.growing, List.filter_eq_nil_iff]
  intro pool _ grows
  have wanted := Slab.pos_of_mustGrow grows
  rw [(Pools.isNone_iff demand).mp nothing] at wanted
  exact Nat.lt_irrefl 0 wanted

private theorem reserve_of_admits (admits : tree.Admits key) (allowance : Allowance) :
    tree.pools.reserve tree.limit? allowance (tree.placement key).demand =
      if allowance.covers (tree.growing key).length = true then .granted (tree.roomyFor key).pools
      else .refused (tree.shortFor allowance key).pools
        ⟨(tree.placement key).demand.bytes, (tree.limit?.map tree.pools.available).getD 0⟩ := by
  rw [Pools.reserve, pools_roomyFor]
  by_cases nothing : (tree.placement key).demand.isNone = true
  · have none : tree.growing key = [] := growing_of_isNone nothing _
    rw [if_pos nothing, none, List.length_nil, if_pos allowance.covers_zero]
    rfl
  · have under : (tree.limit?.filter fun limit =>
        tree.pools.available limit < (tree.placement key).demand.bytes) = none := by
      rw [Option.filter_eq_none_iff]
      intro limit limited passed
      exact admits limit limited (of_decide_eq_true passed)
    rw [if_neg nothing, under, Pools.grownFor_eq Pools.nodup_all, ← growing]
    cases covered : allowance.covers (tree.growing key).length with
    | false => rfl
    | true =>
        rw [Allowance.granted_of_covers covered]
        rfl

theorem attempt (tree : Tree) (allowance : Allowance) (key : Key) (value : UInt64) :
    Attempt tree allowance key value := by
  by_cases present : tree.placement key = .present
  · rcases (placement_eq_present_iff tree key).mp present with ⟨old, found⟩
    exact .present found (by rw [insertWithin, if_pos present])
  · have missed := placement_ne_present_iff.mp present
    by_cases admits : tree.Admits key
    · have reserved := reserve_of_admits admits allowance
      cases covered : allowance.covers (tree.growing key).length with
      | true =>
          rw [if_pos covered] at reserved
          exact .granted missed admits covered (by rw [insertWithin, if_neg present, reserved]; rfl)
      | false =>
          rw [if_neg (covered ▸ Bool.false_ne_true)] at reserved
          exact .refused missed admits covered (by rw [insertWithin, if_neg present, reserved]; rfl)
    · simp only [Admits, not_forall, not_not] at admits
      rcases admits with ⟨limit, limited, excess⟩
      refine .excess missed limited excess ?_
      rw [insertWithin, if_neg present, limited, Pools.reserve_of_excess excess]

/-! ## Counting requests -/

variable {ρ : Type}

/-- The requests for room that an operation made.  Each that was granted gave one pool more
room, and one that was refused is reported. -/
def requestsMade (before : Tree) (outcome : Outcome Tree ρ) : Nat :=
  (before.pools.gained outcome.state.pools).length + outcome.events.countP Event.isRefusal

/-- How many pools grow in an insertion while every request is granted. -/
def growths (tree : Tree) (key : Key) (value : UInt64) : Nat :=
  (tree.pools.gained (tree.insert key value).state.pools).length

private theorem gained_added (tree : Tree) (key : Key) (value : UInt64) :
    tree.pools.gained ((tree.roomyFor key).added key value).1.pools = tree.growing key := by
  have kept : tree.pools.gained ((tree.roomyFor key).added key value).1.pools =
      tree.pools.gained (tree.roomyFor key).pools := by
    simp only [Pools.gained, capacity_added]
  rw [kept, pools_roomyFor]
  exact Pools.gained_grownAll (List.prefix_refl _)

private theorem gained_shortFor (tree : Tree) (allowance : Allowance) (key : Key) :
    tree.pools.gained (tree.shortFor allowance key).pools = allowance.granted (tree.growing key) :=
  Pools.gained_grownAll (allowance.granted_prefix _)

private theorem gained_self (pools : Pools) : pools.gained pools = [] :=
  Pools.gained_of_kept fun _ => rfl

private theorem mem_of_chain {level : Nat} {pool : PoolId}
    (wanted : 0 < (Demand.chain level).count pool) : pool = ⟨.inner, .c1⟩ ∨ pool = ⟨.leaf, .c1⟩ := by
  rw [Demand.count_chain] at wanted
  by_cases inner : (⟨.inner, .c1⟩ : PoolId) = pool
  · exact Or.inl inner.symm
  · by_cases leaf : (⟨.leaf, .c1⟩ : PoolId) = pool
    · exact Or.inr leaf.symm
    · rw [if_neg inner, if_neg leaf] at wanted
      exact absurd wanted (Nat.lt_irrefl 0)

/-- A node that grows adds one pool to those that a demand takes from. -/
private theorem exists_grown (demand : Demand) (family : Family) (sizeClass : SizeClass)
    (full : Bool) : ∃ larger, forall pool,
      0 < (demand.growth family sizeClass full).count pool -> 0 < demand.count pool ∨ pool = larger := by
  cases next : sizeClass.next? with
  | none =>
      refine ⟨⟨family, sizeClass⟩, fun pool wanted => Or.inl ?_⟩
      cases full <;> simpa only [Demand.growth, next] using wanted
  | some larger =>
      refine ⟨⟨family, larger⟩, fun pool wanted => ?_⟩
      cases full with
      | false => exact Or.inl wanted
      | true =>
          simp only [Demand.growth, next, Demand.count_add] at wanted
          by_cases same : (⟨family, larger⟩ : PoolId) = pool
          · exact Or.inr same.symm
          · rw [if_neg same] at wanted
            exact Or.inl wanted

/-- The pools that a placement may demand nodes from. -/
private theorem exists_third (placement : Placement) :
    ∃ third, forall pool, 0 < placement.demand.count pool ->
      pool = ⟨.inner, .c1⟩ ∨ pool = ⟨.leaf, .c1⟩ ∨ pool = third := by
  cases placement with
  | present =>
      refine ⟨⟨.leaf, .c1⟩, fun pool wanted => ?_⟩
      rw [Placement.demand, Demand.count_none] at wanted
      exact absurd wanted (Nat.lt_irrefl 0)
  | gap level sizeClass full =>
      cases level with
      | zero =>
          rcases exists_grown Demand.none .leaf sizeClass full with ⟨larger, grown⟩
          refine ⟨larger, fun pool wanted => ?_⟩
          have either := grown pool wanted
          rw [Demand.count_none] at either
          exact Or.inr (either.imp (absurd · (Nat.lt_irrefl 0)) id)
      | succ level =>
          rcases exists_grown (Demand.chain level) .inner sizeClass full with ⟨larger, grown⟩
          refine ⟨larger, fun pool wanted => ?_⟩
          exact or_assoc.mp ((grown pool wanted).imp mem_of_chain id)
  | above low high =>
      refine ⟨⟨.inner, .c4⟩, fun pool wanted => ?_⟩
      rw [Placement.demand, Demand.raise, Demand.count_add, Demand.count_add] at wanted
      by_cases inner : (⟨.inner, .c1⟩ : PoolId) = pool
      · exact Or.inl inner.symm
      · by_cases grown : (⟨.inner, .c4⟩ : PoolId) = pool
        · exact Or.inr (Or.inr grown.symm)
        · rw [if_neg inner, if_neg grown] at wanted
          exact or_assoc.mp (Or.inl (mem_of_chain wanted))
  | first level =>
      exact ⟨⟨.leaf, .c1⟩, fun pool wanted => or_assoc.mp (Or.inl (mem_of_chain wanted))⟩

/-- A path takes from two pools, and the node that it joins from at most one more. -/
theorem length_growing_le (tree : Tree) (key : Key) : (tree.growing key).length ≤ 3 := by
  rcases exists_third (tree.placement key) with ⟨third, demanded⟩
  have distinct : (tree.growing key).Nodup := List.Nodup.filter _ Pools.nodup_all
  have within : tree.growing key ⊆ [⟨.inner, .c1⟩, ⟨.leaf, .c1⟩, third] := by
    intro pool mem
    have wanted := demanded pool (Slab.pos_of_mustGrow (Pools.mem_growing.mp mem).2)
    simpa using wanted
  exact (List.subperm_of_subset distinct within).length_le

private theorem growing_of_found {old : UInt64} (found : tree.get? key = some old) :
    tree.growing key = [] :=
  growing_of_isNone (isNone_of_found found) _

theorem growths_of_admits (admits : tree.Admits key) (value : UInt64) :
    tree.growths key value = (tree.growing key).length := by
  cases found : tree.get? key with
  | none =>
      rw [growths, insert_of_fits found admits]
      exact congrArg List.length (gained_added tree key value)
  | some old =>
      rw [growths, insert_of_found found, growing_of_found found]
      exact congrArg List.length (gained_self tree.pools)

theorem growths_of_excess (excess : ¬ tree.Admits key) (value : UInt64) :
    tree.growths key value = 0 := by
  cases settled tree key value with
  | present found => exact absurd (admits_of_found found) excess
  | excess missed limited passed does =>
      rw [growths, does]
      exact congrArg List.length (gained_self tree.pools)
  | fits missed fits does => exact absurd fits excess

/-! ## Why an insertion is refused -/

/-- What stands in the way of a key, and the error that says so.  A key that is there demands
nothing, so nothing stands in its way. -/
inductive Refuses (tree : Tree) (allowance : Allowance) (key : Key) (value : UInt64) :
    OutOfMemory -> Prop
  /-- The nodes that the key demands do not fit under the limit. -/
  | overLimit {limit : Nat} (limited : tree.limit? = some limit)
      (excess : limit - tree.liveBytes < (tree.placement key).demand.bytes) :
      Refuses tree allowance key value
        ⟨(tree.placement key).demand.bytes, limit - tree.liveBytes⟩
  /-- They would fit, but the system grants fewer requests than pools have to grow. -/
  | outOfRoom {most : Nat} (admits : tree.Admits key) (given : allowance = some most)
      (fewer : most < tree.growths key value) :
      Refuses tree allowance key value
        ⟨(tree.placement key).demand.bytes,
          (tree.limit?.map fun limit => limit - tree.liveBytes).getD 0⟩

theorem not_refuses_of_admits (admits : tree.Admits key) {allowance : Allowance}
    (covered : allowance.covers (tree.growing key).length = true) {value : UInt64}
    {shortage : OutOfMemory} : ¬ tree.Refuses allowance key value shortage := by
  intro refuses
  cases refuses with
  | overLimit limited excess => exact admits _ limited excess
  | outOfRoom _ given fewer =>
      rw [growths_of_admits admits] at fewer
      have short := Allowance.covers_eq_false_iff.mpr ⟨_, given, fewer⟩
      rw [covered] at short
      cases short

/-- An insertion is refused when something stands in its way, and with the error that says so. -/
theorem error_iff_refuses (tree : Tree) (allowance : Allowance) (key : Key) (value : UInt64)
    (shortage : OutOfMemory) :
    (tree.insertWithin allowance key value).result = .error shortage ↔
      tree.Refuses allowance key value shortage := by
  cases attempt tree allowance key value with
  | present found does =>
      have covered : allowance.covers (tree.growing key).length = true := by
        rw [growing_of_found found]
        exact allowance.covers_zero
      rw [does]
      exact iff_of_false (fun failed => nomatch failed)
        (not_refuses_of_admits (admits_of_found found) covered)
  | granted missed admits covered does =>
      rw [does]
      exact iff_of_false (fun failed => nomatch failed) (not_refuses_of_admits admits covered)
  | excess missed limited excess does =>
      rw [does]
      constructor
      · intro failed
        cases failed
        exact .overLimit limited excess
      · intro refuses
        cases refuses with
        | overLimit limitedToo =>
            cases Option.some.inj (limited.symm.trans limitedToo)
            rfl
        | outOfRoom admits => exact absurd excess (admits _ limited)
  | refused missed admits short does =>
      rw [does]
      constructor
      · intro failed
        cases failed
        rcases Allowance.covers_eq_false_iff.mp short with ⟨most, given, fewer⟩
        exact .outOfRoom admits given ((growths_of_admits admits value).symm ▸ fewer)
      · intro refuses
        cases refuses with
        | overLimit limited excess => exact absurd excess (admits _ limited)
        | outOfRoom => rfl

/-- Only a key that is not there is refused. -/
theorem Refuses.missed {allowance : Allowance} {value : UInt64} {shortage : OutOfMemory}
    (refuses : tree.Refuses allowance key value shortage) : tree.get? key = none := by
  have failed := (error_iff_refuses tree allowance key value shortage).mpr refuses
  cases attempt tree allowance key value with
  | present found does =>
      rw [does] at failed
      cases failed
  | excess missed | granted missed | refused missed => exact missed

/-! ## Trying again -/

theorem admits_shortFor (admits : tree.Admits key) (allowance : Allowance) :
    (tree.shortFor allowance key).Admits key := by
  intro limit limited
  have gained : Pools.Roomier tree.pools (tree.shortFor allowance key).pools :=
    Pools.roomier_grownAll _ _ _
  rw [Pools.available, gained.liveBytes]
  exact admits limit limited

private theorem growing_shortFor (tree : Tree) {allowance : Allowance} {rest : List PoolId}
    (split : tree.growing key = allowance.granted (tree.growing key) ++ rest) :
    (tree.shortFor allowance key).growing key = rest :=
  Pools.growing_grownAll Pools.nodup_all split

/-- What did not grow at first grows later, and the room is the same. -/
private theorem roomyFor_shortFor (tree : Tree) (allowance : Allowance) (key : Key) :
    (tree.shortFor allowance key).roomyFor key = tree.roomyFor key := by
  rcases allowance.granted_prefix (tree.growing key) with ⟨rest, split⟩
  have pools : ((tree.shortFor allowance key).roomyFor key).pools = (tree.roomyFor key).pools := by
    rw [pools_roomyFor, growing_shortFor tree split.symm, pools_roomyFor]
    calc (tree.pools.grownAll _ (allowance.granted (tree.growing key))).grownAll _ rest
        = tree.pools.grownAll _ (allowance.granted (tree.growing key) ++ rest) :=
          List.foldl_append.symm
      _ = tree.pools.grownAll _ (tree.growing key) := by rw [split]
  simp only [roomyFor, shortFor] at pools ⊢
  rw [pools]

theorem insert_shortFor (missed : tree.get? key = none) (admits : tree.Admits key)
    (allowance : Allowance) (value : UInt64) :
    (tree.shortFor allowance key).insert key value = tree.insert key value := by
  have missedShort : (tree.shortFor allowance key).get? key = none := missed
  rw [insert_of_fits missedShort (admits_shortFor admits allowance), insert_of_fits missed admits,
    roomyFor_shortFor]

/-- Where no limit is passed, a request is made for each pool that has to grow, up to the first
that is refused. -/
theorem requestsMade_of_admits (admits : tree.Admits key) (allowance : Allowance)
    (value : UInt64) :
    tree.requestsMade (tree.insertWithin allowance key value) =
      (allowance.granted (tree.growing key)).length +
        if allowance.covers (tree.growing key).length then 0 else 1 := by
  cases attempt tree allowance key value with
  | present found does =>
      have nothing : tree.pools.gained (tree.replace key value).pools = [] := gained_self tree.pools
      rw [does, requestsMade, nothing, growing_of_found found, Allowance.granted_nil,
        List.length_nil, if_pos allowance.covers_zero]
      rfl
  | excess missed limited excess does => exact absurd excess (admits _ limited)
  | granted missed admits covered does =>
      rw [does, requestsMade, gained_added, refusals_added, Allowance.granted_of_covers covered,
        if_pos covered]
  | refused missed admits short does =>
      rw [does, requestsMade, gained_shortFor, short]
      rfl

/-- No request is made where a limit is passed. -/
theorem requestsMade_of_excess (excess : ¬ tree.Admits key) (allowance : Allowance)
    (value : UInt64) : tree.requestsMade (tree.insertWithin allowance key value) = 0 := by
  cases attempt tree allowance key value with
  | present found => exact absurd (admits_of_found found) excess
  | excess missed limited passed does =>
      rw [does, requestsMade, gained_self]
      rfl
  | granted missed admits | refused missed admits => exact absurd admits excess

/-- Each request is for another pool that has to grow. -/
theorem requestsMade_le (admits : tree.Admits key) (allowance : Allowance) (value : UInt64) :
    tree.requestsMade (tree.insertWithin allowance key value) ≤ (tree.growing key).length := by
  rw [requestsMade_of_admits admits]
  cases covered : allowance.covers (tree.growing key).length with
  | true =>
      rw [Allowance.granted_of_covers covered]
      exact Nat.le_refl _
  | false =>
      rcases Allowance.covers_eq_false_iff.mp covered with ⟨most, limited, fewer⟩
      rw [Option.mem_def.mp limited, Allowance.granted, List.length_take_of_le fewer.le]
      exact fewer

theorem requestsMade_erase (tree : Tree) (key : Key) : tree.requestsMade (tree.erase key) = 0 := by
  have reported : (tree.erase key).events.countP Event.isRefusal = 0 := by
    simp only [erase]
    split
    · split <;> rfl
    · rfl
  rw [requestsMade, Pools.gained_of_kept (givenBack_erase tree key).capacity, reported]
  rfl

/-! ## What a refusal costs -/

/-- An insertion that was refused leaves the tree as it was or with more room for the same key. -/
theorem insert_after_refused {allowance : Allowance} {value : UInt64} {shortage : OutOfMemory}
    (refused : (tree.insertWithin allowance key value).result = .error shortage) :
    (tree.insertWithin allowance key value).state.insert key value = tree.insert key value := by
  cases attempt tree allowance key value with
  | present found does | granted missed admits covered does =>
      rw [does] at refused
      cases refused
  | excess missed limited excess does => rw [does]
  | refused missed admits short does =>
      rw [does]
      exact insert_shortFor missed admits allowance value

/-- Pools have to grow only where no limit is passed. -/
theorem admits_of_growths_pos {value : UInt64} (some : 0 < tree.growths key value) :
    tree.Admits key := by
  by_contra excess
  rw [growths_of_excess excess] at some
  exact Nat.lt_irrefl 0 some

theorem refused_iff_covers (admits : tree.Admits key) (allowance : Allowance) (value : UInt64) :
    (∃ shortage, (tree.insertWithin allowance key value).result = .error shortage) ↔
      allowance.covers (tree.growing key).length = false := by
  cases attempt tree allowance key value with
  | present found does =>
      rw [growing_of_found found, List.length_nil, allowance.covers_zero, does]
      simp
  | excess missed limited excess does => exact absurd excess (admits _ limited)
  | granted missed admits covered does =>
      rw [covered, does]
      simp
  | refused missed admits short does =>
      rw [does]
      exact iff_of_true ⟨_, rfl⟩ short

/-- Growths that were granted are not asked for again. -/
theorem growths_after_few {value : UInt64} {most : Nat} (fewer : most < tree.growths key value) :
    (tree.insertWithin (some most) key value).state.growths key value =
      tree.growths key value - most := by
  have admits := admits_of_growths_pos (Nat.zero_lt_of_lt fewer)
  rw [growths_of_admits admits] at fewer ⊢
  cases attempt tree (some most) key value with
  | present found does =>
      rw [growing_of_found found] at fewer
      cases fewer
  | excess missed limited excess does => exact absurd excess (admits _ limited)
  | granted missed admits covered does =>
      exact absurd fewer (Nat.not_lt.mpr (of_decide_eq_true covered))
  | refused missed admits short does =>
      rw [does, growths_of_admits (admits_shortFor admits _),
        growing_shortFor tree (List.take_append_drop most _).symm, List.length_drop]

/-- What a refusal costs an insertion: the requests that were granted need not be made again. -/
structure Retriable (tree : Tree) : Prop where
  /-- An insertion that was refused and the same one with all room granted leave what the second
  alone leaves. -/
  repeated : forall key value allowance shortage,
    (tree.insertWithin allowance key value).result = .error shortage ->
      (tree.insertWithin allowance key value).state.insert key value = tree.insert key value
  /-- An insertion that is granted too little grows as many pools as it is granted, and the
  others are left to grow. -/
  remaining : forall key value most, most < tree.growths key value ->
    (∃ shortage, (tree.insertWithin (some most) key value).result = .error shortage) ∧
      (tree.insertWithin (some most) key value).state.growths key value =
        tree.growths key value - most
  /-- Where no limit is passed, an insertion is refused exactly when more pools have to grow than
  requests are granted. -/
  refused_iff : forall key value allowance, tree.Admits key ->
    ((∃ shortage, (tree.insertWithin allowance key value).result = .error shortage) ↔
      ∃ most ∈ allowance, most < tree.growths key value)
  /-- It makes a request for each of those pools, up to the first that is refused. -/
  asked : forall key value most, tree.Admits key ->
    tree.requestsMade (tree.insertWithin (some most) key value) =
      min (tree.growths key value) (most + 1)
  atMostThree : forall key value allowance,
    tree.requestsMade (tree.insertWithin allowance key value) ≤ 3
  overwriting : forall key value allowance old, tree.get? key = some old ->
    tree.requestsMade (tree.insertWithin allowance key value) = 0
  overLimit : forall key value allowance, ¬ tree.Admits key ->
    tree.requestsMade (tree.insertWithin allowance key value) = 0
  erasing : forall key, tree.requestsMade (tree.erase key) = 0

theorem retriable (tree : Tree) : tree.Retriable where
  repeated _ _ _ _ refused := insert_after_refused refused
  remaining key value most fewer := by
    have admits := admits_of_growths_pos (Nat.zero_lt_of_lt fewer)
    refine ⟨(refused_iff_covers admits (some most) value).mpr ?_, growths_after_few fewer⟩
    rw [growths_of_admits admits] at fewer
    exact decide_eq_false (Nat.not_le.mpr fewer)
  refused_iff key value allowance admits := by
    rw [growths_of_admits admits, ← Allowance.covers_eq_false_iff]
    exact refused_iff_covers admits allowance value
  asked key value most admits := by
    rw [requestsMade_of_admits admits, growths_of_admits admits, Allowance.granted,
      List.length_take, Allowance.covers]
    by_cases enough : (tree.growing key).length ≤ most
    · rw [if_pos (decide_eq_true enough)]
      omega
    · rw [if_neg (by simpa using enough)]
      omega
  atMostThree key value allowance := by
    by_cases admits : tree.Admits key
    · exact (requestsMade_le admits allowance value).trans (length_growing_le tree key)
    · rw [requestsMade_of_excess admits]
      exact Nat.zero_le 3
  overwriting key value allowance old found := by
    have none := requestsMade_le (admits_of_found found) allowance value
    rw [growing_of_found found] at none
    exact Nat.le_zero.mp none
  overLimit key value allowance excess := requestsMade_of_excess excess allowance value
  erasing key := requestsMade_erase tree key

-- A first path needs room for a leaf and for a node above it; one of the two may be refused.
example : (empty none).growths 256 8 = 2 ∧
    ((empty none).insertWithin (some 1) 256 8).state.growths 256 8 = 1 := by decide +kernel

end Tree
end AdaptiveRadix
