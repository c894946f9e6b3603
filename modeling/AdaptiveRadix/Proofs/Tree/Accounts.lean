import AdaptiveRadix.Proofs.Tree.RequestMoves

namespace AdaptiveRadix
namespace Tree

/-!
# What a run takes from the pools

An insertion of an absent key first makes room and then takes exactly what its placement
demands, so no slot is opened without room, and the bytes in use stay below what the
reservation allowed for at every moment.  A limit that is kept when a request is granted
is therefore kept throughout.
-/

variable {tree : Tree} {key : Key}

private theorem limit?_added (tree : Tree) (key : Key) (value : UInt64) :
    (tree.added key value).1.limit? = tree.limit? := by
  cases held : tree.root? with
  | none => rw [added_of_none held]
  | some root => rw [added_of_root held]

theorem limit?_perform (tree : Tree) (request : Request) :
    (tree.perform request).1.limit? = tree.limit? := by
  cases request with
  | insert key value allowance =>
      rw [perform]
      have inserted := Tree.inserted tree allowance key value
      generalize tree.insertWithin allowance key value = outcome at inserted
      cases inserted with
      | rebound | overLimit | refused => rfl
      | bound => exact limit?_added _ key value
  | update key value =>
      rw [perform, update]
      cases tree.get? key <;> rfl
  | erase key =>
      rw [perform, erase]
      cases tree.root? <;> cases tree.get? key <;> rfl
  | lookup | size | isEmpty | forEach | toList => rfl

/-- A sound tree whose pools have room for the slots that are open, within its limit. -/
structure Solvent (tree : Tree) : Prop where
  sound : tree.Sound
  opened : tree.pools.Opened
  kept : ∀ limit ∈ tree.limit?, tree.liveBytes ≤ limit

theorem solvent_empty (limit? : Option Nat) : (empty limit?).Solvent where
  sound := sound_empty limit?
  opened := Pools.opened_empty
  kept limit _ := Pools.liveBytes_empty.trans_le (Nat.zero_le limit)

/-- Room that was made is room for what an insertion takes. -/
theorem hasRoomFor_addedMoves (sound : tree.Sound) (opened : tree.pools.Opened)
    (missed : tree.get? key = none)
    (room : forall pool,
      (tree.pools.slab pool).mustGrow ((tree.placement key).demand.count pool) = false)
    (value : UInt64) : tree.pools.HasRoomFor (tree.addedMoves key value) := by
  intro pool
  rw [taken_addedMoves sound.toRooted missed]
  exact Pools.live_add_count_le sound.inventory opened room pool

/-- What the moves of a request take from the pools. -/
inductive Spending (tree : Tree) : Request -> Prop
  /-- Nothing: the request adds no key. -/
  | none {request : Request} (nothing : forall pool, Pools.taken (tree.moves request) pool = 0) :
      Spending tree request
  /-- What the placement of a new key demands, out of the room that was granted for it. -/
  | granted {key : Key} {value : UInt64} {allowance : Allowance} {pools : Pools}
      (missed : tree.get? key = none)
      (reserved : tree.pools.reserve tree.limit? allowance (tree.placement key).demand =
        .granted pools)
      (moves : tree.moves (.insert key value allowance) =
        tree.pools.reserveMoves tree.limit? allowance (tree.placement key).demand ++
          ({ tree with pools := pools } : Tree).addedMoves key value) :
      Spending tree (.insert key value allowance)

private theorem spending_insert (tree : Tree) (key : Key) (value : UInt64) (allowance : Allowance) :
    Spending tree (.insert key value allowance) := by
  by_cases present : tree.placement key = .present
  · apply Spending.none
    intro pool
    rw [moves, if_pos present]
    rfl
  · have missed := placement_ne_present_iff.mp present
    cases reserved : tree.pools.reserve tree.limit? allowance (tree.placement key).demand with
    | granted pools =>
        apply Spending.granted missed reserved
        rw [moves, if_neg present, reserved]
    | overLimit | refused =>
        apply Spending.none
        intro pool
        rw [moves, if_neg present, reserved, List.append_nil]
        exact Pools.taken_reserveMoves _ _ _ _ pool

theorem spending (tree : Tree) (request : Request) : Spending tree request := by
  cases request with
  | insert key value allowance => exact spending_insert tree key value allowance
  | erase key =>
      apply Spending.none
      intro pool
      rw [moves]
      split
      · exact Subtree.taken_eraseMoves _ key tree.pools pool
      · rfl
  | update | lookup | size | isEmpty | forEach | toList => exact .none fun _ => rfl

/-- What the moves of a granted insertion take is what its placement demands. -/
theorem taken_granted (sound : tree.Sound) {value : UInt64} {allowance : Allowance}
    {pools : Pools} (missed : tree.get? key = none) (gained : tree.pools.Roomier pools)
    (moves : tree.moves (.insert key value allowance) =
      tree.pools.reserveMoves tree.limit? allowance (tree.placement key).demand ++
        ({ tree with pools := pools } : Tree).addedMoves key value) :
    Pools.taken (tree.moves (.insert key value allowance)) = (tree.placement key).demand.count := by
  have rooted : ({ tree with pools := pools } : Tree).Rooted :=
    (sound.roomier gained).toRooted
  funext pool
  rw [moves, Pools.taken_append, Pools.taken_reserveMoves, Nat.zero_add]
  exact taken_addedMoves rooted missed value pool

/-- The bytes that a request takes fit under a limit that is kept. -/
theorem liveBytes_add_taken_le (solvent : tree.Solvent) {limit : Nat}
    (limited : tree.limit? = some limit) (request : Request) :
    tree.liveBytes + Pools.bytesOf (Pools.taken (tree.moves request)) ≤ limit := by
  have kept := solvent.kept limit limited
  cases spending tree request with
  | none nothing => rwa [Pools.bytesOf, PoolId.total_of_zero nothing, Nat.add_zero]
  | @granted key value allowance pools missed reserved moves =>
      have outcome := Pools.reserved tree.pools tree.limit? allowance (tree.placement key).demand
      rw [reserved] at outcome
      rcases outcome with ⟨gained, room, fits⟩
      rw [taken_granted solvent.sound missed gained moves, ← Pools.bytes_eq]
      rcases fits limit limited with nothing | fit
      · rwa [nothing, Nat.add_zero]
      · exact fit

/-- At no moment of a request do the bytes in use pass the limit. -/
theorem liveBytes_le_limit (solvent : tree.Solvent) {limit : Nat}
    (limited : tree.limit? = some limit) {request : Request} {first : List Move}
    (starts : first <+: tree.moves request) : (tree.pools.performAll first).liveBytes ≤ limit :=
  Nat.le_trans (Pools.liveBytes_moment_le tree.pools starts)
    (liveBytes_add_taken_le solvent limited request)

private theorem opened_moves (solvent : tree.Solvent) (request : Request) :
    (tree.pools.performAll (tree.moves request)).Opened := by
  have sound := solvent.sound.inventory.sound
  cases spending tree request with
  | none nothing =>
      exact (Pools.hasRoomFor_of_taken_zero nothing sound solvent.opened).opened sound solvent.opened
  | @granted key value allowance pools missed reserved moves =>
      have outcome := Pools.reserved tree.pools tree.limit? allowance (tree.placement key).demand
      rw [reserved] at outcome
      rcases outcome with ⟨gained, room, fits⟩
      have roomier := solvent.sound.roomier gained
      have opened := gained.opened solvent.opened
      rw [moves, Pools.performAll_append, Pools.performAll_reserveMoves, reserved]
      exact (hasRoomFor_addedMoves roomier opened missed room value).opened roomier.inventory.sound
        opened

theorem solvent_perform (solvent : tree.Solvent) (request : Request) :
    (tree.perform request).1.Solvent where
  sound := sound_perform solvent.sound request
  opened := performAll_moves tree request ▸ opened_moves solvent request
  kept := by
    intro limit limited
    rw [limit?_perform] at limited
    rw [liveBytes, ← performAll_moves]
    exact liveBytes_le_limit solvent limited List.prefix_rfl

theorem solvent_after (solvent : tree.Solvent) (requests : List Request) :
    (tree.after requests).Solvent :=
  after_induction (motive := Solvent) (fun _ request solvent => solvent_perform solvent request)
    solvent requests

theorem limit?_after (tree : Tree) (requests : List Request) :
    (tree.after requests).limit? = tree.limit? :=
  after_induction (motive := fun later => later.limit? = tree.limit?)
    (fun later request same => (limit?_perform later request).trans same) rfl requests

/-! ## The accounts of one insertion -/

/-- What becomes of the room that was granted for a placement: the moves that lead from
the pools with that room to the pools of the final tree, held against the demand. -/
structure Spent (tree : Tree) (placement : Placement) (roomier : Pools) (moves : List Move)
    (final : Tree) : Prop where
  performed : roomier.performAll moves = final.pools
  /-- Every pool hands out what was demanded of it. -/
  taken : forall pool, Pools.taken moves pool = placement.demand.count pool
  /-- A slot is opened only while there is room for it. -/
  roomy : forall first pool rest, moves = first ++ .take pool :: rest ->
    ((roomier.performAll first).slab pool).firstFree? = none ->
      ((roomier.performAll first).slab pool).size < ((roomier.performAll first).slab pool).capacity
  /-- At no moment is more in use than there was and what was demanded. -/
  moments : forall first, first <+: moves ->
    (roomier.performAll first).liveBytes ≤ tree.liveBytes + placement.demand.bytes
  /-- The node that had to grow is given back, and no other. -/
  released : Pools.releases moves = placement.outgrown?.toList
  /-- In each pool the nodes in use are more by what was demanded, but for the one given back. -/
  nodes : forall pool, final.pools.liveNodes pool + placement.outgrown?.toList.count pool =
    tree.pools.liveNodes pool + placement.demand.count pool
  settled : final.liveBytes + placement.outgrown?.elim 0 PoolId.nodeBytes =
    tree.liveBytes + placement.demand.bytes

private theorem sum_nodeBytes_toList (own? : Option PoolId) :
    (own?.toList.map PoolId.nodeBytes).sum = own?.elim 0 PoolId.nodeBytes := by
  cases own? <;> rfl

/-- In room made for its demand, an addition spends that demand and no more. -/
theorem spent_added {roomier : Pools} (solvent : tree.Solvent) (missed : tree.get? key = none)
    (gained : tree.pools.Roomier roomier)
    (room : forall pool,
      (roomier.slab pool).mustGrow ((tree.placement key).demand.count pool) = false)
    (value : UInt64) :
    Spent tree (tree.placement key) roomier
      (({ tree with pools := roomier } : Tree).addedMoves key value)
      (({ tree with pools := roomier } : Tree).added key value).1 := by
  have sound : ({ tree with pools := roomier } : Tree).Sound := solvent.sound.roomier gained
  have slabs : roomier.Sound := sound.inventory.sound
  have opened : roomier.Opened := gained.opened solvent.opened
  have performed := performAll_addedMoves { tree with pools := roomier } key value
  have taken := taken_addedMoves sound.toRooted missed value
  have released := releases_addedMoves sound.toRooted missed value
  have enough := hasRoomFor_addedMoves sound opened missed room value
  have honest := honest_addedMoves sound missed value
  have unchanged : roomier.liveBytes = tree.liveBytes := gained.liveBytes
  generalize ({ tree with pools := roomier } : Tree).addedMoves key value = moves at *
  have bytes : Pools.bytesOf (Pools.taken moves) = (tree.placement key).demand.bytes := by
    rw [Pools.bytes_eq]
    exact congrArg Pools.bytesOf (funext taken)
  refine ⟨performed, taken, ?_, ?_, released, ?_, ?_⟩
  · intro first pool rest divided noneWaits
    rw [divided] at enough
    exact enough.performAll.size_lt_capacity (Pools.sound_performAll slabs first) noneWaits
  · intro first starts
    have bounded := Pools.liveBytes_moment_le roomier starts
    rwa [unchanged, bytes] at bounded
  · intro pool
    have balance := Pools.liveNodes_performAll slabs honest pool
    rwa [performed, Pools.givenBack, released, taken, gained.liveNodes] at balance
  · have balance := Pools.liveBytes_performAll slabs honest
    rw [performed, Pools.bytesOf_givenBack, released, bytes, unchanged] at balance
    rw [← sum_nodeBytes_toList]
    exact balance

/-- Only an insertion that was granted its room adds a key. -/
theorem granted_of_added {allowance : Allowance} {value : UInt64}
    (added : (tree.insertWithin allowance key value).result = .ok false) :
    ∃ roomier, tree.pools.reserve tree.limit? allowance (tree.placement key).demand =
      .granted roomier := by
  rw [insertWithin] at added
  by_cases present : tree.placement key = .present
  · rw [if_pos present] at added
    cases added
  · rw [if_neg present] at added
    cases reserved : tree.pools.reserve tree.limit? allowance (tree.placement key).demand with
    | granted roomier => exact ⟨roomier, rfl⟩
    | overLimit | refused =>
        rw [reserved] at added
        cases added

/-- What holds of the moves of every request that a tree may get. -/
structure Accounted (limit? : Option Nat) (tree : Tree) : Prop where
  /-- An insertion of an absent key spends the demand that was granted to it. -/
  spent : forall key value allowance roomier, tree.get? key = none ->
    tree.pools.reserve limit? allowance (tree.placement key).demand = .granted roomier ->
      Spent tree (tree.placement key) roomier
        (({ tree with pools := roomier } : Tree).addedMoves key value)
        (tree.insertWithin allowance key value).state
  performed : forall request,
    tree.pools.performAll (tree.moves request) = (tree.perform request).1.pools
  /-- At no moment of a request is more in use than the limit allows. -/
  within : forall request first, first <+: tree.moves request ->
    ∀ limit ∈ limit?, (tree.pools.performAll first).liveBytes ≤ limit

theorem Solvent.accounted (solvent : tree.Solvent) : Accounted tree.limit? tree where
  spent := by
    intro key value allowance roomier missed granted
    have outcome := Pools.reserved tree.pools tree.limit? allowance (tree.placement key).demand
    rw [granted] at outcome
    rcases outcome with ⟨gained, room, fits⟩
    rw [insertWithin, if_neg (placement_ne_present_iff.mpr missed), granted]
    exact spent_added solvent missed gained room value
  performed := performAll_moves tree
  within _ _ starts _ limited := liveBytes_le_limit solvent limited starts

/-- After every run of a new tree, its insertions spend what they are granted and its limit
is kept at every moment. -/
theorem accounted_after (limit? : Option Nat) (requests : List Request) :
    Accounted limit? ((empty limit?).after requests) := by
  have limited : ((empty limit?).after requests).limit? = limit? :=
    limit?_after (empty limit?) requests
  have accounted := (solvent_after (solvent_empty limit?) requests).accounted
  rwa [limited] at accounted

/-- Raising the root of a tree with one key: the wrapper, a leaf and the wrapper's larger
copy are taken, 104 bytes, and the wrapper of 24 is given back. -/
theorem accounted_after_raise :
    ((empty (some 1000)).after [.insert 5 7 none]).get? 256 = none ∧
      ∃ roomier, Spent ((empty (some 1000)).after [.insert 5 7 none]) (.above 0 1) roomier
        (({ (empty (some 1000)).after [.insert 5 7 none] with pools := roomier } : Tree).addedMoves
          256 8)
        (((empty (some 1000)).after [.insert 5 7 none]).insertWithin none 256 8).state := by
  have missed : ((empty (some 1000)).after [.insert 5 7 none]).get? 256 = none := by decide +kernel
  have placement : ((empty (some 1000)).after [.insert 5 7 none]).placement 256 = .above 0 1 := by
    decide +kernel
  have added : (((empty (some 1000)).after [.insert 5 7 none]).insertWithin none 256 8).result =
      .ok false := by decide +kernel
  rcases granted_of_added added with ⟨roomier, granted⟩
  rw [limit?_after] at granted
  have accounted := accounted_after (some 1000) [.insert 5 7 none]
  have spent := accounted.spent 256 8 none roomier missed granted
  rw [placement] at spent
  exact ⟨missed, roomier, spent⟩

end Tree
end AdaptiveRadix
