import AdaptiveRadix.Proofs.Tree.Accounts
import AdaptiveRadix.Proofs.Tree.Granted

namespace AdaptiveRadix

/-!
# A limit only refuses

A tree with a byte limit and a tree without one go through the same states, provided
that the second is spared the requests that the first refuses.  So a limit decides
which insertions happen, and nothing about how they happen: not where nodes come to
lie, nor which room is obtained.

`Budgeted` says when it refuses.  What counts against the limit is every node that the
insertion would take, although a node that grows is given back on the way.
-/

namespace Tree

variable {tree : Tree} {key : Key}

/-- The same tree, without its limit. -/
def unlimited (tree : Tree) : Tree :=
  { tree with limit? := none }

/-- The calls that are not refused, with their answers. -/
def heeded (tree : Tree) (requests : List Request) : List (Request × Answer) :=
  (tree.calls requests).filter fun call => !call.2.isRefusal

/-- The bytes of the nodes that are handed out in the course of an insertion. -/
def newBytes (tree : Tree) (key : Key) (value : UInt64) : Nat :=
  ((tree.pools.handedOut (tree.moves (.insert key value none))).map fun handle =>
    handle.pool.nodeBytes).sum

/-! ## One request -/

theorem get?_unlimited (tree : Tree) (key : Key) : tree.unlimited.get? key = tree.get? key :=
  rfl

private theorem added_unlimited (tree : Tree) (key : Key) (value : UInt64) :
    (tree.unlimited.added key value).1 = (tree.added key value).1.unlimited := by
  rcases tree with ⟨_ | root, ceiling, pools, size, limit?⟩ <;> rfl

/-- An insertion does without the limit what it does with it, unless the limit refuses. -/
private theorem insert_unlimited (key : Key) (value : UInt64)
    (heeded : (tree.perform (.insert key value none)).2.isRefusal = false) :
    tree.unlimited.perform (.insert key value none) =
      ((tree.perform (.insert key value none)).1.unlimited,
        (tree.perform (.insert key value none)).2) := by
  have performed : forall tree : Tree, tree.perform (.insert key value none) =
      ((tree.insert key value).state, .inserted (tree.insert key value).result) := fun _ => rfl
  rw [performed] at heeded
  rw [performed, performed]
  rcases settled tree key value with
    ⟨found, does⟩ | ⟨missed, limited, excess, does⟩ | ⟨missed, fits, does⟩
  · rw [does, insert_of_found ((get?_unlimited tree key).trans found)]
    rfl
  · rw [does] at heeded
    cases heeded
  · have free : ∀ limit ∈ tree.unlimited.limit?,
        ¬ tree.unlimited.pools.available limit < (tree.unlimited.placement key).demand.bytes :=
      fun _ impossible => (Option.not_mem_none _ impossible).elim
    rw [does, insert_of_fits ((get?_unlimited tree key).trans missed) free]
    exact congrArg (·, Answer.inserted (.ok false)) (added_unlimited (tree.roomyFor key) key value)

/-- A request that is not refused has the same answer without the limit, and leads to the
same state. -/
theorem perform_unlimited {request : Request} (granted : request.Granted)
    (heeded : (tree.perform request).2.isRefusal = false) :
    tree.unlimited.perform request =
      ((tree.perform request).1.unlimited, (tree.perform request).2) := by
  cases request with
  | insert key value allowance =>
      cases granted
      exact insert_unlimited key value heeded
  | update key value =>
      rw [perform, perform, update, update, get?_unlimited]
      cases tree.get? key <;> rfl
  | erase key =>
      rw [perform, perform, erase, erase, get?_unlimited]
      rcases tree with ⟨_ | root, ceiling, pools, size, limit?⟩
      · rfl
      · cases get? _ key <;> rfl
  | lookup | size | isEmpty | forEach | toList => rfl

/-- A request that is refused leaves no trace. -/
theorem perform_of_refusal {request : Request} (granted : request.Granted)
    (refused : (tree.perform request).2.isRefusal = true) : (tree.perform request).1 = tree := by
  cases request with
  | insert key value allowance =>
      cases granted
      have performed : tree.perform (.insert key value none) =
          ((tree.insert key value).state, .inserted (tree.insert key value).result) := rfl
      rw [performed] at refused ⊢
      rcases settled tree key value with ⟨found, does⟩ | ⟨missed, _, _, does⟩ | ⟨missed, _, does⟩
      · rw [does] at refused
        cases refused
      · rw [does]
      · rw [does] at refused
        cases refused
  | update | erase | lookup | size | isEmpty | forEach | toList => cases refused

/-- Whatever is asked, a tree without the limit gives the answers that are no refusals, and
ends in the same state. -/
theorem calls_unlimited {requests : List Request} (granted : ∀ request ∈ requests, request.Granted)
    (tree : Tree) :
    tree.unlimited.calls ((tree.heeded requests).map Prod.fst) = tree.heeded requests ∧
      tree.unlimited.after ((tree.heeded requests).map Prod.fst) =
        (tree.after requests).unlimited := by
  induction requests generalizing tree with
  | nil => exact ⟨rfl, rfl⟩
  | cons request rest inductionHypothesis =>
      have first := granted request List.mem_cons_self
      have later := inductionHypothesis
        (fun other listed => granted other (List.mem_cons_of_mem request listed))
        (tree.perform request).1
      cases refusal : (tree.perform request).2.isRefusal with
      | true =>
          have skipped : tree.heeded (request :: rest) = (tree.perform request).1.heeded rest := by
            rw [heeded, calls, List.filter_cons_of_neg (by simp [refusal]), heeded]
          have stays := perform_of_refusal first refusal
          rw [stays] at later skipped
          rw [skipped]
          refine ⟨later.1, later.2.trans ?_⟩
          rw [after, after, List.foldl_cons, stays]
      | false =>
          have kept : tree.heeded (request :: rest) =
              (request, (tree.perform request).2) :: (tree.perform request).1.heeded rest := by
            rw [heeded, calls, List.filter_cons_of_pos (by simp [refusal]), heeded]
          have same := perform_unlimited first refusal
          rw [kept, List.map_cons]
          refine ⟨?_, ?_⟩
          · rw [calls, same]
            exact congrArg _ later.1
          · rw [after, List.foldl_cons, same]
            exact later.2

/-! ## When a limit refuses -/

/-- Where no limit stands in the way, a new key costs what its placement demands. -/
theorem newBytes_of_fits (sound : tree.Sound) (missed : tree.get? key = none)
    (fits : ∀ limit ∈ tree.limit?, ¬ tree.pools.available limit < (tree.placement key).demand.bytes)
    (value : UInt64) : tree.newBytes key value = (tree.placement key).demand.bytes := by
  have reserved := Pools.reserve_of_fits fits
  have moves : tree.moves (.insert key value none) =
      tree.pools.reserveMoves tree.limit? none (tree.placement key).demand ++
        (tree.roomyFor key).addedMoves key value := by
    simp only [moves, if_neg (placement_ne_present_iff.mpr missed), reserved]
    rfl
  have taken := taken_granted sound missed (Pools.roomier_roomFor _ _) moves
  calc tree.newBytes key value
      = Pools.bytesOf (Pools.taken (tree.moves (.insert key value none))) :=
        (Pools.bytesOf_taken tree.pools _).symm
    _ = (tree.placement key).demand.bytes := by rw [taken, Pools.bytes_eq]

/-- A tree under a limit beside the same tree without one, and what the limit will do. -/
structure Budgeted (limit : Nat) (limited free : Tree) : Prop where
  same : limited.unlimited = free
  kept : limited.liveBytes ≤ limit
  /-- A request that is not refused does the same to both, with the same answer. -/
  heeded : forall request, request.Granted -> (limited.perform request).2.isRefusal = false ->
    free.perform request = ((limited.perform request).1.unlimited, (limited.perform request).2)
  refused : forall request, request.Granted -> (limited.perform request).2.isRefusal = true ->
    (limited.perform request).1 = limited
  /-- What an insertion takes is what leads to the pools that it leaves behind. -/
  taken : forall key value, free.pools.performAll (free.moves (.insert key value none)) =
    (free.insert key value).state.pools
  /-- Only a new key is refused, and only when the nodes that it takes do not fit. -/
  refused_iff : forall key value,
    (∃ shortage, (limited.insert key value).result = .error shortage) ↔
      limited.get? key = none ∧ limit < limited.liveBytes + free.newBytes key value
  shortage : forall key value shortage, (limited.insert key value).result = .error shortage ->
    shortage = ⟨free.newBytes key value, limit - limited.liveBytes⟩
  overwritten : forall key value old, limited.get? key = some old ->
    (limited.insert key value).result = .ok true
  /-- A larger limit admits whatever this one admits. -/
  larger : forall more, limit ≤ more -> forall key value answer,
    (limited.insert key value).result = .ok answer ->
      (({ limited with limit? := some more } : Tree).insert key value).result = .ok answer

private theorem newBytes_unlimited (sound : tree.Sound) (missed : tree.get? key = none)
    (value : UInt64) : tree.unlimited.newBytes key value = (tree.placement key).demand.bytes := by
  have soundToo : tree.unlimited.Sound :=
    ⟨⟨sound.sound, sound.ceiling⟩, sound.inventory, sound.counted⟩
  exact newBytes_of_fits soundToo missed
    (fun _ impossible => (Option.not_mem_none _ impossible).elim) value

private theorem larger_of_ok {limit more : Nat} (limited : tree.limit? = some limit)
    (order : limit ≤ more) {value : UInt64} {answer : Bool}
    (accepted : (tree.insert key value).result = .ok answer) :
    (({ tree with limit? := some more } : Tree).insert key value).result = .ok answer := by
  have same : ({ tree with limit? := some more } : Tree).get? key = tree.get? key := rfl
  rcases settled tree key value with ⟨found, does⟩ | ⟨missed, _, _, does⟩ | ⟨missed, fits, does⟩
  · rw [does] at accepted
    rw [insert_of_found (same.trans found)]
    exact accepted
  · rw [does] at accepted
    cases accepted
  · have fitsToo : ¬ tree.pools.available more < (tree.placement key).demand.bytes := by
      have under := fits limit limited
      simp only [Pools.available] at under ⊢
      omega
    rw [does] at accepted
    rw [insert_of_fits (same.trans missed) fun _ bound => Option.some.inj bound ▸ fitsToo]
    exact accepted

theorem Solvent.budgeted (solvent : tree.Solvent) {limit : Nat}
    (limited : tree.limit? = some limit) : Budgeted limit tree tree.unlimited := by
  have kept := solvent.kept limit limited
  have available : tree.pools.available limit = limit - tree.liveBytes := rfl
  refine {
    same := rfl
    kept := kept
    heeded := fun _ granted heeded => perform_unlimited granted heeded
    refused := fun _ granted refused => perform_of_refusal granted refused
    taken := fun key value => performAll_moves tree.unlimited (.insert key value none)
    refused_iff := ?_
    shortage := ?_
    overwritten := fun _ value _ found => by rw [insert_of_found found]
    larger := fun _ order _ _ _ accepted => larger_of_ok limited order accepted }
  · intro key value
    rcases settled tree key value with ⟨found, does⟩ | ⟨missed, bound, excess, does⟩ | ⟨missed, fits, does⟩
    · simp [does, found]
    · cases Option.some.inj (limited.symm.trans bound)
      have passed : limit < tree.liveBytes + (tree.placement key).demand.bytes := by omega
      simp [does, missed, newBytes_unlimited solvent.sound missed, passed]
    · have under := fits limit limited
      have within : ¬ limit < tree.liveBytes + (tree.placement key).demand.bytes := by omega
      simp [does, missed, newBytes_unlimited solvent.sound missed, within]
  · intro key value shortage failed
    rcases settled tree key value with ⟨found, does⟩ | ⟨missed, bound, _, does⟩ | ⟨missed, _, does⟩
    · rw [does] at failed
      cases failed
    · cases Option.some.inj (limited.symm.trans bound)
      rw [does] at failed
      rw [newBytes_unlimited solvent.sound missed]
      exact (Except.error.inj failed).symm
    · rw [does] at failed
      cases failed

/-- While the system grants all room, a tree under a limit gives the answers of a tree without
one that is spared the refused requests, and is at every point in its state. -/
theorem budgeted_after (limit : Nat) (requests : List Request)
    (granted : ∀ request ∈ requests, request.Granted) :
    let heeded := (empty (some limit)).heeded requests
    (empty none).calls (heeded.map Prod.fst) = heeded ∧
      Budgeted limit ((empty (some limit)).after requests)
        ((empty none).after (heeded.map Prod.fst)) := by
  rcases calls_unlimited granted (empty (some limit)) with ⟨answers, state⟩
  refine ⟨answers, ?_⟩
  have solvent := solvent_after (solvent_empty (some limit)) requests
  have limited := limit?_after (empty (some limit)) requests
  have same : (empty none).after (((empty (some limit)).heeded requests).map Prod.fst) =
      ((empty (some limit)).after requests).unlimited := state
  rw [same]
  exact solvent.budgeted limited

/-- A hundred bytes admit a leaf and its larger copy, but not the three nodes that raise
the root. -/
theorem budgeted_after_refused_raise :
    (∀ request ∈ [Request.insert 5 7 none, .insert 256 8 none, .insert 6 9 none],
        request.Granted) ∧
      Budgeted 100
        ((empty (some 100)).after [.insert 5 7 none, .insert 256 8 none, .insert 6 9 none])
        ((empty none).after [.insert 5 7 none, .insert 6 9 none]) := by
  have granted : ∀ request ∈ [Request.insert 5 7 none, .insert 256 8 none, .insert 6 9 none],
      request.Granted := by simp [Request.Granted]
  have heeded : ((empty (some 100)).heeded
      [.insert 5 7 none, .insert 256 8 none, .insert 6 9 none]).map Prod.fst =
        [.insert 5 7 none, .insert 6 9 none] := by decide +kernel
  have budgeted := (budgeted_after 100 _ granted).2
  rw [heeded] at budgeted
  exact ⟨granted, budgeted⟩

end Tree
end AdaptiveRadix
