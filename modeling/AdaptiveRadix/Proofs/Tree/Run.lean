import AdaptiveRadix.Proofs.Tree.Invariant
import AdaptiveRadix.Tree.Request

namespace AdaptiveRadix

/-!
# Runs of a tree

`Inserted` lists everything that an insertion can do, with what is known in each case;
a proof about insertions goes by its cases and never opens the insertion itself.  From
one step for each request, what every state after a run has in common follows by
induction on the list of requests.
-/

namespace Subtree

theorem placement_leaf_of_gap {leaf : Node UInt64} {key : Key}
    (missed : leaf.get? (key.chunk 0) = none) :
    (ofLeaf leaf).placement key = .gap 0 leaf.sizeClass leaf.isFull := by
  simp only [ofLeaf, placement, missed]

theorem placement_of_child {level : Nat} {node : Node (Subtree level)} {child : Subtree level}
    {key : Key} (held : node.get? (key.chunk (level + 1)) = some child) :
    (ofNode node).placement key = child.placement key := by
  simp only [ofNode, placement, held]

theorem placement_of_gap {level : Nat} {node : Node (Subtree level)} {key : Key}
    (missed : node.get? (key.chunk (level + 1)) = none) :
    (ofNode node).placement key = .gap (level + 1) node.sizeClass node.isFull := by
  simp only [ofNode, placement, missed]

/-- The descent finds a key exactly when a search does. -/
theorem placement_eq_present_iff {level : Nat} (subtree : Subtree level) (key : Key) :
    subtree.placement key = .present ↔ ∃ value, subtree.get? key = some value := by
  induction subtree using byLevel with
  | leaf leaf =>
      rw [get?_leaf]
      simp only [ofLeaf, placement]
      cases leaf.get? (key.chunk 0) <;> simp
  | node node inductionHypothesis =>
      rw [get?_node]
      cases held : node.get? (key.chunk _) with
      | some child =>
          rw [placement_of_child held, Option.bind_some]
          exact inductionHypothesis child
      | none => simp [placement_of_gap held]

end Subtree

namespace Tree

variable {tree : Tree} {key : Key}

/-- The descent from the root finds a key exactly when a search does. -/
theorem placement_eq_present_iff (tree : Tree) (key : Key) :
    tree.placement key = .present ↔ ∃ value, tree.get? key = some value := by
  rw [placement, get?]
  cases tree.root? with
  | none => simp
  | some root =>
      by_cases tooLow : tree.ceiling < key
      · simp [tooLow]
      · simp only [tooLow, if_false]
        exact Subtree.placement_eq_present_iff root.top key

/-- The descent ends at a gap exactly when a search misses the key. -/
theorem placement_ne_present_iff : tree.placement key ≠ .present ↔ tree.get? key = none := by
  rw [ne_eq, placement_eq_present_iff, ← Option.isSome_iff_exists, Option.not_isSome_iff_eq_none]

/-- What becomes of an insertion. -/
inductive Inserted (tree : Tree) (key : Key) (value : UInt64) :
    Outcome Tree (Except OutOfMemory Bool) -> Prop
  /-- A key that is present gets the value in place. -/
  | rebound {old : UInt64} (found : tree.get? key = some old) :
      Inserted tree key value ⟨tree.replace key value, .ok true, []⟩
  /-- A key that is absent is added in pools that have room for the whole demand. -/
  | bound {pools : Pools} (missed : tree.get? key = none) (gained : tree.pools.Roomier pools)
      (room : forall pool,
        (pools.slab pool).mustGrow ((tree.placement key).demand.count pool) = false)
      (fits : ∀ limit ∈ tree.limit?, (tree.placement key).demand.bytes = 0 ∨
        tree.pools.liveBytes + (tree.placement key).demand.bytes ≤ limit) :
      Inserted tree key value ⟨(({ tree with pools := pools } : Tree).added key value).1, .ok false,
        (({ tree with pools := pools } : Tree).added key value).2⟩
  /-- The demand passes the limit, and nothing changes. -/
  | overLimit {limit : Nat} (missed : tree.get? key = none) (limited : tree.limit? = some limit)
      (excess : tree.pools.available limit < (tree.placement key).demand.bytes) :
      Inserted tree key value
        ⟨tree, .error ⟨(tree.placement key).demand.bytes, tree.pools.available limit⟩,
          [.overLimit (tree.placement key).demand.bytes (tree.pools.available limit) limit]⟩
  /-- The system refuses, and only room has been gained. -/
  | refused {pools : Pools} (missed : tree.get? key = none) (gained : tree.pools.Roomier pools)
      (under : ∀ limit ∈ tree.limit?,
        ¬ tree.pools.available limit < (tree.placement key).demand.bytes) :
      Inserted tree key value
        ⟨{ tree with pools := pools },
          .error ⟨(tree.placement key).demand.bytes, (tree.limit?.map tree.pools.available).getD 0⟩,
          [.refused (tree.placement key).demand.bytes]⟩

theorem inserted (tree : Tree) (allowance : Allowance) (key : Key) (value : UInt64) :
    Inserted tree key value (tree.insertWithin allowance key value) := by
  rw [insertWithin]
  by_cases present : tree.placement key = .present
  · rw [if_pos present]
    rcases (placement_eq_present_iff tree key).mp present with ⟨old, found⟩
    exact .rebound found
  · rw [if_neg present]
    have missed := placement_ne_present_iff.mp present
    have outcome := Pools.reserved tree.pools tree.limit? allowance (tree.placement key).demand
    cases reservation : tree.pools.reserve tree.limit? allowance (tree.placement key).demand with
    | granted pools =>
        rw [reservation] at outcome
        rcases outcome with ⟨gained, room, fits⟩
        exact .bound missed gained room fits
    | overLimit shortage limit =>
        rw [reservation] at outcome
        rcases outcome with _ | ⟨limited, excess⟩
        exact .overLimit missed limited excess
    | refused pools shortage =>
        rw [reservation] at outcome
        rcases outcome with _ | _ | ⟨gained, under⟩
        exact .refused missed gained under

theorem Inserted.sound {value : UInt64} {outcome : Outcome Tree (Except OutOfMemory Bool)}
    (inserted : Inserted tree key value outcome) (sound : tree.Sound) : outcome.state.Sound := by
  cases inserted with
  | rebound found => exact (replace_keeps sound found value).1
  | bound missed gained => exact (added_keeps (sound.roomier gained) missed value).1
  | overLimit => exact sound
  | refused _ gained => exact sound.roomier gained

theorem sound_insertWithin (sound : tree.Sound) (allowance : Allowance) (key : Key)
    (value : UInt64) : (tree.insertWithin allowance key value).state.Sound :=
  (inserted tree allowance key value).sound sound

/-- An insertion binds its key, or it is refused and the tree has the bindings that it had. -/
theorem bound_or_refused (sound : tree.Sound) (allowance : Allowance) (key : Key) (value : UInt64) :
    (∃ present, (tree.insertWithin allowance key value).result = .ok present ∧
        Changed tree (tree.insertWithin allowance key value).state key (some value)) ∨
      ∃ shortage, (tree.insertWithin allowance key value).result = .error shortage ∧
        (tree.insertWithin allowance key value).state.get? = tree.get? ∧
        (tree.insertWithin allowance key value).state.toList = tree.toList := by
  have inserted := Tree.inserted tree allowance key value
  generalize tree.insertWithin allowance key value = outcome at inserted ⊢
  cases inserted with
  | rebound found => exact Or.inl ⟨true, rfl, (replace_keeps sound found value).2⟩
  | bound missed gained =>
      exact Or.inl ⟨false, rfl, (added_keeps (sound.roomier gained) missed value).2⟩
  | overLimit => exact Or.inr ⟨_, rfl, rfl, rfl⟩
  | refused => exact Or.inr ⟨_, rfl, rfl, rfl⟩

theorem sound_erase (sound : tree.Sound) (key : Key) : (tree.erase key).state.Sound := by
  cases found : tree.get? key with
  | none =>
      rw [erase_of_get?_none found]
      exact sound
  | some old => exact (erase_keeps sound found).1

/-- A removal gives nodes back and asks for no room. -/
theorem givenBack_erase (tree : Tree) (key : Key) :
    Pools.GivenBack tree.pools (tree.erase key).state.pools := by
  cases held : tree.root? with
  | none =>
      have missed := get?_of_none held key
      rw [erase_of_get?_none missed]
      exact Pools.givenBack_of_released []
  | some root =>
      cases found : tree.get? key with
      | none =>
          rw [erase_of_get?_none found]
          exact Pools.givenBack_of_released []
      | some old =>
          rcases root.top.erase_releases key tree.pools with ⟨handles, released⟩
          rw [(erase_of_root held found).2]
          exact released ▸ Pools.givenBack_of_released handles

theorem sound_update (sound : tree.Sound) (key : Key) (value : UInt64) :
    (tree.update key value).1.Sound := by
  rw [update]
  cases found : tree.get? key with
  | none => exact sound
  | some old => exact (replace_keeps sound found value).1

/-- Every request keeps a tree sound. -/
theorem sound_perform (sound : tree.Sound) (request : Request) : (tree.perform request).1.Sound := by
  cases request with
  | insert key value allowance => exact (inserted tree allowance key value).sound sound
  | update key value => exact sound_update sound key value
  | erase key => exact sound_erase sound key
  | lookup | size | isEmpty | forEach | toList => exact sound

/-- What every request keeps holds after every run. -/
theorem after_induction {motive : Tree -> Prop} (step : forall tree request, motive tree ->
    motive (tree.perform request).1) (start : motive tree) (requests : List Request) :
    motive (tree.after requests) := by
  induction requests generalizing tree with
  | nil => exact start
  | cons request rest inductionHypothesis => exact inductionHypothesis (step tree request start)

theorem sound_after (sound : tree.Sound) (requests : List Request) : (tree.after requests).Sound :=
  after_induction (motive := Sound) (fun _ request sound => sound_perform sound request) sound requests

end Tree
end AdaptiveRadix
