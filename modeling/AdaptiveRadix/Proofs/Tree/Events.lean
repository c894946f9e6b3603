import AdaptiveRadix.Proofs.Tree.Height
import AdaptiveRadix.Proofs.Tree.Posts
import AdaptiveRadix.Proofs.Tree.RequestMoves

namespace AdaptiveRadix

/-!
# What events tell

An operation reports how it has changed the shape of its tree, and nothing else.  What an
insertion reports follows from where the descent for its key ends: at no node, at a root
that is too low, or at a node that is full or has room.  A root that is raised is always
followed by the growth of the topmost wrapper, which has one entry and takes another.

Whoever has seen all events of a tree since it was new knows its height at any time.
-/

/-- An event as it is shown. -/
structure Notice where
  severity : Severity
  message : String
  fields : List (String × String)
deriving DecidableEq, Repr

namespace Event

def notice (event : Event) : Notice :=
  ⟨event.severity, event.message, event.fields⟩

/-- The height that a tree has after an event. -/
def heightAfter (height : Nat) : Event -> Nat
  | created _ level => level + 1
  | raised _ high => high + 1
  | emptied _ => 0
  | grew .. | overLimit .. | refused .. => height

end Event

namespace Placement

/-- What the node reports at which the descent ends. -/
def growth : Placement -> List Event
  | gap level sizeClass true =>
      (sizeClass.next?.map fun larger => .grew (Family.ofLevel level) sizeClass larger level).toList
  | gap _ _ false | present | above _ _ | first _ => []

/-- What is reported when a key is added where the descent ends. -/
def reports (key : Key) : Placement -> List Event
  | above low high => [.raised low high, .grew .inner .c1 .c4 high]
  | first level => [.created key level]
  | gap level sizeClass full => growth (gap level sizeClass full)
  | present => []

/-- A node that grows leaves the height as it is. -/
theorem foldl_heightAfter_growth (placement : Placement) (height : Nat) :
    placement.growth.foldl Event.heightAfter height = height := by
  rcases placement with _ | ⟨level, sizeClass, _ | _⟩ | _ | _
  · rfl
  · rfl
  · rw [growth]
    cases sizeClass.next? <;> rfl
  · rfl
  · rfl

end Placement

theorem Node.events_withRoom {α : Type} [Inhabited α] (node : Node α) (level : Nat)
    (child? : α -> Option Handle) (ledger : Ledger) :
    (node.withRoom level child? ledger).2.events =
      ledger.events ++ (Placement.gap level node.sizeClass node.isFull).growth := by
  cases full : node.isFull with
  | false => simp only [withRoom, full, Placement.growth, List.append_nil]
  | true =>
      cases next : node.sizeClass.next? with
      | none => simp [withRoom, full, next, Placement.growth]
      | some larger => simp [withRoom, full, next, Placement.growth]

namespace Subtree

variable {level : Nat} {subtree : Subtree level} {key : Key}

theorem events_insert (missed : subtree.get? key = none) (value : UInt64) (ledger : Ledger) :
    (subtree.insert key value ledger).2.events =
      ledger.events ++ (subtree.placement key).growth := by
  induction subtree using byLevel generalizing ledger with
  | leaf leaf =>
      have absent : leaf.get? (key.chunk 0) = none := missed
      rw [placement_leaf_of_gap absent]
      exact leaf.events_withRoom 0 (fun _ => none) ledger
  | @node level node inductionHypothesis =>
      cases held : node.get? (key.chunk (level + 1)) with
      | some child =>
          rw [insert_of_child held, placement_of_child held]
          exact inductionHypothesis child ((get?_of_held held rfl).symm.trans missed) ledger
      | none =>
          rw [insert_of_gap held, placement_of_gap held]
          exact node.events_withRoom (level + 1) (fun child => some child.handle) _

/-- The node at which a search for the key comes to its end. -/
structure EndsAt (subtree : Subtree level) (key : Key) (post : Post) : Prop where
  passed : subtree.post? key post.level = some post
  last : ∀ floor < post.level, subtree.post? key floor = none

/-- The descent ends where the search does, and sees how full the node there is. -/
theorem exists_endsAt (sound : subtree.Sound) (missed : subtree.get? key = none) :
    ∃ post, subtree.EndsAt key post ∧ post.handle.pool.family = Family.ofLevel post.level ∧
      subtree.placement key =
        .gap post.level post.sizeClass (post.count == post.sizeClass.capacity) ∧
      post.count ≤ post.sizeClass.capacity ∧
      (post.count = post.sizeClass.capacity -> ∃ larger, post.sizeClass.next? = some larger) := by
  induction subtree using byLevel with
  | leaf leaf =>
      have absent : leaf.get? (key.chunk 0) = none := missed
      have valid := (sound_leaf.mp sound).1
      refine ⟨leaf.post 0 key, ⟨rfl, fun _ lower => (Nat.not_lt_zero _ lower).elim⟩, rfl,
        placement_leaf_of_gap absent, Node.count_le_capacity valid, ?_⟩
      exact fun full => Node.exists_next? valid absent (beq_iff_eq.mpr full)
  | @node level node inductionHypothesis =>
      rcases sound_node.mp sound with ⟨valid, _, children⟩
      cases held : node.get? (key.chunk (level + 1)) with
      | some child =>
          rcases inductionHypothesis child (children _ child held)
            ((get?_of_held held rfl).symm.trans missed) with ⟨post, ends, family, placed, room⟩
          have deeper := (place_of_post? ends.passed).2.2
          refine ⟨post, ⟨?_, ?_⟩, family, (placement_of_child held).trans placed, room⟩
          · rw [post?_below (Nat.lt_succ_of_le deeper).ne, held]
            exact ends.passed
          · intro floor lower
            rw [post?_below (by omega), held]
            exact ends.last floor lower
      | none =>
          refine ⟨node.post (level + 1) key, ⟨post?_top node key, ?_⟩, rfl, placement_of_gap held,
            Node.count_le_capacity valid, ?_⟩
          · intro floor lower
            rw [post?_below (Nat.ne_of_lt lower), held, Option.bind_none]
          · exact fun full => Node.exists_next? valid held (beq_iff_eq.mpr full)

end Subtree

namespace Tree

variable {tree : Tree} {root : Root} {key : Key}

/-- The node at which a search for the key comes to its end. -/
structure EndsAt (tree : Tree) (key : Key) (post : Post) : Prop where
  passed : tree.post? key post.level = some post
  last : ∀ floor < post.level, tree.post? key floor = none

/-- A key that is absent below the ceiling has a path that ends at a node. -/
theorem exists_endsAt (rooted : tree.Rooted) (held : tree.root? = some root)
    (fits : ¬ tree.ceiling < key) (missed : tree.get? key = none) :
    ∃ post, tree.EndsAt key post ∧ post.handle.pool.family = Family.ofLevel post.level ∧
      tree.placement key =
        .gap post.level post.sizeClass (post.count == post.sizeClass.capacity) ∧
      post.count ≤ post.sizeClass.capacity ∧
      (post.count = post.sizeClass.capacity -> ∃ larger, post.sizeClass.next? = some larger) := by
  have inside : key ≤ Key.bound root.level :=
    ceiling_of_root rooted held ▸ UInt64.not_lt.mp fits
  have below : root.top.get? key = none := by
    rw [← Subtree.boundedGet?_of_le root.top inside, ← get?_of_root rooted held]
    exact missed
  have passes : forall floor, tree.post? key floor = root.top.post? key floor := by
    intro floor
    rw [post?_of_root held, if_pos inside]
  rcases Subtree.exists_endsAt (rooted.sound root held).top below with
    ⟨post, ends, family, placed, room⟩
  refine ⟨post, ⟨(passes _).trans ends.passed, ?_⟩, family, ?_, room⟩
  · exact fun floor lower => (passes floor).trans (ends.last floor lower)
  · rw [placement_of_root held, if_neg fits, placed]

/-- A key that is added is reported by what its descent has found. -/
theorem events_added (rooted : tree.Rooted) (missed : tree.get? key = none) (value : UInt64) :
    (tree.added key value).2 = (tree.placement key).reports key := by
  cases held : tree.root? with
  | none =>
      rw [placement_of_none held]
      simp only [added, held, Placement.reports]
  | some root =>
      have told : (tree.added key value).2 =
          ((tree.raisedFor root key).1.top.insert key value
            (tree.raisedFor root key).2).2.events :=
        congrArg Prod.snd (added_eq_of_root held key value)
      rw [told, Subtree.events_insert (get?_raisedFor rooted held missed)]
      by_cases tooLow : tree.ceiling < key
      · rcases placement_raised rooted held tooLow with ⟨lower, placed⟩
        rcases Nat.exists_eq_add_one.mpr (Nat.zero_lt_of_lt lower) with ⟨level, top⟩
        rw [placed, placement_of_root held, if_pos tooLow, raisedFor, if_pos tooLow, top]
        rfl
      · rcases exists_endsAt rooted held tooLow missed with ⟨post, _, _, placed, _⟩
        have same : (tree.raisedFor root key).1.top.placement key = tree.placement key := by
          rw [placement_of_root held, raisedFor, if_neg tooLow, if_neg tooLow]
        rw [same, placed, raisedFor, if_neg tooLow]
        rfl

/-- A removal reports the key that was the last one. -/
theorem events_erase (sound : tree.Sound) (key : Key) :
    (tree.erase key).events =
      if (tree.erase key).result = true ∧ (tree.erase key).state.size = 0 then [.emptied key]
      else [] := by
  have emptied := isEmpty_iff (sound_erase sound key)
  cases found : tree.get? key with
  | none =>
      rw [erase_of_get?_none found]
      rfl
  | some old =>
      rcases exists_root sound.toRooted found with ⟨root, held, _⟩
      have told : (tree.erase key).events =
          if (tree.erase key).state.isEmpty then [.emptied key] else [] := by
        simp only [erase, held, found, isEmpty, Option.isNone_map]
      rw [told, (erase_of_root held found).1]
      simp only [true_and, emptied]

/-! ## What a request reports -/

/-- The events of a request, in their order. -/
def reports (tree : Tree) : Request -> List Event
  | .insert key value allowance => (tree.insertWithin allowance key value).events
  | .erase key => (tree.erase key).events
  | .update .. | .lookup _ | .size | .isEmpty | .forEach | .toList => []

/-- The events of a run, in their order. -/
def story (tree : Tree) : List Request -> List Event
  | [] => []
  | request :: rest => tree.reports request ++ (tree.perform request).1.story rest

/-- What an insertion reports, by its answer and by what has become of the tree. -/
inductive Tells (tree : Tree) (key : Key) : Outcome Tree (Except OutOfMemory Bool) -> Prop
  | created {outcome : Outcome Tree (Except OutOfMemory Bool)}
      (added : outcome.result = .ok false) (empty : tree.isEmpty = true)
      (shown : outcome.events.map Event.notice =
        [⟨.trace, "created tree from empty",
          [("key", toString key.toNat),
            ("root_shift", toString (8 * (outcome.state.height - 1)))]⟩]) :
      Tells tree key outcome
  | raised {outcome : Outcome Tree (Except OutOfMemory Bool)}
      (added : outcome.result = .ok false) (occupied : tree.isEmpty = false)
      (taller : tree.height < outcome.state.height)
      (shown : outcome.events.map Event.notice =
        [⟨.trace, "extended tree height",
          [("old_shift", toString (8 * (tree.height - 1))),
            ("new_shift", toString (8 * (outcome.state.height - 1)))]⟩,
        ⟨.trace, "grew node",
          [("family", "inner"), ("from", "1"), ("to", "4"),
            ("shift", toString (8 * (outcome.state.height - 1)))]⟩]) :
      Tells tree key outcome
  | grew {outcome : Outcome Tree (Except OutOfMemory Bool)} {post : Post} {larger : SizeClass}
      (added : outcome.result = .ok false) (occupied : tree.isEmpty = false)
      (same : outcome.state.height = tree.height) (ends : tree.EndsAt key post)
      (full : post.count = post.sizeClass.capacity) (next : post.sizeClass.next? = some larger)
      (shown : outcome.events.map Event.notice =
        [⟨.trace, "grew node",
          [("family", post.handle.pool.family.label),
            ("from", toString post.sizeClass.capacity), ("to", toString larger.capacity),
            ("shift", toString (8 * post.level))]⟩]) :
      Tells tree key outcome
  | fitted {outcome : Outcome Tree (Except OutOfMemory Bool)} {post : Post}
      (added : outcome.result = .ok false) (occupied : tree.isEmpty = false)
      (same : outcome.state.height = tree.height) (ends : tree.EndsAt key post)
      (room : post.count < post.sizeClass.capacity) (silent : outcome.events = []) :
      Tells tree key outcome
  | rebound {outcome : Outcome Tree (Except OutOfMemory Bool)}
      (present : outcome.result = .ok true) (silent : outcome.events = []) : Tells tree key outcome
  | overLimit {outcome : Outcome Tree (Except OutOfMemory Bool)} {shortage : OutOfMemory}
      {limit : Nat} (failed : outcome.result = .error shortage) (limited : tree.limit? = some limit)
      (left : shortage.available = limit - tree.liveBytes)
      (excess : shortage.available < shortage.requested)
      (shown : outcome.events.map Event.notice =
        [⟨.debug, "node reservation exceeds memory limit",
          [("requested", toString shortage.requested), ("available", toString shortage.available),
            ("limit", toString limit)]⟩]) :
      Tells tree key outcome
  | refused {outcome : Outcome Tree (Except OutOfMemory Bool)} {shortage : OutOfMemory}
      (failed : outcome.result = .error shortage)
      (under : ∀ limit ∈ tree.limit?, shortage.requested ≤ limit - tree.liveBytes)
      (shown : outcome.events.map Event.notice =
        [⟨.debug, "system allocator refused node reservation",
          [("requested", toString shortage.requested),
            ("error",
              "memory allocation failed because the memory allocator returned an error")]⟩]) :
      Tells tree key outcome

/-- A key that is added is reported by what the tree was before, in whatever room there is. -/
private theorem tells_added (rooted : tree.Rooted) (missed : tree.get? key = none) (pools : Pools)
    (value : UInt64) :
    Tells tree key ⟨(({ tree with pools := pools } : Tree).added key value).1, .ok false,
      (({ tree with pools := pools } : Tree).added key value).2⟩ := by
  have roomier : ({ tree with pools := pools } : Tree).Rooted := ⟨rooted.sound, rooted.ceiling⟩
  have events : (({ tree with pools := pools } : Tree).added key value).2 =
      (tree.placement key).reports key := events_added roomier missed value
  have height : (({ tree with pools := pools } : Tree).added key value).1.height =
      max tree.height (key.topLevel + 1) := height_added roomier key value
  generalize ({ tree with pools := pools } : Tree).added key value = added at events height ⊢
  cases held : tree.root? with
  | none =>
      rw [height_of_none held, Nat.zero_max] at height
      rw [placement_of_none held] at events
      refine .created rfl ((isEmpty_iff_height tree).mpr (height_of_none held)) ?_
      rw [events, height]
      rfl
  | some root =>
      have occupied : tree.isEmpty = false := by
        rw [isEmpty, held]
        rfl
      rw [height_of_root held] at height
      by_cases tooLow : tree.ceiling < key
      · have lower := level_lt_topLevel rooted held tooLow
        rw [max_eq_right (Nat.succ_le_succ lower.le)] at height
        rw [placement_of_root held, if_pos tooLow] at events
        refine .raised rfl occupied ?_ ?_
        · rw [height_of_root held, height]
          exact Nat.succ_lt_succ lower
        · rw [events, height, height_of_root held]
          rfl
      · rcases exists_endsAt rooted held tooLow missed with ⟨post, ends, family, placed, most, grows⟩
        rw [max_eq_left (Nat.succ_le_succ (topLevel_le_level rooted held tooLow))] at height
        have same := height.trans (height_of_root held).symm
        rw [placed] at events
        by_cases full : post.count = post.sizeClass.capacity
        · rcases grows full with ⟨larger, next⟩
          refine .grew rfl occupied same ends full next ?_
          rw [events, full, beq_self_eq_true, family]
          simp only [Placement.reports, Placement.growth, next]
          rfl
        · refine .fitted rfl occupied same ends (Nat.lt_of_le_of_ne most full) ?_
          rw [events, beq_false_of_ne full]
          rfl

theorem tells_insertWithin (sound : tree.Sound) (allowance : Allowance) (key : Key)
    (value : UInt64) : Tells tree key (tree.insertWithin allowance key value) := by
  have inserted := Tree.inserted tree allowance key value
  generalize tree.insertWithin allowance key value = outcome at inserted ⊢
  cases inserted with
  | rebound => exact .rebound rfl rfl
  | bound missed => exact tells_added sound.toRooted missed _ value
  | overLimit _ limited excess => exact .overLimit rfl limited rfl excess rfl
  | refused _ _ under =>
      exact .refused rfl (fun limit limited => Nat.le_of_not_lt (under limit limited)) rfl

/-! ## Following the height -/

/-- Where a key is added, the events lead from the height before to the height after. -/
theorem heightAfter_added (rooted : tree.Rooted) (missed : tree.get? key = none) (value : UInt64) :
    (tree.added key value).2.foldl Event.heightAfter tree.height =
      (tree.added key value).1.height := by
  rw [events_added rooted missed, height_added rooted]
  cases held : tree.root? with
  | none =>
      rw [placement_of_none held, height_of_none held, Nat.zero_max]
      rfl
  | some root =>
      rw [height_of_root held]
      by_cases tooLow : tree.ceiling < key
      · rw [placement_of_root held, if_pos tooLow,
          max_eq_right (Nat.succ_le_succ (level_lt_topLevel rooted held tooLow).le)]
        rfl
      · rcases exists_endsAt rooted held tooLow missed with ⟨post, _, _, placed, _⟩
        rw [placed, max_eq_left (Nat.succ_le_succ (topLevel_le_level rooted held tooLow))]
        exact Placement.foldl_heightAfter_growth _ _

/-- Every request reports what it does to the height. -/
theorem heightAfter_reports (sound : tree.Sound) (request : Request) :
    (tree.reports request).foldl Event.heightAfter tree.height = (tree.perform request).1.height := by
  cases request with
  | insert key value allowance =>
      have inserted := Tree.inserted tree allowance key value
      rw [reports, perform]
      generalize tree.insertWithin allowance key value = outcome at inserted ⊢
      cases inserted with
      | rebound => exact (height_replace tree key value).symm
      | bound missed gained => exact heightAfter_added (sound.roomier gained).toRooted missed value
      | overLimit => rfl
      | refused => rfl
  | erase key =>
      have emptied : (tree.erase key).state.size = 0 ↔ (tree.erase key).state.height = 0 := by
        rw [← isEmpty_iff (sound_erase sound key), isEmpty_iff_height]
      rw [reports, events_erase sound, perform]
      split
      · rename_i last
        exact (emptied.mp last.2).symm
      · rename_i kept
        cases found : tree.get? key with
        | none => rw [erase_of_get?_none found, List.foldl_nil]
        | some old =>
            rcases exists_root sound.toRooted found with ⟨root, held, _⟩
            have result := (erase_of_root held found).1
            refine ((height_erase sound key).resolve_left ?_).symm
            exact fun none => kept ⟨result, emptied.mpr none⟩
  | update key value => exact (height_update tree key value).symm
  | lookup | size | isEmpty | forEach | toList => rfl

theorem heightAfter_story (sound : tree.Sound) (requests : List Request) :
    (tree.story requests).foldl Event.heightAfter tree.height = (tree.after requests).height := by
  induction requests generalizing tree with
  | nil => rfl
  | cons request rest inductionHypothesis =>
      rw [story, List.foldl_append, heightAfter_reports sound]
      exact inductionHypothesis (sound_perform sound request)

/-- What the events of a tree tell about it, those of its past and those of the next request. -/
structure Narrated (tree : Tree) (story : List Event) : Prop where
  height : story.foldl Event.heightAfter 0 = tree.height
  empty : story.foldl Event.heightAfter 0 = 0 ↔ tree.isEmpty = true
  inserts : forall key value allowance, tree.Tells key (tree.insertWithin allowance key value)
  erases : forall key, (tree.erase key).events.map Event.notice =
    if (tree.erase key).result = true ∧ (tree.erase key).state.size = 0 then
      [⟨.trace, "tree became empty", [("key", toString key.toNat)]⟩]
    else []
  /-- Only an insertion or a removal has anything to report. -/
  others : forall request, tree.reports request ≠ [] ->
    (∃ key value allowance, request = .insert key value allowance) ∨ ∃ key, request = .erase key

theorem Sound.narrated (sound : tree.Sound) {story : List Event}
    (height : story.foldl Event.heightAfter 0 = tree.height) : tree.Narrated story where
  height := height
  empty := by rw [height, isEmpty_iff_height]
  inserts key value allowance := tells_insertWithin sound allowance key value
  erases key := by
    rw [events_erase sound]
    split <;> rfl
  others request told := by
    cases request with
    | insert key value allowance => exact Or.inl ⟨key, value, allowance, rfl⟩
    | erase key => exact Or.inr ⟨key, rfl⟩
    | update | lookup | size | isEmpty | forEach | toList => exact absurd rfl told

/-- The events of a run of a new tree tell its height after each request. -/
theorem narrated_after (limit? : Option Nat) (requests : List Request) :
    ((empty limit?).after requests).Narrated ((empty limit?).story requests) :=
  (sound_after (sound_empty limit?) requests).narrated
    (heightAfter_story (sound_empty limit?) requests)

end Tree
end AdaptiveRadix
