import AdaptiveRadix.Proofs.Tree.Census

namespace AdaptiveRadix

/-!
# Classes remember peaks

A node is of the smallest class that its largest count so far fits into.  It moves up when it
is full and one more entry comes, and never moves down; only when its last entry goes does it
go itself, and another node at its place starts over.

`Grows` and `Thins` say what an insertion and a removal do at any one place.  An insertion
that raises the root does two things in a row, so a new node may have moved before it is
ever seen; that is why a new node counts as of the smallest class for its count, and not as
of the smallest class there is.
-/

/-- What an insertion does at a place. -/
inductive Grows : Option Post -> Option Post -> Prop
  | absent : Grows none none
  | fresh {post : Post} (snug : post.sizeClass.Snug post.count) : Grows none (some post)
  | more {post later : Post} (gained : post.count ≤ later.count)
      (snug : forall peak, post.count ≤ peak -> post.sizeClass.Snug peak ->
        later.sizeClass.Snug (max peak later.count)) : Grows (some post) (some later)

namespace Grows

variable {before middle after : Option Post}

theorem refl : (post? : Option Post) -> Grows post? post?
  | none => .absent
  | some _ => .more (Nat.le_refl _) fun _ most snug => (max_eq_left most).symm ▸ snug

theorem trans (first : Grows before middle) (second : Grows middle after) : Grows before after := by
  cases first with
  | absent => exact second
  | fresh snug =>
      cases second with
      | more gained later => exact .fresh (max_eq_right gained ▸ later _ (Nat.le_refl _) snug)
  | more gained snug =>
      cases second with
      | more gainedToo later =>
          refine .more (gained.trans gainedToo) ?_
          intro peak most fits
          have last := later _ (Nat.le_max_right _ _) (snug peak most fits)
          rwa [max_assoc, max_eq_right gainedToo] at last

end Grows

/-- What a removal does at a place. -/
inductive Thins : Option Post -> Option Post -> Prop
  | gone (post? : Option Post) : Thins post? none
  | fewer {post later : Post} (same : later.sizeClass = post.sizeClass)
      (lost : later.count ≤ post.count) : Thins (some post) (some later)

theorem Thins.refl : (post? : Option Post) -> Thins post? post?
  | none => .gone none
  | some _ => .fewer rfl (Nat.le_refl _)

namespace Node

variable {α : Type}

theorem post_replace (node : Node α) (chunk : Chunk) (value : α) (level : Nat) (key : Key) :
    (node.replace chunk value).post level key = node.post level key := by
  rw [post, named_replace]
  rfl

theorem thins_erase (node : Node α) (chunk : Chunk) (level : Nat) (key : Key) :
    Thins (some (node.post level key)) (some ((node.erase chunk).post level key)) :=
  .fewer (node.sizeClass_erase chunk) (Nat.sub_le node.count 1)

theorem grows_vacant [Inhabited α] (slot : Nat) (chunk : Chunk) (value : α) (level : Nat) (key : Key) :
    Grows none (some (((vacant .c1 slot : Node α).insert chunk value).post level key)) := by
  apply Grows.fresh
  change ((vacant .c1 slot : Node α).insert chunk value).sizeClass.Snug 1
  rw [sizeClass_insert, sizeClass_vacant]
  exact .one

theorem grows_insert [Inhabited α] {node : Node α} (valid : node.Valid) {chunk : Chunk}
    (missed : node.get? chunk = none) (value : α) (level : Nat) (child? : α -> Option Handle)
    (ledger : Ledger) (key : Key) :
    Grows (some (node.post level key))
      (some (((node.withRoom level child? ledger).1.insert chunk value).post level key)) := by
  cases full : node.isFull with
  | false =>
      rw [withRoom_of_room full]
      refine .more (Nat.le_succ node.count) ?_
      intro peak most snug
      change (node.insert chunk value).sizeClass.Snug (max peak (node.count + 1))
      change node.count ≤ peak at most
      rw [sizeClass_insert]
      rcases most.eq_or_lt with rfl | below
      · rw [max_eq_right (Nat.le_succ _)]
        exact snug.succ (count_lt_capacity valid full)
      · rw [max_eq_left below]
        exact snug
  | true =>
      rcases exists_next? valid missed full with ⟨larger, next⟩
      have count : node.count = node.sizeClass.capacity := beq_iff_eq.mp full
      rw [withRoom_of_full full next]
      generalize ((ledger.pools.release ⟨⟨.ofLevel level, node.sizeClass⟩, node.slot⟩).take
        ⟨.ofLevel level, larger⟩).1.slot = slot
      have gained : ((node.moved larger slot).insert chunk value).count = node.count + 1 :=
        congrArg (· + 1) (count_moved valid larger slot)
      refine .more ((Nat.le_succ node.count).trans_eq gained.symm) ?_
      intro peak most snug
      change node.count ≤ peak at most
      have reached : peak = node.sizeClass.capacity := Nat.le_antisymm snug.room (count ▸ most)
      change ((node.moved larger slot).insert chunk value).sizeClass.Snug
        (max peak ((node.moved larger slot).insert chunk value).count)
      rw [gained, sizeClass_insert, sizeClass_moved, reached, count, max_eq_right (Nat.le_succ _)]
      exact .next next

end Node

namespace Subtree

variable {level floor : Nat} {leaf : Node UInt64} {node after : Node (Subtree level)}
  {subtree : Subtree level} {child : Subtree level} {chunk : Chunk} {key other : Key}

/-- Below a node with one entry changed, a search passes what it passed or the new child's. -/
private theorem post?_of_child
    (found : forall other, after.get? other = if other = chunk then some child else node.get? other)
    (below : floor ≠ level + 1) (other : Key) :
    (ofNode after).post? other floor =
      if other.chunk (level + 1) = chunk then child.post? other floor
      else (ofNode node).post? other floor := by
  rw [post?_below below, post?_below below, found]
  split <;> rfl

/-! ## Growing -/

private theorem grows_hold_vacant {before : Option Post} (slot : Nat) (pools : Pools)
    (top : floor = level + 1 -> before = none)
    (below : other.chunk (level + 1) = chunk -> Grows before (child.post? other floor))
    (aside : floor ≠ level + 1 -> other.chunk (level + 1) ≠ chunk -> before = none) :
    Grows before ((hold (Node.vacant .c1 slot) chunk child pools).1.post? other floor) := by
  have valid : (Node.vacant .c1 slot : Node (Subtree level)).Valid := Node.valid_vacant .c1 slot
  have missed : forall chunk, (Node.vacant .c1 slot : Node (Subtree level)).get? chunk = none :=
    Node.get?_vacant .c1 slot
  have found := Node.get?_insert valid rfl (missed chunk) child
  by_cases here : floor = level + 1
  · subst floor
    change Grows before ((ofNode ((Node.vacant .c1 slot).insert chunk child)).post? other (level + 1))
    rw [top rfl, post?_top]
    exact Node.grows_vacant slot chunk child (level + 1) other
  · have passed := post?_of_child found here other
    rw [post?_below here (Node.vacant .c1 slot), missed, Option.bind_none] at passed
    change Grows before ((ofNode ((Node.vacant .c1 slot).insert chunk child)).post? other floor)
    rw [passed]
    by_cases same : other.chunk (level + 1) = chunk
    · rw [if_pos same]
      exact below same
    · rw [if_neg same, aside here same]
      exact .absent

theorem grows_chain (key : Key) (value : UInt64) (pools : Pools) (level : Nat) (other : Key)
    (floor : Nat) : Grows none ((chain key value pools level).1.post? other floor) := by
  induction level with
  | zero =>
      change Grows none (if floor = 0 then some _ else none)
      split
      · exact Node.grows_vacant _ (key.chunk 0) value 0 other
      · exact .absent
  | succ level inductionHypothesis =>
      exact grows_hold_vacant _ _ (fun _ => rfl) (fun _ => inductionHypothesis) fun _ _ => rfl

/-- Wrappers are new nodes above the old top; what lies below it is untouched. -/
theorem grows_wrapped (subtree : Subtree level) (pools : Pools) (rise : Nat) (other : Key)
    (floor : Nat) :
    Grows (if other.below (level + rise) = other.below level then subtree.post? other floor else none)
      ((subtree.wrapped pools rise).1.post? other floor) := by
  induction rise with
  | zero => exact (if_pos rfl).symm ▸ Grows.refl _
  | succ rise inductionHypothesis =>
      have kept := other.below_add_succ_eq_iff level rise
      refine grows_hold_vacant _ _ ?_ ?_ ?_
      · intro (top : floor = level + rise + 1)
        rw [post?_of_lt (by omega), ite_self]
      · intro (zero : other.chunk (level + rise + 1) = 0)
        simp only [kept, zero, true_and]
        exact inductionHypothesis
      · intro _ (chunk : other.chunk (level + rise + 1) ≠ 0)
        simp only [kept, chunk, false_and, if_false]

theorem grows_insert {subtree : Subtree level} (sound : subtree.Sound)
    (missed : subtree.get? key = none) (value : UInt64) (ledger : Ledger) (other : Key)
    (floor : Nat) :
    Grows (subtree.post? other floor) ((subtree.insert key value ledger).1.post? other floor) := by
  induction subtree using byLevel generalizing ledger with
  | leaf leaf =>
      rw [insert_leaf, post?_leaf, post?_leaf]
      split
      · exact Node.grows_insert (sound_leaf.mp sound).1 missed value 0 _ ledger other
      · exact .absent
  | @node level node inductionHypothesis =>
      rcases sound_node.mp sound with ⟨valid, _, children⟩
      cases held : node.get? (key.chunk (level + 1)) with
      | some child =>
          rw [insert_of_child held]
          by_cases top : floor = level + 1
          · subst floor
            rw [post?_top, post?_top, Node.post_replace]
            exact Grows.refl _
          · rw [post?_of_child (Node.get?_replace valid held _) top]
            split
            · rename_i same
              have absent := (get?_of_held held rfl).symm.trans missed
              rw [post?_below top, same, held, Option.bind_some]
              exact inductionHypothesis child (children _ child held) absent ledger
            · exact Grows.refl _
      | none =>
          have roomy : Node.Roomy node (roomFor node key value ledger).1 :=
            Node.roomy_withRoom valid held _ _ _
          have absent := (roomy.same (key.chunk (level + 1))).trans held
          rw [insert_of_gap held]
          change Grows _ ((ofNode ((roomFor node key value ledger).1.insert (key.chunk (level + 1))
            (chain key value ledger.pools level).1)).post? other floor)
          by_cases top : floor = level + 1
          · subst floor
            rw [post?_top, post?_top]
            exact Node.grows_insert valid held _ (level + 1) _ _ other
          · have found := Node.get?_insert roomy.valid roomy.room absent
              (chain key value ledger.pools level).1
            have passed : (ofNode (roomFor node key value ledger).1).post? other floor =
                (ofNode node).post? other floor := by
              rw [post?_below top, post?_below top, roomy.same]
            rw [post?_of_child found top, passed]
            split
            · rename_i same
              rw [post?_below top, same, held, Option.bind_none]
              exact grows_chain key value ledger.pools level other floor
            · exact Grows.refl _

/-- A new value leaves every node as it is. -/
theorem post?_replace {old : UInt64} (sound : subtree.Sound) (present : subtree.get? key = some old)
    (value : UInt64) (other : Key) (floor : Nat) :
    (subtree.replace key value).post? other floor = subtree.post? other floor := by
  induction subtree using byLevel with
  | leaf leaf =>
      change (ofLeaf (leaf.replace (key.chunk 0) value)).post? other floor = _
      rw [post?_leaf, post?_leaf, Node.post_replace]
  | @node level node inductionHypothesis =>
      rcases sound_node.mp sound with ⟨valid, _, children⟩
      rw [get?_node] at present
      rcases Option.bind_eq_some_iff.mp present with ⟨child, held, below⟩
      rw [replace_of_child held]
      by_cases top : floor = level + 1
      · subst floor
        rw [post?_top, post?_top, Node.post_replace]
      · rw [post?_of_child (Node.get?_replace valid held _) top]
        split
        · rename_i same
          rw [post?_below top, same, held, Option.bind_some]
          exact inductionHypothesis child (children _ child held) below
        · rfl

/-! ## Pruning -/

private theorem thins_kept {before : Option Post} {subtree : Subtree level}
    (thins : Thins before (subtree.post? other floor)) (pools : Pools) :
    Thins before ((subtree.kept pools).1.bind fun rest => rest.post? other floor) := by
  rw [kept]
  split
  · exact .gone before
  · exact thins

theorem thins_erase {old : UInt64} (sound : subtree.Sound) (present : subtree.get? key = some old)
    (pools : Pools) (other : Key) (floor : Nat) :
    Thins (subtree.post? other floor)
      ((subtree.erase key pools).1.bind fun rest => rest.post? other floor) := by
  induction subtree using byLevel with
  | leaf leaf =>
      rw [erase_leaf]
      apply thins_kept
      rw [post?_leaf, post?_leaf]
      split
      · exact leaf.thins_erase (key.chunk 0) 0 other
      · exact Thins.refl none
  | @node level node inductionHypothesis =>
      rcases sound_node.mp sound with ⟨valid, _, children⟩
      rw [get?_node] at present
      rcases Option.bind_eq_some_iff.mp present with ⟨child, held, below⟩
      have deeper := inductionHypothesis child (children _ child held) below
      rw [erase_of_child held]
      cases rest : (child.erase key pools).1 with
      | some smaller =>
          rw [rest, Option.bind_some] at deeper
          rw [Option.bind_some]
          by_cases top : floor = level + 1
          · subst floor
            rw [post?_top, post?_top, Node.post_replace]
            exact Thins.refl _
          · rw [post?_of_child (Node.get?_replace valid held smaller) top]
            split
            · rename_i same
              rw [post?_below top, same, held, Option.bind_some]
              exact deeper
            · exact Thins.refl _
      | none =>
          apply thins_kept
          by_cases top : floor = level + 1
          · subst floor
            rw [post?_top, post?_top]
            exact node.thins_erase _ (level + 1) other
          · rw [post?_below top, post?_below top, Node.get?_erase valid held]
            split
            · exact .gone _
            · exact Thins.refl _

end Subtree

/-! ## Peaks -/

/-- The largest count of a node so far, after it has been seen once more. -/
def peakAfter (peak : Nat) (post? : Option Post) : Nat :=
  post?.elim 0 fun post => max peak post.count

/-- The peak is that of the node at a place, which is of the smallest class for it. -/
inductive Tracks (peak : Nat) : Option Post -> Prop
  | absent (zero : peak = 0) : Tracks peak none
  | present {post : Post} (most : post.count ≤ peak) (snug : post.sizeClass.Snug peak) :
      Tracks peak (some post)

namespace Tracks

variable {peak : Nat} {before after : Option Post}

theorem grows (tracks : Tracks peak before) (grows : Grows before after) :
    Tracks (peakAfter peak after) after := by
  cases grows with
  | absent => exact .absent rfl
  | @fresh post snug =>
      cases tracks with
      | absent zero =>
          have first : peakAfter peak (some post) = post.count := zero ▸ Nat.zero_max post.count
          rw [first]
          exact .present (Nat.le_refl _) snug
  | more gained snug =>
      cases tracks with
      | present most fits => exact .present (Nat.le_max_right _ _) (snug peak most fits)

theorem thins (tracks : Tracks peak before) (thins : Thins before after) :
    Tracks (peakAfter peak after) after := by
  cases thins with
  | gone => exact .absent rfl
  | @fewer post later same lost =>
      cases tracks with
      | present most snug =>
          have still : peakAfter peak (some later) = peak := max_eq_left (lost.trans most)
          rw [still]
          exact .present (lost.trans most) (same ▸ snug)

end Tracks

namespace Tree

variable {tree : Tree} {root : Root} {key other : Key} {floor : Nat}

/-- Raising a root puts new nodes above it and leaves all others as they are. -/
private theorem grows_raisedFor (rooted : tree.Rooted) (held : tree.root? = some root) (key other : Key)
    (floor : Nat) :
    Grows (if other ≤ Key.bound root.level then root.top.post? other floor else none)
      (if other ≤ Key.bound (tree.raisedFor root key).1.level then
        (tree.raisedFor root key).1.top.post? other floor else none) := by
  have low := (rooted.sound root held).low
  have high := (fitting_raisedFor rooted held key).sound.low
  by_cases tooLow : tree.ceiling < key
  · rw [raisedFor, if_pos tooLow] at high ⊢
    change root.level + (key.topLevel - root.level) ≤ Key.maxLevel at high
    change Grows _ (if other ≤ Key.bound (root.level + (key.topLevel - root.level)) then
      (root.top.wrapped tree.pools (key.topLevel - root.level)).1.post? other floor else none)
    by_cases inside : other ≤ Key.bound (root.level + (key.topLevel - root.level))
    · have grows := root.top.grows_wrapped tree.pools (key.topLevel - root.level) other floor
      rw [(Key.below_eq_toNat_iff high).mpr inside] at grows
      simp only [eq_comm (a := other.toNat), Key.below_eq_toNat_iff low] at grows
      rw [if_pos inside]
      exact grows
    · have outside : ¬ other ≤ Key.bound root.level := fun fits =>
        inside (Key.le_bound_of_le (Nat.le_add_right _ _) high fits)
      rw [if_neg inside, if_neg outside]
      exact .absent
  · rw [raisedFor, if_neg tooLow]
    exact Grows.refl _

theorem grows_added (rooted : tree.Rooted) (missed : tree.get? key = none) (value : UInt64)
    (other : Key) (floor : Nat) :
    Grows (tree.post? other floor) ((tree.added key value).1.post? other floor) := by
  cases held : tree.root? with
  | none =>
      rw [post?_of_none held, added_of_none held, post?_of_root rfl]
      split
      · exact Subtree.grows_chain key value tree.pools key.topLevel other floor
      · exact .absent
  | some root =>
      have fitting := fitting_raisedFor rooted held key
      have absent := get?_raisedFor rooted held missed
      rw [post?_of_root held, added_of_root held, post?_of_root rfl]
      refine (grows_raisedFor rooted held key other floor).trans ?_
      split
      · exact Subtree.grows_insert fitting.sound.top absent value _ other floor
      · exact .absent

theorem post?_replace (rooted : tree.Rooted) {old : UInt64} (found : tree.get? key = some old)
    (value : UInt64) (other : Key) (floor : Nat) :
    (tree.replace key value).post? other floor = tree.post? other floor := by
  rcases exists_root rooted found with ⟨root, held, _, below⟩
  rw [replace_of_root held, post?_of_root held, post?_of_root rfl]
  simp only [Subtree.post?_replace (rooted.sound root held).top below]

theorem thins_erase (rooted : tree.Rooted) (key other : Key) (floor : Nat) :
    Thins (tree.post? other floor) ((tree.erase key).state.post? other floor) := by
  cases found : tree.get? key with
  | none =>
      rw [erase_of_get?_none found]
      exact Thins.refl _
  | some old =>
      rcases exists_root rooted found with ⟨root, held, _, below⟩
      have thins := Subtree.thins_erase (rooted.sound root held).top below tree.pools other floor
      rw [post?_of_root held, (erase_of_root held found).2]
      cases left : (root.top.erase key tree.pools).1 with
      | none =>
          rw [post?_of_none rfl]
          exact .gone _
      | some smaller =>
          rw [left, Option.bind_some] at thins
          rw [post?_of_root rfl]
          split
          · exact thins
          · exact Thins.refl none

/-- Whatever an insertion answers, it only adds to what there is at a place. -/
theorem grows_insertWithin (rooted : tree.Rooted) (allowance : Allowance) (key : Key) (value : UInt64)
    (other : Key) (floor : Nat) :
    Grows (tree.post? other floor)
      ((tree.insertWithin allowance key value).state.post? other floor) := by
  have inserted := Tree.inserted tree allowance key value
  generalize tree.insertWithin allowance key value = outcome at inserted ⊢
  cases inserted with
  | rebound found => exact (post?_replace rooted found value other floor).symm ▸ Grows.refl _
  | @bound pools missed =>
      have roomier : ({ tree with pools := pools } : Tree).Rooted := ⟨rooted.sound, rooted.ceiling⟩
      exact grows_added roomier missed value other floor
  | overLimit => exact Grows.refl _
  | refused => exact Grows.refl _

/-- A peak follows the node at its place through every request. -/
theorem tracks_perform (rooted : tree.Rooted) {peak : Nat} (tracks : Tracks peak (tree.post? other floor))
    (request : Request) :
    Tracks (peakAfter peak ((tree.perform request).1.post? other floor))
      ((tree.perform request).1.post? other floor) := by
  cases request with
  | insert key value allowance =>
      exact tracks.grows (grows_insertWithin rooted allowance key value other floor)
  | update key value =>
      apply tracks.grows
      change Grows _ ((tree.update key value).1.post? other floor)
      rw [update]
      cases found : tree.get? key with
      | none => exact Grows.refl _
      | some old => exact (post?_replace rooted found value other floor).symm ▸ Grows.refl _
  | erase key => exact tracks.thins (thins_erase rooted key other floor)
  | lookup | size | isEmpty | forEach | toList => exact tracks.grows (Grows.refl _)

/-- The peaks of all places, each by level and stem, after one more request. -/
def peaksAfter (tree : Tree) (peaks : Nat -> Nat -> Nat) (request : Request) (level stem : Nat) : Nat :=
  peakAfter (peaks level stem) ((tree.perform request).1.postAt? level stem)

/-- The peaks of all places after a run. -/
def peaks (tree : Tree) (before : Nat -> Nat -> Nat) : List Request -> Nat -> Nat -> Nat
  | [] => before
  | request :: rest => (tree.perform request).1.peaks (tree.peaksAfter before request) rest

/-- Every peak is that of the node at its place. -/
def Tracked (tree : Tree) (peaks : Nat -> Nat -> Nat) : Prop :=
  forall level stem, Tracks (peaks level stem) (tree.postAt? level stem)

/-- There is nothing at a stem that no key has. -/
theorem postAt?_eq_none (rooted : tree.Rooted) {level stem : Nat}
    (unused : forall key : Key, key.above (level + 1) ≠ stem) : tree.postAt? level stem = none := by
  cases found : tree.postAt? level stem with
  | none => rfl
  | some post =>
      rcases (postAt?_eq_some_iff rooted).mp found with ⟨met, rfl, rfl⟩
      rcases (mem_posts_iff rooted).mp met with ⟨key, passed⟩
      exact absurd (place_of_post? passed).2.symm (unused key)

theorem tracked_perform (sound : tree.Sound) {peaks : Nat -> Nat -> Nat} (tracked : tree.Tracked peaks)
    (request : Request) : (tree.perform request).1.Tracked (tree.peaksAfter peaks request) := by
  have after := (sound_perform sound request).toRooted
  intro level stem
  rw [peaksAfter]
  by_cases used : ∃ key : Key, key.above (level + 1) = stem
  · rcases used with ⟨key, rfl⟩
    have tracks := tracked level (key.above (level + 1))
    rw [← post?_eq_postAt? sound.toRooted] at tracks
    rw [← post?_eq_postAt? after]
    exact tracks_perform sound.toRooted tracks request
  · rw [postAt?_eq_none after (not_exists.mp used)]
    exact .absent rfl

theorem tracked_after (sound : tree.Sound) {before : Nat -> Nat -> Nat} (tracked : tree.Tracked before)
    (requests : List Request) : (tree.after requests).Tracked (tree.peaks before requests) := by
  induction requests generalizing tree before with
  | nil => exact tracked
  | cons request rest inductionHypothesis =>
      exact inductionHypothesis (sound_perform sound request) (tracked_perform sound tracked request)

/-- What the classes of the nodes have to do with their peaks. -/
structure Peaked (tree : Tree) (peaks : Nat -> Nat -> Nat) : Prop where
  /-- The nodes in use are the posts, one at each place, whose stem its keys have in common. -/
  live : forall handle,
    (tree.pools.anchor? handle).isSome = true ↔ handle ∈ tree.posts.map Post.handle
  single : ∀ post ∈ tree.posts, tree.postAt? post.level post.stem = some post
  stem : ∀ post ∈ tree.posts, (tree.keysUnder post.level post.stem).Nonempty
  /-- The class of a node is the smallest for its peak. -/
  snug : ∀ post ∈ tree.posts,
    post.count ≤ peaks post.level post.stem ∧ post.sizeClass.Snug (peaks post.level post.stem)
  /-- A node that lasts moves to a larger class or to none, and moves only to pass its peak. -/
  lasts : forall request, ∀ post ∈ tree.posts,
    ∀ later ∈ (tree.perform request).1.postAt? post.level post.stem,
      post.sizeClass.capacity ≤ later.sizeClass.capacity ∧
        (later.count ≤ peaks post.level post.stem -> later.sizeClass = post.sizeClass)

theorem Sound.peaked (sound : tree.Sound) {peaks : Nat -> Nat -> Nat} (tracked : tree.Tracked peaks) :
    tree.Peaked peaks := by
  have rooted := sound.toRooted
  have single : ∀ post ∈ tree.posts, tree.postAt? post.level post.stem = some post :=
    fun post met => (postAt?_eq_some_iff rooted).mpr ⟨met, rfl, rfl⟩
  have snug : ∀ post ∈ tree.posts, post.count ≤ peaks post.level post.stem ∧
      post.sizeClass.Snug (peaks post.level post.stem) := by
    intro post met
    have tracks := tracked post.level post.stem
    rw [single post met] at tracks
    cases tracks with
    | present most snug => exact ⟨most, snug⟩
  refine ⟨fun _ => (mem_handles_iff sound).symm, single, ?_, snug, ?_⟩
  · intro post met
    rcases exists_chunks rooted met with ⟨chunks, _, counted, positive, listed⟩
    rcases List.exists_mem_of_length_pos (counted.symm ▸ positive) with ⟨chunk, member⟩
    rcases (listed chunk).mp member with ⟨key, present, same, _⟩
    exact ⟨key, Finset.mem_filter.mpr ⟨present, same⟩⟩
  · intro request post met later found
    have tracks := tracked_perform sound tracked request post.level post.stem
    rw [peaksAfter, found] at tracks
    have before := (snug post met).2
    cases tracks with
    | present most after =>
        change later.sizeClass.Snug (max (peaks post.level post.stem) later.count) at after
        refine ⟨before.least _ ((Nat.le_max_left _ _).trans after.room), ?_⟩
        intro refilled
        rw [max_eq_left refilled] at after
        exact after.unique before

theorem tracked_empty (limit? : Option Nat) : (empty limit?).Tracked fun _ _ => 0 :=
  fun _ _ => .absent rfl

/-- After every run of a new tree, each node is of the smallest class for the largest count
that it has had. -/
theorem peaked_after (limit? : Option Nat) (requests : List Request) :
    ((empty limit?).after requests).Peaked ((empty limit?).peaks (fun _ _ => 0) requests) :=
  (sound_after (sound_empty limit?) requests).peaked
    (tracked_after (sound_empty limit?) (tracked_empty limit?) requests)

end Tree
end AdaptiveRadix
