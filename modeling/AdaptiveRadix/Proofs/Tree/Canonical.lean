import AdaptiveRadix.Proofs.Tree.Granted
import AdaptiveRadix.Proofs.Tree.Refinement
import AdaptiveRadix.Proofs.Tree.Shape
import AdaptiveRadix.Proofs.Tree.WellFormed

namespace AdaptiveRadix

/-!
# Trees that only grew

A tree from which nothing was removed has the shape that its keys call for: each node is
of the smallest class with room for its entries, and the root is as high as the largest
key needs.  Both survive every way in which an insertion can go, whether it makes a path
below a tall root or raises a low one, and together they leave one shape for each map.
So the order in which keys came does not show.
-/

namespace SizeClass

/-- The class is the smallest that has room for so many entries. -/
structure Snug (sizeClass : SizeClass) (count : Nat) : Prop where
  room : count ≤ sizeClass.capacity
  least : forall other : SizeClass, count ≤ other.capacity -> sizeClass.capacity ≤ other.capacity

namespace Snug

variable {sizeClass other : SizeClass} {count : Nat}

theorem unique (snug : sizeClass.Snug count) (snugToo : other.Snug count) : sizeClass = other := by
  have same := Nat.le_antisymm (snug.least other snugToo.room) (snugToo.least sizeClass snug.room)
  cases sizeClass <;> cases other <;> first | rfl | cases same

theorem one : c1.Snug 1 where
  room := Nat.le_refl 1
  least other _ := by cases other <;> decide

theorem succ (snug : sizeClass.Snug count) (room : count < sizeClass.capacity) :
    sizeClass.Snug (count + 1) where
  room := room
  least other more := snug.least other (Nat.le_of_succ_le more)

/-- One entry more than a class can take is just what makes the next class the smallest. -/
theorem next (next : sizeClass.next? = some other) : other.Snug (sizeClass.capacity + 1) where
  room := capacity_lt_of_next? next
  least third more := by
    cases sizeClass <;> cases next <;> cases third <;> revert more <;> decide

end Snug
end SizeClass

namespace Node

variable {α β : Type} {view : α -> β}

/-- A node that is snug before an insertion is snug after it, moved or not. -/
theorem snug_insert [Inhabited α] {node : Node α} (valid : node.Valid)
    (snug : node.sizeClass.Snug node.count) {chunk : Chunk} (missed : node.get? chunk = none)
    (value : α) (level : Nat) (child? : α -> Option Handle) (ledger : Ledger) :
    let after := (node.withRoom level child? ledger).1.insert chunk value
    after.sizeClass.Snug after.count := by
  intro after
  have sizeClass : after.sizeClass = (node.withRoom level child? ledger).1.sizeClass :=
    sizeClass_insert _ chunk value
  have count : after.count = (node.withRoom level child? ledger).1.count + 1 := rfl
  cases full : node.isFull with
  | false =>
      rw [withRoom_of_room full] at sizeClass count
      rw [sizeClass, count]
      exact snug.succ (count_lt_capacity valid full)
  | true =>
      rcases exists_next? valid missed full with ⟨larger, next⟩
      rw [withRoom_of_full full next] at sizeClass count
      rw [sizeClass, count, sizeClass_moved, count_moved valid, beq_iff_eq.mp full]
      exact .next next

theorem snug_replace {node : Node α} (snug : node.sizeClass.Snug node.count) (chunk : Chunk)
    (value : α) : (node.replace chunk value).sizeClass.Snug (node.replace chunk value).count :=
  (sizeClass_replace node chunk value).symm ▸ snug

/-- Snug nodes with the same entries have the same shape. -/
theorem shape_eq_of_snug {first second : Node α} (valid : first.Valid) (validToo : second.Valid)
    (snug : first.sizeClass.Snug first.count) (snugToo : second.sizeClass.Snug second.count)
    (same : forall chunk, (first.get? chunk).map view = (second.get? chunk).map view) :
    first.shape view = second.shape view := by
  have listed := (listing valid).map view
  rw [funext same] at listed
  have lengths := congrArg List.length (listed.eq ((listing validToo).map view))
  simp only [List.length_map, length_bindings, valid.counted, validToo.counted] at lengths
  rw [lengths] at snug
  exact (shape_eq_iff valid validToo).mpr ⟨snug.unique snugToo, same⟩

end Node

namespace Subtree

variable {level : Nat} {key : Key}

/-- Every node is of the smallest class that its entries fit into. -/
def Snug : {level : Nat} -> Subtree level -> Prop
  | 0, (leaf : Node UInt64) => leaf.sizeClass.Snug leaf.count
  | _ + 1, (node : Node (Subtree _)) =>
      node.sizeClass.Snug node.count ∧
        forall chunk child, node.get? chunk = some child -> child.Snug

theorem snug_leaf {leaf : Node UInt64} : (ofLeaf leaf).Snug ↔ leaf.sizeClass.Snug leaf.count :=
  Iff.rfl

theorem snug_node {node : Node (Subtree level)} :
    (ofNode node).Snug ↔ node.sizeClass.Snug node.count ∧
      forall chunk child, node.get? chunk = some child -> child.Snug :=
  Iff.rfl

theorem snug_of_mem {subtree : Subtree level} (sound : subtree.Sound) (snug : subtree.Snug)
    (edge : Anchor) : ∀ site ∈ subtree.sites edge, site.sizeClass.Snug site.count := by
  induction subtree using byLevel generalizing edge with
  | leaf leaf =>
      intro site listed
      cases List.mem_singleton.mp listed
      exact snug_leaf.mp snug
  | node node inductionHypothesis =>
      rcases sound_node.mp sound with ⟨valid, _, children⟩
      intro site listed
      rw [sites_node] at listed
      rcases List.mem_cons.mp listed with rfl | below
      · exact (snug_node.mp snug).1
      · rcases List.mem_flatMap.mp below with ⟨binding, member, inside⟩
        have held := (Node.mem_bindings_iff valid).mp member
        exact inductionHypothesis binding.2 (children _ _ held) ((snug_node.mp snug).2 _ _ held) _
          site inside

/-! ## Growing -/

/-- What a node holds after one entry was added or changed is snug if the new part is. -/
private theorem snug_children {before after : Node (Subtree level)} {chunk : Chunk}
    {child : Subtree level}
    (snug : forall chunk child, before.get? chunk = some child -> child.Snug) (new : child.Snug)
    (found : forall other, after.get? other = if other = chunk then some child else before.get? other) :
    forall chunk child, after.get? chunk = some child -> child.Snug := by
  intro other held looked
  rw [found] at looked
  split at looked
  · exact Option.some.inj looked ▸ new
  · exact snug other held looked

private theorem snug_hold_vacant {child : Subtree level} (snug : child.Snug) (slot : Nat)
    (chunk : Chunk) (pools : Pools) : (hold (Node.vacant .c1 slot) chunk child pools).1.Snug := by
  have valid : (Node.vacant .c1 slot : Node (Subtree level)).Valid := Node.valid_vacant .c1 slot
  have found := Node.get?_insert valid rfl (Node.get?_vacant .c1 slot chunk) child
  refine snug_node.mpr ⟨.one, snug_children (fun other held looked => ?_) snug found⟩
  rw [Node.get?_vacant] at looked
  cases looked

theorem snug_chain (key : Key) (value : UInt64) (pools : Pools) (level : Nat) :
    (chain key value pools level).1.Snug := by
  induction level with
  | zero => exact snug_leaf.mpr .one
  | succ level inductionHypothesis => exact snug_hold_vacant inductionHypothesis _ _ _

theorem snug_wrapped {subtree : Subtree level} (snug : subtree.Snug) (pools : Pools) (rise : Nat) :
    (subtree.wrapped pools rise).1.Snug := by
  induction rise with
  | zero => exact snug
  | succ rise inductionHypothesis => exact snug_hold_vacant inductionHypothesis _ _ _

theorem snug_insert {subtree : Subtree level} (sound : subtree.Sound) (snug : subtree.Snug)
    (missed : subtree.get? key = none) (value : UInt64) (ledger : Ledger) :
    (subtree.insert key value ledger).1.Snug := by
  induction subtree using byLevel generalizing ledger with
  | leaf leaf =>
      exact Node.snug_insert (sound_leaf.mp sound).1 (snug_leaf.mp snug) missed value 0 _ ledger
  | @node level node inductionHypothesis =>
      rcases sound_node.mp sound with ⟨valid, _, children⟩
      rcases snug_node.mp snug with ⟨here, below⟩
      cases held : node.get? (key.chunk (level + 1)) with
      | some child =>
          have absent := (get?_of_held held rfl).symm.trans missed
          have grown := inductionHypothesis child (children _ child held) (below _ child held) absent
            ledger
          rw [insert_of_child held]
          exact snug_node.mpr ⟨Node.snug_replace here _ _,
            snug_children below grown (Node.get?_replace valid held _)⟩
      | none =>
          have roomy : Node.Roomy node (roomFor node key value ledger).1 :=
            Node.roomy_withRoom valid held _ _ _
          have found := Node.get?_insert roomy.valid roomy.room ((roomy.same _).trans held)
            (chain key value ledger.pools level).1
          simp only [roomy.same] at found
          rw [insert_of_gap held]
          exact snug_node.mpr ⟨Node.snug_insert valid here held _ _ _ _,
            snug_children below (snug_chain key value ledger.pools level) found⟩

theorem snug_replace {subtree : Subtree level} (sound : subtree.Sound) (snug : subtree.Snug)
    {old : UInt64} (found : subtree.get? key = some old) (value : UInt64) :
    (subtree.replace key value).Snug := by
  induction subtree using byLevel with
  | leaf leaf => exact Node.snug_replace (snug_leaf.mp snug) _ value
  | @node level node inductionHypothesis =>
      rcases sound_node.mp sound with ⟨valid, _, children⟩
      rcases snug_node.mp snug with ⟨here, below⟩
      rw [get?_node] at found
      rcases Option.bind_eq_some_iff.mp found with ⟨child, held, looked⟩
      have changed := inductionHypothesis child (children _ child held) (below _ child held) looked
      rw [replace_of_child held]
      exact snug_node.mpr ⟨Node.snug_replace here _ _,
        snug_children below changed (Node.get?_replace valid held _)⟩

/-! ## One shape for each map -/

/-- Keys with the same lower part are the same to a subtree. -/
theorem get?_congr (subtree : Subtree level) {key other : Key}
    (same : key.below level = other.below level) : subtree.get? key = subtree.get? other := by
  induction subtree using byLevel with
  | leaf leaf => rw [get?_leaf, get?_leaf, Key.below_zero_inj.mp same]
  | node node inductionHypothesis =>
      rcases Key.below_succ_inj.mp same with ⟨chunks, lower⟩
      rw [get?_node, get?_node, chunks]
      exact Option.bind_congr fun child _ => inductionHypothesis child lower

/-- A sound subtree has a key. -/
theorem exists_key {subtree : Subtree level} (sound : subtree.Sound) (low : level ≤ Key.maxLevel) :
    ∃ key value, subtree.get? key = some value := by
  rcases List.exists_mem_of_ne_nil _ (bindings_ne_nil sound 0 0) with ⟨⟨key, value⟩, listed⟩
  have found := (listing sound low 0 (Key.aligned_zero (level + 1))).mem_iff.mp listed
  exact ⟨key, value, (Option.ite_none_right_eq_some.mp found).2⟩

/-- A node that differs from another in what it holds differs from it in a key. -/
private theorem held_of_get?_eq {first second : Node (Subtree level)} (sound : (ofNode first).Sound)
    (low : level + 1 ≤ Key.maxLevel)
    (same : forall key, (ofNode first).get? key = (ofNode second).get? key) {chunk : Chunk}
    {child : Subtree level} (held : first.get? chunk = some child) :
    ∃ childToo, second.get? chunk = some childToo ∧
      forall key, child.get? key = childToo.get? key := by
  have agree : forall key, child.get? key = (second.get? chunk).bind fun other => other.get? key := by
    intro key
    rcases Key.exists_chunk_above low chunk key with ⟨whole, rfl, lower⟩
    have looked := same whole
    rw [get?_node, get?_node, held, Option.bind_some, get?_congr child lower] at looked
    refine looked.trans (Option.bind_congr fun other _ => get?_congr other lower)
  cases heldToo : second.get? chunk with
  | some childToo =>
      rw [heldToo] at agree
      exact ⟨childToo, rfl, agree⟩
  | none =>
      have childSound := (sound_node.mp sound).2.2 chunk child held
      rcases exists_key childSound (Nat.le_of_succ_le low) with ⟨key, value, found⟩
      have missed := agree key
      rw [heldToo, found] at missed
      cases missed

/-- Snug subtrees with the same keys and values have the same shape. -/
theorem shape_eq_of_get?_eq {first second : Subtree level} (low : level ≤ Key.maxLevel)
    (sound : first.Sound) (soundToo : second.Sound) (snug : first.Snug) (snugToo : second.Snug)
    (same : forall key, first.get? key = second.get? key) : first.shape = second.shape := by
  induction level with
  | zero =>
      refine Node.shape_eq_of_snug (sound_leaf.mp sound).1 (sound_leaf.mp soundToo).1
        (snug_leaf.mp snug) (snug_leaf.mp snugToo) ?_
      intro chunk
      rcases Key.exists_chunk_zero chunk with ⟨key, rfl⟩
      exact congrArg (Option.map id) (same key)
  | succ level inductionHypothesis =>
      rcases sound_node.mp sound with ⟨valid, _, children⟩
      rcases sound_node.mp soundToo with ⟨validToo, _, childrenToo⟩
      rcases snug_node.mp snug with ⟨here, below⟩
      rcases snug_node.mp snugToo with ⟨hereToo, belowToo⟩
      refine Node.shape_eq_of_snug valid validToo here hereToo ?_
      intro chunk
      cases held : Node.get? first chunk with
      | some child =>
          rcases held_of_get?_eq sound low same held with ⟨childToo, heldToo, agree⟩
          rw [heldToo]
          exact congrArg some (inductionHypothesis (Nat.le_of_succ_le low) (children _ _ held)
            (childrenToo _ _ heldToo) (below _ _ held) (belowToo _ _ heldToo) agree)
      | none =>
          cases heldToo : Node.get? second chunk with
          | none => rfl
          | some childToo =>
              rcases held_of_get?_eq soundToo low (fun key => (same key).symm) heldToo with
                ⟨child, clash, _⟩
              rw [held] at clash
              cases clash

end Subtree

namespace Tree

variable {tree first second : Tree} {key : Key}

/-- A sound tree of snug nodes, whose root is no higher than some key needs. -/
structure Grown (tree : Tree) : Prop extends Sound tree where
  snug : ∀ root ∈ tree.root?, root.top.Snug
  needed : ∀ root ∈ tree.root?, ∃ key value, tree.get? key = some value ∧ key.topLevel = root.level

theorem grown_empty (limit? : Option Nat) : (empty limit?).Grown where
  toSound := sound_empty limit?
  snug _ impossible := (Option.not_mem_none _ impossible).elim
  needed _ impossible := (Option.not_mem_none _ impossible).elim

namespace Grown

/-- A key that one tree has lies below the root of another that has it too. -/
private theorem level_le (grown : first.Grown) (sound : second.Sound)
    (same : forall key, first.get? key = second.get? key) {root rootToo : Root}
    (held : first.root? = some root) (heldToo : second.root? = some rootToo) :
    root.level ≤ rootToo.level := by
  rcases grown.needed root held with ⟨key, value, found, top⟩
  rcases exists_root sound.toRooted ((same key).symm.trans found) with ⟨other, otherHeld, fits, _⟩
  cases Option.some.inj (heldToo.symm.trans otherHeld)
  rw [← top]
  exact (Key.le_bound_iff (sound.sound _ heldToo).low).mp fits

private theorem root?_eq_none (grown : first.Grown)
    (same : forall key, first.get? key = second.get? key) (held : second.root? = none) :
    first.root? = none := by
  cases heldToo : first.root? with
  | none => rfl
  | some root =>
      rcases grown.needed root heldToo with ⟨key, value, found, _⟩
      rw [same, get?_of_none held] at found
      cases found

/-- Trees that only grew have the same shape when they have the same keys and values. -/
theorem shape?_eq (grown : first.Grown) (grownToo : second.Grown)
    (same : forall key, first.get? key = second.get? key) : first.shape? = second.shape? := by
  rw [shape?, shape?]
  cases heldToo : second.root? with
  | none => rw [grown.root?_eq_none same heldToo]
  | some rootToo =>
      cases held : first.root? with
      | none =>
          have none := grownToo.root?_eq_none (fun key => (same key).symm) held
          exact absurd (heldToo.symm.trans none) (Option.some_ne_none rootToo)
      | some root =>
          have levels := Nat.le_antisymm (grown.level_le grownToo.toSound same held heldToo)
            (grownToo.level_le grown.toSound (fun key => (same key).symm) heldToo held)
          rcases grown.sound root held with ⟨low, top⟩
          rcases grownToo.sound rootToo heldToo with ⟨_, topToo⟩
          have snug := grown.snug root held
          have snugToo := grownToo.snug rootToo heldToo
          have looked := get?_of_root grown.toRooted held
          have lookedToo := get?_of_root grownToo.toRooted heldToo
          rcases root with ⟨level, root⟩
          rcases rootToo with ⟨_, rootToo⟩
          cases levels
          have agree : forall key, root.get? key = rootToo.get? key := by
            intro key
            rcases Key.exists_below_eq low (key.below_lt level) with ⟨inner, fits, lower⟩
            rw [← root.get?_congr lower, ← rootToo.get?_congr lower,
              ← Subtree.boundedGet?_of_le root fits, ← Subtree.boundedGet?_of_le rootToo fits]
            exact (looked inner).symm.trans ((same inner).trans (lookedToo inner))
          exact congrArg (fun shape => some (⟨level, shape⟩ : Sigma Shape))
            (Subtree.shape_eq_of_get?_eq low top topToo snug snugToo agree)

end Grown

/-! ## Insertions keep a tree snug -/

variable {value : UInt64}

private theorem found_of_changed {after : Tree} (changed : Changed tree after key (some value))
    {other : Key} {old : UInt64} (found : tree.get? other = some old) :
    ∃ new, after.get? other = some new := by
  rw [changed other]
  split
  · exact ⟨value, rfl⟩
  · exact ⟨old, found⟩

private theorem grown_of_root (sound : tree.Sound) {root : Root} (held : tree.root? = some root)
    (snug : root.top.Snug)
    (needed : ∃ key value, tree.get? key = some value ∧ key.topLevel = root.level) :
    tree.Grown where
  toSound := sound
  snug _ heldToo := Option.some.inj (held.symm.trans heldToo) ▸ snug
  needed _ heldToo := Option.some.inj (held.symm.trans heldToo) ▸ needed

theorem grown_replace (grown : tree.Grown) {old : UInt64} (found : tree.get? key = some old)
    (value : UInt64) : (tree.replace key value).Grown := by
  rcases replace_keeps grown.toSound found value with ⟨sound, changed⟩
  rcases exists_root grown.toRooted found with ⟨root, held, _, below⟩
  have heldAfter : (tree.replace key value).root? = some ⟨root.level, root.top.replace key value⟩ :=
    congrArg root? (replace_of_root held key value)
  have snug := Subtree.snug_replace (grown.sound root held).top (grown.snug root held) below value
  rcases grown.needed root held with ⟨other, bound, looked, top⟩
  rcases found_of_changed changed looked with ⟨new, kept⟩
  exact grown_of_root sound heldAfter snug ⟨other, new, kept, top⟩

private theorem snug_raisedFor (grown : tree.Grown) {root : Root} (held : tree.root? = some root)
    (key : Key) : (tree.raisedFor root key).1.top.Snug := by
  by_cases tooLow : tree.ceiling < key
  · rw [raisedFor, if_pos tooLow]
    exact Subtree.snug_wrapped (grown.snug root held) tree.pools _
  · rw [raisedFor, if_neg tooLow]
    exact grown.snug root held

theorem grown_added (grown : tree.Grown) (missed : tree.get? key = none) (value : UInt64) :
    (tree.added key value).1.Grown := by
  rcases added_keeps grown.toSound missed value with ⟨sound, changed⟩
  have bound : (tree.added key value).1.get? key = some value := (changed key).trans (if_pos rfl)
  cases held : tree.root? with
  | none =>
      have snug := Subtree.snug_chain key value tree.pools key.topLevel
      exact grown_of_root sound (congrArg root? (added_of_none held key value)) snug
        ⟨key, value, bound, rfl⟩
  | some root =>
      have fitting := fitting_raisedFor grown.toRooted held key
      have absent := get?_raisedFor grown.toRooted held missed
      have snug := Subtree.snug_insert fitting.sound.top (snug_raisedFor grown held key) absent value
        (tree.raisedFor root key).2
      refine grown_of_root sound (congrArg root? (added_of_root held key value)) snug ?_
      change ∃ (other : Key) (new : UInt64), _ ∧ other.topLevel = (tree.raisedFor root key).1.level
      rw [level_raisedFor grown.toRooted held key]
      by_cases tooLow : tree.ceiling < key
      · exact ⟨key, value, bound, (if_pos tooLow).symm⟩
      · rcases grown.needed root held with ⟨other, old, found, top⟩
        rcases found_of_changed changed found with ⟨new, kept⟩
        exact ⟨other, new, kept, top.trans (if_neg tooLow).symm⟩

theorem Grown.snug_of_mem_sites (grown : tree.Grown) :
    ∀ site ∈ tree.sites, site.sizeClass.Snug site.count := by
  rw [sites]
  cases held : tree.root? with
  | none => exact fun _ impossible => (List.not_mem_nil impossible).elim
  | some root =>
      exact Subtree.snug_of_mem (grown.sound root held).top (grown.snug root held) Anchor.root

theorem Grown.roomier (grown : tree.Grown) {pools : Pools} (gained : tree.pools.Roomier pools) :
    ({ tree with pools := pools } : Tree).Grown where
  toSound := grown.toSound.roomier gained
  snug := grown.snug
  needed := grown.needed

/-- However an insertion goes, it leaves a tree that only grew. -/
theorem grown_insertWithin (grown : tree.Grown) (allowance : Allowance) (key : Key)
    (value : UInt64) : (tree.insertWithin allowance key value).state.Grown := by
  have inserted := Tree.inserted tree allowance key value
  generalize tree.insertWithin allowance key value = outcome at inserted ⊢
  cases inserted with
  | rebound found => exact grown_replace grown found value
  | bound missed gained => exact grown_added (grown.roomier gained) missed value
  | overLimit => exact grown
  | refused _ gained => exact grown.roomier gained

end Tree

/-! ## Insertions in any order -/

/-- What an insertion is given. -/
structure Insertion where
  key : Key
  value : UInt64
  allowance : Allowance

namespace Insertion

def request (insertion : Insertion) : Request :=
  .insert insertion.key insertion.value insertion.allowance

/-- The finite map that some insertions end with. -/
def bound (insertions : List Insertion) : Reference :=
  insertions.foldl (fun map insertion => map.insert insertion.key insertion.value) ∅

end Insertion

namespace Tree

/-- No insertion of the list is refused. -/
def Accepts (tree : Tree) (insertions : List Insertion) : Prop :=
  ∀ call ∈ tree.calls (insertions.map Insertion.request), call.2.isRefusal = false

/-- The tree after some insertions. -/
def filled (tree : Tree) (insertions : List Insertion) : Tree :=
  tree.after (insertions.map Insertion.request)

/-- Accepted insertions take a tree that only grew, and the map that it has, one step further
at a time. -/
private theorem filled_keeps {insertions : List Insertion} {tree : Tree} {map : Reference}
    (grown : tree.Grown) (agrees : Agrees tree map) (accepts : tree.Accepts insertions) :
    (tree.filled insertions).Grown ∧ Agrees (tree.filled insertions)
      (insertions.foldl (fun map insertion => map.insert insertion.key insertion.value) map) := by
  induction insertions generalizing tree map with
  | nil => exact ⟨grown, agrees⟩
  | cons insertion rest inductionHypothesis =>
      rcases insertion with ⟨key, value, allowance⟩
      rcases List.forall_mem_cons.mp accepts with ⟨accepted, later⟩
      rcases agrees.insertWithin key value allowance with ⟨next, conforms, stillAgrees⟩
      have bound : next = map.insert key value := by
        change (Answer.inserted (tree.insertWithin allowance key value).result).isRefusal = false
          at accepted
        generalize (tree.insertWithin allowance key value).result = result at conforms accepted
        cases conforms with
        | rebound | bound => rfl
        | refused => cases accepted
      subst next
      exact inductionHypothesis (grown_insertWithin grown allowance key value) stillAgrees later

/-- Insertions that are all accepted and end with the same map leave trees that look the same,
in which every node is of the smallest class that its entries fit into. -/
theorem canonical_filled {limit? limitToo? : Option Nat} {first second : List Insertion}
    (accepts : (empty limit?).Accepts first) (acceptsToo : (empty limitToo?).Accepts second)
    (same : Insertion.bound first = Insertion.bound second) :
    ((empty limit?).filled first).view = ((empty limitToo?).filled second).view ∧
      (∀ site ∈ ((empty limit?).filled first).sites, site.sizeClass.Snug site.count) ∧
      ∀ site ∈ ((empty limitToo?).filled second).sites, site.sizeClass.Snug site.count := by
  rcases filled_keeps (grown_empty limit?) (Agrees.empty limit?) accepts with ⟨grown, agrees⟩
  rcases filled_keeps (grown_empty limitToo?) (Agrees.empty limitToo?) acceptsToo with
    ⟨grownToo, agreesToo⟩
  have looked : forall key, ((empty limit?).filled first).get? key =
      ((empty limitToo?).filled second).get? key := by
    intro key
    rw [agrees.same, agreesToo.same]
    exact congrArg (fun map : Reference => map[key]?) same
  refine ⟨view_eq_of_shape? grown.toSound grownToo.toSound (grown.shape?_eq grownToo looked),
    grown.snug_of_mem_sites, grownToo.snug_of_mem_sites⟩

/-- A low root that is raised, and a path below a tall root, with a value given twice. -/
theorem canonical_filled_small_and_large :
    (empty none).Accepts [⟨5, 7, none⟩, ⟨256, 8, none⟩] ∧
      (empty (some 1000)).Accepts [⟨256, 0, none⟩, ⟨5, 7, none⟩, ⟨256, 8, none⟩] ∧
      Insertion.bound [⟨5, 7, none⟩, ⟨256, 8, none⟩] =
        Insertion.bound [⟨256, 0, none⟩, ⟨5, 7, none⟩, ⟨256, 8, none⟩] ∧
      ((empty none).filled [⟨5, 7, none⟩, ⟨256, 8, none⟩]).view =
        ((empty (some 1000)).filled [⟨256, 0, none⟩, ⟨5, 7, none⟩, ⟨256, 8, none⟩]).view := by
  have accepts : (empty none).Accepts [⟨5, 7, none⟩, ⟨256, 8, none⟩] := by
    unfold Accepts
    decide +kernel
  have acceptsToo :
      (empty (some 1000)).Accepts [⟨256, 0, none⟩, ⟨5, 7, none⟩, ⟨256, 8, none⟩] := by
    unfold Accepts
    decide +kernel
  have same : Insertion.bound [⟨5, 7, none⟩, ⟨256, 8, none⟩] =
      Insertion.bound [⟨256, 0, none⟩, ⟨5, 7, none⟩, ⟨256, 8, none⟩] := by
    decide +kernel
  exact ⟨accepts, acceptsToo, same, (canonical_filled accepts acceptsToo same).1⟩

end Tree
end AdaptiveRadix
