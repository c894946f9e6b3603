import AdaptiveRadix.Proofs.Tree.Accounts
import AdaptiveRadix.Proofs.Tree.Granted
import AdaptiveRadix.Proofs.Tree.Shape

namespace AdaptiveRadix

/-!
# Trees of the same shape

Which slots the pools hand out depends on all that was ever given back, and the places
of entries in an indexed table on all that was ever removed.  None of it decides an
answer: trees of the same shape and with the same limit answer every request alike, and
have the same shape afterwards.

The proof follows the operations down to the nodes.  There two nodes of one shape are
told apart by nothing that an operation asks of them, and what it puts into both is
again of one shape, whatever pools it was taken from.
-/

namespace Node

/-- Valid nodes that have the same shape. -/
structure Alike {α β : Type} (view : α -> β) (first second : Node α) : Prop where
  valid : first.Valid
  validToo : second.Valid
  shape : first.shape view = second.shape view

namespace Alike

variable {α β : Type} {view : α -> β} {first second : Node α} {chunk : Chunk}

theorem sizeClass (alike : Alike view first second) : first.sizeClass = second.sizeClass :=
  congrArg NodeShape.sizeClass alike.shape

theorem isFull (alike : Alike view first second) : first.isFull = second.isFull :=
  congrArg (fun shape => shape.count == shape.sizeClass.capacity) alike.shape

theorem same (alike : Alike view first second) (chunk : Chunk) :
    (first.get? chunk).map view = (second.get? chunk).map view :=
  ((shape_eq_iff alike.valid alike.validToo).mp alike.shape).2 chunk

theorem of_get? (valid : first.Valid) (validToo : second.Valid)
    (sizeClass : first.sizeClass = second.sizeClass)
    (same : forall chunk, (first.get? chunk).map view = (second.get? chunk).map view) :
    Alike view first second :=
  ⟨valid, validToo, (shape_eq_iff valid validToo).mpr ⟨sizeClass, same⟩⟩

/-- What one node lacks, the other lacks too. -/
theorem missed (alike : Alike view first second) (missed : first.get? chunk = none) :
    second.get? chunk = none := by
  have same := alike.same chunk
  rw [missed, Option.map_none] at same
  exact Option.map_eq_none_iff.mp same.symm

/-- What one node holds, the other holds too, as far as the view can tell. -/
theorem held (alike : Alike view first second) {value : α} (held : first.get? chunk = some value) :
    ∃ valueToo, second.get? chunk = some valueToo ∧ view value = view valueToo := by
  have same := alike.same chunk
  rw [held, Option.map_some] at same
  rcases Option.map_eq_some_iff.mp same.symm with ⟨valueToo, found, seen⟩
  exact ⟨valueToo, found, seen.symm⟩

theorem vacant [Inhabited α] (view : α -> β) (sizeClass : SizeClass) (slot slotToo : Nat) :
    Alike view (Node.vacant sizeClass slot) (Node.vacant sizeClass slotToo) := by
  apply of_get? (valid_vacant sizeClass slot) (valid_vacant sizeClass slotToo)
  · rw [sizeClass_vacant, sizeClass_vacant]
  · intro chunk
    rw [get?_vacant, get?_vacant]

theorem insert (alike : Alike view first second) (room : first.isFull = false)
    (missed : first.get? chunk = none) {value valueToo : α} (seen : view value = view valueToo) :
    Alike view (first.insert chunk value) (second.insert chunk valueToo) := by
  have roomToo := alike.isFull.symm.trans room
  have missedToo := alike.missed missed
  apply of_get? (valid_insert alike.valid room missed value)
    (valid_insert alike.validToo roomToo missedToo valueToo)
  · rw [sizeClass_insert, sizeClass_insert, alike.sizeClass]
  · intro other
    rw [get?_insert alike.valid room missed, get?_insert alike.validToo roomToo missedToo]
    split
    · exact congrArg some seen
    · exact alike.same other

theorem replace (alike : Alike view first second) {old oldToo : α}
    (held : first.get? chunk = some old) (heldToo : second.get? chunk = some oldToo)
    {value valueToo : α} (seen : view value = view valueToo) :
    Alike view (first.replace chunk value) (second.replace chunk valueToo) := by
  apply of_get? (valid_replace alike.valid held value)
    (valid_replace alike.validToo heldToo valueToo)
  · rw [sizeClass_replace, sizeClass_replace, alike.sizeClass]
  · intro other
    rw [get?_replace alike.valid held, get?_replace alike.validToo heldToo]
    split
    · exact congrArg some seen
    · exact alike.same other

theorem erase (alike : Alike view first second) {old oldToo : α}
    (held : first.get? chunk = some old) (heldToo : second.get? chunk = some oldToo) :
    Alike view (first.erase chunk) (second.erase chunk) := by
  apply of_get? (valid_erase alike.valid held) (valid_erase alike.validToo heldToo)
  · rw [sizeClass_erase, sizeClass_erase, alike.sizeClass]
  · intro other
    rw [get?_erase alike.valid held, get?_erase alike.validToo heldToo]
    split
    · rfl
    · exact alike.same other

/-- Room is made for both or for none, by a move to the same class. -/
theorem withRoom [Inhabited α] (alike : Alike view first second) (missed : first.get? chunk = none)
    (level : Nat) (child? : α -> Option Handle) (ledger ledgerToo : Ledger) :
    Alike view (first.withRoom level child? ledger).1
      (second.withRoom level child? ledgerToo).1 := by
  have roomy := roomy_withRoom alike.valid missed level child? ledger
  have roomyToo := roomy_withRoom alike.validToo (alike.missed missed) level child? ledgerToo
  apply of_get? roomy.valid roomyToo.valid
  · cases full : first.isFull with
    | false =>
        rw [withRoom_of_room full, withRoom_of_room (alike.isFull.symm.trans full)]
        exact alike.sizeClass
    | true =>
        rcases exists_next? alike.valid missed full with ⟨larger, next⟩
        have nextToo := (congrArg SizeClass.next? alike.sizeClass.symm).trans next
        rw [withRoom_of_full full next, withRoom_of_full (alike.isFull.symm.trans full) nextToo,
          sizeClass_moved, sizeClass_moved]
  · intro other
    rw [roomy.same, roomyToo.same]
    exact alike.same other

end Alike
end Node

namespace Subtree

/-- Sound subtrees that have the same shape. -/
structure Alike {level : Nat} (first second : Subtree level) : Prop where
  sound : first.Sound
  soundToo : second.Sound
  shape : first.shape = second.shape

/-- Two subtrees at one level are two leaves, or two nodes for whose children a relation
holds already. -/
@[elab_as_elim]
theorem bothByLevel {motive : forall {level : Nat}, Subtree level -> Subtree level -> Prop}
    (leaf : forall first second : Node UInt64, motive (ofLeaf first) (ofLeaf second))
    (node : forall {level : Nat} (first second : Node (Subtree level)),
      (forall child childToo : Subtree level, motive child childToo) ->
        motive (ofNode first) (ofNode second))
    {level : Nat} (first second : Subtree level) : motive first second := by
  induction level with
  | zero => exact leaf first second
  | succ level inductionHypothesis => exact node first second inductionHypothesis

namespace Alike

variable {level : Nat} {key : Key}

theorem leaf {first second : Node UInt64} (alike : Alike (ofLeaf first) (ofLeaf second)) :
    Node.Alike id first second :=
  ⟨(sound_leaf.mp alike.sound).1, (sound_leaf.mp alike.soundToo).1, alike.shape⟩

theorem node {first second : Node (Subtree level)} (alike : Alike (ofNode first) (ofNode second)) :
    Node.Alike Subtree.shape first second :=
  ⟨(sound_node.mp alike.sound).1, (sound_node.mp alike.soundToo).1, alike.shape⟩

/-- Under a chunk both nodes hold something or both nothing, and what they hold is alike. -/
theorem child {first second : Node (Subtree level)} (alike : Alike (ofNode first) (ofNode second))
    {chunk : Chunk} {child : Subtree level} (held : first.get? chunk = some child) :
    ∃ childToo, second.get? chunk = some childToo ∧ Alike child childToo := by
  rcases alike.node.held held with ⟨childToo, heldToo, same⟩
  exact ⟨childToo, heldToo, (sound_node.mp alike.sound).2.2 chunk child held,
    (sound_node.mp alike.soundToo).2.2 chunk childToo heldToo, same⟩

/-! ## Searching -/

theorem get? {first second : Subtree level} (alike : Alike first second) (key : Key) :
    first.get? key = second.get? key := by
  induction first, second using bothByLevel with
  | leaf first second =>
      have same := alike.leaf.same (key.chunk 0)
      rwa [Option.map_id_fun, id_eq, id_eq] at same
  | @node level first second inductionHypothesis =>
      rw [get?_node, get?_node]
      cases held : first.get? (key.chunk (level + 1)) with
      | none => rw [alike.node.missed held]
      | some child =>
          rcases alike.child held with ⟨childToo, heldToo, below⟩
          rw [heldToo, Option.bind_some, Option.bind_some]
          exact inductionHypothesis child childToo below

theorem placement {first second : Subtree level} (alike : Alike first second) (key : Key) :
    first.placement key = second.placement key := by
  induction first, second using bothByLevel with
  | leaf first second =>
      have same := alike.get? key
      change first.get? (key.chunk 0) = second.get? (key.chunk 0) at same
      simp only [ofLeaf, Subtree.placement, same, alike.leaf.sizeClass, alike.leaf.isFull]
  | @node level first second inductionHypothesis =>
      cases held : first.get? (key.chunk (level + 1)) with
      | none =>
          rw [placement_of_gap held, placement_of_gap (alike.node.missed held), alike.node.sizeClass,
            alike.node.isFull]
      | some child =>
          rcases alike.child held with ⟨childToo, heldToo, below⟩
          rw [placement_of_child held, placement_of_child heldToo]
          exact inductionHypothesis child childToo below

/-! ## Growing -/

/-- A path for one key has one shape. -/
theorem chain (key : Key) (value : UInt64) (pools poolsToo : Pools) (level : Nat) :
    Alike (Subtree.chain key value pools level).1 (Subtree.chain key value poolsToo level).1 := by
  refine ⟨(chain_keeps key value pools level).1, (chain_keeps key value poolsToo level).1, ?_⟩
  induction level with
  | zero =>
      have fresh := Node.Alike.vacant (id : UInt64 -> UInt64) .c1
        (pools.take ⟨.leaf, .c1⟩).1.slot (poolsToo.take ⟨.leaf, .c1⟩).1.slot
      exact (fresh.insert rfl (Node.get?_vacant _ _ _) rfl).shape
  | succ level inductionHypothesis =>
      have fresh := Node.Alike.vacant (@Subtree.shape level) .c1
        ((Subtree.chain key value pools level).2.take ⟨.inner, .c1⟩).1.slot
        ((Subtree.chain key value poolsToo level).2.take ⟨.inner, .c1⟩).1.slot
      exact (fresh.insert rfl (Node.get?_vacant _ _ _) inductionHypothesis).shape

theorem wrapped {first second : Subtree level} (alike : Alike first second)
    (pools poolsToo : Pools) (rise : Nat) :
    Alike (first.wrapped pools rise).1 (second.wrapped poolsToo rise).1 := by
  refine ⟨(wrapped_keeps alike.sound pools rise).1, (wrapped_keeps alike.soundToo poolsToo rise).1, ?_⟩
  induction rise with
  | zero => exact alike.shape
  | succ rise inductionHypothesis =>
      have fresh := Node.Alike.vacant (@Subtree.shape (level + rise)) .c1
        ((first.wrapped pools rise).2.take ⟨.inner, .c1⟩).1.slot
        ((second.wrapped poolsToo rise).2.take ⟨.inner, .c1⟩).1.slot
      exact (fresh.insert rfl (Node.get?_vacant _ _ _) inductionHypothesis).shape

private theorem shape_insert {first second : Subtree level} (alike : Alike first second)
    (missed : first.get? key = none) (value : UInt64) (ledger ledgerToo : Ledger) :
    (first.insert key value ledger).1.shape = (second.insert key value ledgerToo).1.shape := by
  induction first, second using bothByLevel generalizing ledger ledgerToo with
  | leaf first second =>
      rw [insert_leaf, insert_leaf]
      have roomy := Node.roomy_withRoom alike.leaf.valid missed 0 (fun _ => none) ledger
      have roomyAlike := alike.leaf.withRoom missed 0 (fun _ => none) ledger ledgerToo
      exact (roomyAlike.insert roomy.room ((roomy.same _).trans missed) rfl).shape
  | @node level first second inductionHypothesis =>
      cases held : first.get? (key.chunk (level + 1)) with
      | some child =>
          rcases alike.child held with ⟨childToo, heldToo, below⟩
          rw [insert_of_child held, insert_of_child heldToo]
          have absent := (get?_of_held held rfl).symm.trans missed
          have grown := inductionHypothesis child childToo below absent ledger ledgerToo
          exact (alike.node.replace held heldToo grown).shape
      | none =>
          rw [insert_of_gap held, insert_of_gap (alike.node.missed held)]
          have roomy : Node.Roomy first (roomFor first key value ledger).1 :=
            Node.roomy_withRoom alike.node.valid held _ _ _
          have roomyAlike : Node.Alike Subtree.shape (roomFor first key value ledger).1
              (roomFor second key value ledgerToo).1 :=
            alike.node.withRoom held _ _ _ _
          have path := (chain key value ledger.pools ledgerToo.pools level).shape
          exact (roomyAlike.insert roomy.room ((roomy.same _).trans held) path).shape

theorem insert {first second : Subtree level} (alike : Alike first second)
    (missed : first.get? key = none) (value : UInt64) (ledger ledgerToo : Ledger) :
    Alike (first.insert key value ledger).1 (second.insert key value ledgerToo).1 :=
  ⟨(insert_binds alike.sound missed value ledger).sound,
    (insert_binds alike.soundToo ((alike.get? key).symm.trans missed) value ledgerToo).sound,
    shape_insert alike missed value ledger ledgerToo⟩

private theorem shape_replace {first second : Subtree level} (alike : Alike first second)
    {old : UInt64} (found : first.get? key = some old) (value : UInt64) :
    (first.replace key value).shape = (second.replace key value).shape := by
  induction first, second using bothByLevel with
  | leaf first second =>
      have foundToo := (alike.get? key).symm.trans found
      exact (alike.leaf.replace found foundToo rfl).shape
  | @node level first second inductionHypothesis =>
      rw [get?_node] at found
      rcases Option.bind_eq_some_iff.mp found with ⟨child, held, looked⟩
      rcases alike.child held with ⟨childToo, heldToo, below⟩
      rw [replace_of_child held, replace_of_child heldToo]
      have changed := inductionHypothesis child childToo below looked
      exact (alike.node.replace held heldToo changed).shape

theorem replace {first second : Subtree level} (alike : Alike first second) {old : UInt64}
    (found : first.get? key = some old) (value : UInt64) :
    Alike (first.replace key value) (second.replace key value) :=
  ⟨(replace_binds alike.sound found value).sound,
    (replace_binds alike.soundToo ((alike.get? key).symm.trans found) value).sound,
    shape_replace alike found value⟩

/-! ## Pruning -/

private theorem shape_kept {first second : Subtree level} (same : first.shape = second.shape)
    (pools poolsToo : Pools) :
    (first.kept pools).1.map Subtree.shape = (second.kept poolsToo).1.map Subtree.shape := by
  have empty : first.isEmpty = second.isEmpty := by
    cases level with
    | zero => exact congrArg (fun shape : NodeShape UInt64 => shape.count == 0) same
    | succ level => exact congrArg (fun shape : NodeShape (Shape level) => shape.count == 0) same
  rw [kept, kept, empty]
  split
  · rfl
  · exact congrArg some same

/-- Of both subtrees something is left or of both nothing, and what is left is alike. -/
theorem shape_erase {first second : Subtree level} (alike : Alike first second) {old : UInt64}
    (found : first.get? key = some old) (pools poolsToo : Pools) :
    (first.erase key pools).1.map Subtree.shape = (second.erase key poolsToo).1.map Subtree.shape := by
  induction first, second using bothByLevel with
  | leaf first second =>
      have foundToo := (alike.get? key).symm.trans found
      rw [erase_leaf, erase_leaf]
      have rest : (ofLeaf (first.erase (key.chunk 0))).shape =
          (ofLeaf (second.erase (key.chunk 0))).shape := (alike.leaf.erase found foundToo).shape
      exact shape_kept rest pools poolsToo
  | @node level first second inductionHypothesis =>
      rw [get?_node] at found
      rcases Option.bind_eq_some_iff.mp found with ⟨child, held, looked⟩
      rcases alike.child held with ⟨childToo, heldToo, below⟩
      have rest := inductionHypothesis child childToo below looked
      rw [erase_of_child held, erase_of_child heldToo]
      cases left : (child.erase key pools).1 with
      | some smaller =>
          rw [left, Option.map_some] at rest
          rcases Option.map_eq_some_iff.mp rest.symm with ⟨smallerToo, leftToo, same⟩
          rw [leftToo]
          exact congrArg some (alike.node.replace held heldToo same.symm).shape
      | none =>
          rw [left, Option.map_none] at rest
          rw [Option.map_eq_none_iff.mp rest.symm]
          have fewer : (ofNode (first.erase (key.chunk (level + 1)))).shape =
              (ofNode (second.erase (key.chunk (level + 1)))).shape :=
            (alike.node.erase held heldToo).shape
          exact shape_kept fewer _ _

end Alike
end Subtree

namespace Tree

variable {key : Key}

/-- Sound trees that have the same shape and the same limit. -/
structure Alike (first second : Tree) : Prop where
  sound : first.Sound
  soundToo : second.Sound
  shape? : first.shape? = second.shape?
  limit? : first.limit? = second.limit?

namespace Alike

variable {first second : Tree}

theorem view (alike : Alike first second) : first.view = second.view :=
  view_eq_of_shape? alike.sound alike.soundToo alike.shape?

/-- Neither tree has a root, or both have one at the same level, and these are alike. -/
inductive Roots (first second : Tree) : Prop
  | none (held : first.root? = none) (heldToo : second.root? = none)
  | some {level : Nat} {top topToo : Subtree level} (held : first.root? = some ⟨level, top⟩)
      (heldToo : second.root? = some ⟨level, topToo⟩) (below : top.Alike topToo)

theorem roots (alike : Alike first second) : Roots first second := by
  have same := alike.shape?
  simp only [Tree.shape?] at same
  cases held : first.root? with
  | none =>
      rw [held, Option.map_none] at same
      exact .none held (Option.map_eq_none_iff.mp same.symm)
  | some root =>
      rw [held, Option.map_some] at same
      rcases Option.map_eq_some_iff.mp same.symm with ⟨rootToo, heldToo, equal⟩
      have top := (alike.sound.sound root held).top
      have topToo := (alike.soundToo.sound rootToo heldToo).top
      rcases root with ⟨level, root⟩
      rcases rootToo with ⟨levelToo, rootToo⟩
      cases (Sigma.mk.inj equal).1
      exact .some held heldToo ⟨top, topToo, (eq_of_heq (Sigma.mk.inj equal).2).symm⟩

theorem ceiling (alike : Alike first second) : first.ceiling = second.ceiling := by
  rw [alike.sound.ceiling, alike.soundToo.ceiling]
  rcases alike.roots with ⟨held, heldToo⟩ | ⟨held, heldToo, _⟩
  · rw [held, heldToo]
  · rw [held, heldToo, Option.elim_some, Option.elim_some]

theorem get? (alike : Alike first second) (key : Key) : first.get? key = second.get? key := by
  rw [Tree.get?, Tree.get?, alike.ceiling]
  rcases alike.roots with ⟨held, heldToo⟩ | ⟨held, heldToo, below⟩
  · rw [held, heldToo]
  · simp only [held, heldToo, below.get? key]

theorem placement (alike : Alike first second) (key : Key) :
    first.placement key = second.placement key := by
  rw [Tree.placement, Tree.placement, alike.ceiling]
  rcases alike.roots with ⟨held, heldToo⟩ | ⟨held, heldToo, below⟩
  · rw [held, heldToo]
  · simp only [held, heldToo, below.placement key]

theorem liveBytes (alike : Alike first second) : first.liveBytes = second.liveBytes :=
  congrArg View.liveBytes alike.view

private theorem shape?_replace (alike : Alike first second) {old : UInt64}
    (found : first.get? key = some old) (value : UInt64) :
    (first.replace key value).shape? = (second.replace key value).shape? := by
  rcases exists_root alike.sound.toRooted found with ⟨root, rooted, _, looked⟩
  rcases alike.roots with ⟨held, heldToo⟩ | ⟨held, heldToo, below⟩
  · exact absurd (rooted.symm.trans held) (Option.some_ne_none root)
  · cases Option.some.inj (held.symm.trans rooted)
    simp only [Tree.shape?, replace_of_root held, replace_of_root heldToo, Option.map_some,
      (below.replace looked value).shape]

private theorem shape?_added (alike : Alike first second) (missed : first.get? key = none)
    (value : UInt64) :
    (first.added key value).1.shape? = (second.added key value).1.shape? := by
  have ceiling := alike.ceiling
  rcases alike.roots with ⟨held, heldToo⟩ | @⟨level, top, topToo, held, heldToo, below⟩
  · simp only [Tree.shape?, added_of_none held, added_of_none heldToo, Option.map_some,
      (Subtree.Alike.chain key value first.pools second.pools key.topLevel).shape]
  · have absent := get?_raisedFor alike.sound.toRooted held missed
    simp only [Tree.shape?, added_of_root held, added_of_root heldToo, Option.map_some]
    by_cases tooLow : first.ceiling < key
    · have tall := below.wrapped first.pools second.pools (key.topLevel - level)
      have raised : first.raisedFor ⟨level, top⟩ key = _ := if_pos tooLow
      have raisedToo : second.raisedFor ⟨level, topToo⟩ key = _ := if_pos (ceiling ▸ tooLow)
      rw [raised] at absent
      rw [raised, raisedToo]
      exact congrArg (fun shape => some (⟨_, shape⟩ : Sigma Shape)) (tall.insert absent value _ _).shape
    · have stays : first.raisedFor ⟨level, top⟩ key = _ := if_neg tooLow
      have staysToo : second.raisedFor ⟨level, topToo⟩ key = _ := if_neg (ceiling ▸ tooLow)
      rw [stays] at absent
      rw [stays, staysToo]
      exact congrArg (fun shape => some (⟨_, shape⟩ : Sigma Shape)) (below.insert absent value _ _).shape

private theorem shape?_erase (alike : Alike first second) {old : UInt64}
    (found : first.get? key = some old) :
    (first.erase key).state.shape? = (second.erase key).state.shape? := by
  rcases exists_root alike.sound.toRooted found with ⟨root, rooted, _, looked⟩
  rcases alike.roots with ⟨held, heldToo⟩ | ⟨held, heldToo, below⟩
  · exact absurd (rooted.symm.trans held) (Option.some_ne_none root)
  · cases Option.some.inj (held.symm.trans rooted)
    have rest := congrArg (Option.map fun shape => (⟨_, shape⟩ : Sigma Shape))
      (below.shape_erase looked first.pools second.pools)
    rw [Tree.shape?, Tree.shape?, (erase_of_root held found).2,
      (erase_of_root heldToo ((alike.get? key).symm.trans found)).2]
    simp only [Option.map_map] at rest ⊢
    exact rest

/-! ## Requests and runs -/

private theorem perform_insert (alike : Alike first second) (key : Key) (value : UInt64) :
    (first.insert key value).result = (second.insert key value).result ∧
      (first.insert key value).state.shape? = (second.insert key value).state.shape? := by
  have available : forall limit, first.pools.available limit = second.pools.available limit :=
    fun limit => congrArg (limit - ·) alike.liveBytes
  have same := alike.get? key
  rcases settled first key value with
    ⟨found, does⟩ | ⟨missed, limited, excess, does⟩ | ⟨missed, fits, does⟩
  · rw [does, insert_of_found (same.symm.trans found)]
    exact ⟨rfl, shape?_replace alike found value⟩
  · have excessToo := excess
    rw [available, alike.placement] at excessToo
    rw [does, insert_of_excess (same.symm.trans missed) (alike.limit?.symm.trans limited) excessToo]
    exact ⟨by simp only [available, alike.placement], alike.shape?⟩
  · have fitsToo := fits
    simp only [available, alike.placement, alike.limit?] at fitsToo
    have roomy : Alike (first.roomyFor key) (second.roomyFor key) :=
      ⟨alike.sound.roomier (Pools.roomier_roomFor _ _),
        alike.soundToo.roomier (Pools.roomier_roomFor _ _), alike.shape?, alike.limit?⟩
    rw [does, insert_of_fits (same.symm.trans missed) fitsToo]
    exact ⟨rfl, shape?_added roomy missed value⟩

private theorem perform_shape? (alike : Alike first second) {request : Request}
    (granted : request.Granted) :
    (first.perform request).2 = (second.perform request).2 ∧
      (first.perform request).1.shape? = (second.perform request).1.shape? := by
  have bindings : first.toList = second.toList := congrArg View.toList alike.view
  cases request with
  | insert key value allowance =>
      cases granted
      rcases perform_insert alike key value with ⟨results, shapes⟩
      exact ⟨congrArg Answer.inserted results, shapes⟩
  | update key value =>
      have same := alike.get? key
      simp only [perform, update]
      cases found : first.get? key with
      | none =>
          rw [← same, found]
          exact ⟨rfl, alike.shape?⟩
      | some old =>
          rw [← same, found]
          exact ⟨rfl, shape?_replace alike found value⟩
  | erase key =>
      have same := alike.get? key
      cases found : first.get? key with
      | none =>
          simp only [perform, erase_of_get?_none found, erase_of_get?_none (same.symm.trans found)]
          exact ⟨trivial, alike.shape?⟩
      | some old =>
          have foundToo := same.symm.trans found
          rcases exists_root alike.sound.toRooted found with ⟨root, held, _⟩
          rcases exists_root alike.soundToo.toRooted foundToo with ⟨rootToo, heldToo, _⟩
          simp only [perform, (erase_of_root held found).1, (erase_of_root heldToo foundToo).1]
          exact ⟨trivial, shape?_erase alike found⟩
  | lookup key => exact ⟨congrArg Answer.value (alike.get? key), alike.shape?⟩
  | size => exact ⟨congrArg (Answer.count ∘ View.size) alike.view, alike.shape?⟩
  | isEmpty => exact ⟨congrArg (Answer.flag ∘ View.isEmpty) alike.view, alike.shape?⟩
  | forEach =>
      refine ⟨?_, alike.shape?⟩
      simp only [perform, forEach_eq_foldl, bindings]
  | toList => exact ⟨congrArg Answer.bindings bindings, alike.shape?⟩

/-- A request has the same answer from both trees, and keeps them alike. -/
theorem perform (alike : Alike first second) {request : Request} (granted : request.Granted) :
    (first.perform request).2 = (second.perform request).2 ∧
      Alike (first.perform request).1 (second.perform request).1 := by
  rcases perform_shape? alike granted with ⟨answers, shapes⟩
  refine ⟨answers, sound_perform alike.sound request, sound_perform alike.soundToo request, shapes, ?_⟩
  rw [limit?_perform, limit?_perform, alike.limit?]

theorem calls {requests : List Request} (granted : ∀ request ∈ requests, request.Granted)
    {first second : Tree} (alike : Alike first second) :
    first.calls requests = second.calls requests ∧
      Alike (first.after requests) (second.after requests) := by
  induction requests generalizing first second with
  | nil => exact ⟨rfl, alike⟩
  | cons request rest inductionHypothesis =>
      rcases List.forall_mem_cons.mp granted with ⟨now, later⟩
      rcases alike.perform now with ⟨answers, stillAlike⟩
      rcases inductionHypothesis later stillAlike with ⟨rests, ends⟩
      refine ⟨?_, ends⟩
      rw [Tree.calls, Tree.calls, answers, rests]

end Alike

/-- Nothing that is asked of two trees tells them apart, now or later. -/
structure Interchangeable (first second : Tree) : Prop where
  answers : forall later, (∀ request ∈ later, request.Granted) ->
    first.calls later = second.calls later
  /-- The views, and so the shapes, stay the same. -/
  views : forall later, (∀ request ∈ later, request.Granted) ->
    (first.after later).view = (second.after later).view

theorem Alike.interchangeable {first second : Tree} (alike : Alike first second) :
    Interchangeable first second where
  answers _ granted := (alike.calls granted).1
  views _ granted := (alike.calls granted).2.view

theorem alike_after {limit? : Option Nat} {first second : List Request}
    (same : ((empty limit?).after first).shape? = ((empty limit?).after second).shape?) :
    Alike ((empty limit?).after first) ((empty limit?).after second) where
  sound := sound_after (sound_empty limit?) first
  soundToo := sound_after (sound_empty limit?) second
  shape? := same
  limit? := (limit?_after (empty limit?) first).trans (limit?_after (empty limit?) second).symm

theorem shape?_of_isEmpty {tree : Tree} (isEmpty : tree.isEmpty = true) : tree.shape? = none := by
  rwa [isEmpty_eq, Option.isNone_iff_eq_none] at isEmpty

/-- Whatever led two trees with one limit to the same shape, they are interchangeable.  So a
tree that has become empty is as good as new. -/
theorem interchangeable_after (limit? : Option Nat) (first second : List Request) :
    (((empty limit?).after first).shape? = ((empty limit?).after second).shape? ->
        Interchangeable ((empty limit?).after first) ((empty limit?).after second)) ∧
      (((empty limit?).after first).isEmpty = true ->
        Interchangeable ((empty limit?).after first) (empty limit?)) := by
  refine ⟨fun same => (alike_after same).interchangeable, ?_⟩
  intro isEmpty
  have same : ((empty limit?).after first).shape? = ((empty limit?).after []).shape? :=
    shape?_of_isEmpty isEmpty
  exact (alike_after same).interchangeable

/-- The histories leave leaves in different slots, and the last one leaves nothing. -/
theorem interchangeable_after_recycled_slots :
    let first := [.insert 0 1 none, .insert 256 2 none, .erase 0, .insert 512 3 none]
    let second := [.insert 0 1 none, .insert 512 3 none, .insert 256 2 none, .erase 0]
    let third := [.insert 256 2 none, .erase 256]
    ((empty none).after first).visits ≠ ((empty none).after second).visits ∧
      ((empty none).after first).shape? = ((empty none).after second).shape? ∧
      Interchangeable ((empty none).after first) ((empty none).after second) ∧
      ((empty none).after third).isEmpty = true ∧
      Interchangeable ((empty none).after third) (empty none) := by
  intro first second third
  have same : ((empty none).after first).shape? = ((empty none).after second).shape? := by
    decide +kernel
  have left : ((empty none).after third).isEmpty = true := by decide +kernel
  exact ⟨by decide +kernel, same, (interchangeable_after none first second).1 same, left,
    (interchangeable_after none third []).2 left⟩

end Tree
end AdaptiveRadix
