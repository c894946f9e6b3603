import AdaptiveRadix.Proofs.Tree.Cells
import AdaptiveRadix.Proofs.Tree.Height
import AdaptiveRadix.Proofs.Tree.Overwrite
import AdaptiveRadix.Proofs.Tree.Refusal

namespace AdaptiveRadix

/-!
# What a request leaves alone

A node that a key is not below has nothing to do with what is done under that key: it keeps
its handle, and every slot that it has.  The pools recycle slots, a node may move in the middle
of the tree, and a root may come to lie below another, but a node aside from the path sees of
all this at most that its parent goes by another handle.

`Extended` and `Pruned` say what an insertion and a removal do at one place, on the path of
the key or aside from it.  Both are carried down the tree by the search for the place, which
parts from the search for the key where the place is aside.
-/

namespace Cell

/-- A node was full, and one of the next class has come to its place. -/
structure Outgrown (cell later : Cell) : Prop where
  level : later.level = cell.level
  stem : later.stem = cell.stem
  full : cell.count = cell.sizeClass.capacity
  next : cell.sizeClass.next? = some later.sizeClass

/-- The node that an insertion leaves at the place of a node. -/
def Succeeds (later cell : Cell) : Prop :=
  later.handle = cell.handle ∨ cell.Outgrown later

/-- A cell with another value under a chunk. -/
def given (cell : Cell) (chunk : Chunk) (content : Content) : Cell :=
  { cell with entries := cell.entries.map (Entry.given chunk content) }

/-- A cell after a key has got another value: only the leaf of the key is another. -/
def rebound (cell : Cell) (key : Key) (value : UInt64) : Cell :=
  if cell.level = 0 ∧ cell.stem = key.above 1 then cell.given (key.chunk 0) (.value value) else cell

end Cell

/-- What an insertion does at a place, which may be apart from the path of the key. -/
structure Extended (apart : Prop) (before after : Option Cell) : Prop where
  lasts : ∀ cell ∈ before, ∃ later ∈ after, later.Succeeds cell
  spared : apart -> ∀ cell ∈ before, cell ∈ after

/-- What a removal does at a place, which may be apart from the path of the key. -/
structure Pruned (apart : Prop) (before after : Option Cell) : Prop where
  stays : ∀ later ∈ after, ∃ cell ∈ before, later.handle = cell.handle
  spared : apart -> after = before

namespace Extended

variable {apart : Prop}

theorem refl (apart : Prop) (cell? : Option Cell) : Extended apart cell? cell? :=
  ⟨fun cell here => ⟨cell, here, Or.inl rfl⟩, fun _ _ here => here⟩

theorem none (apart : Prop) (after : Option Cell) : Extended apart .none after :=
  ⟨fun _ impossible => (Option.not_mem_none _ impossible).elim,
    fun _ _ impossible => (Option.not_mem_none _ impossible).elim⟩

theorem on_path {cell later : Cell} (near : ¬ apart) (succeeds : later.Succeeds cell) :
    Extended apart (some cell) (some later) :=
  ⟨fun _ same => ⟨later, rfl, Option.some.inj same ▸ succeeds⟩, fun far => absurd far near⟩

end Extended

namespace Pruned

variable {apart : Prop}

theorem refl (apart : Prop) (cell? : Option Cell) : Pruned apart cell? cell? :=
  ⟨fun later here => ⟨later, here, rfl⟩, fun _ => rfl⟩

theorem on_path {cell later : Cell} (near : ¬ apart) (same : later.handle = cell.handle) :
    Pruned apart (some cell) (some later) :=
  ⟨fun _ here => ⟨cell, rfl, Option.some.inj here ▸ same⟩, fun far => absurd far near⟩

theorem gone {before : Option Cell} (blank : apart -> before = none) : Pruned apart before none :=
  ⟨fun _ impossible => (Option.not_mem_none _ impossible).elim, fun far => (blank far).symm⟩

end Pruned

namespace Node

variable {α : Type} {node : Node α} {chunk : Chunk}

/-- What a node with room for one more entry is to the node that it was. -/
theorem succeeds_insert [Inhabited α] (valid : node.Valid) (missed : node.get? chunk = none)
    (value : α) (level : Nat) (child? : α -> Option Handle) (ledger : Ledger)
    (view : α -> Content) (key : Key) :
    (((node.withRoom level child? ledger).1.insert chunk value).cell view level key).Succeeds
      (node.cell view level key) := by
  cases full : node.isFull with
  | false =>
      rw [withRoom_of_room full]
      exact Or.inl (node.named_insert chunk value level)
  | true =>
      rcases exists_next? valid missed full with ⟨larger, next⟩
      rw [withRoom_of_full full next]
      generalize ((ledger.pools.release ⟨⟨.ofLevel level, node.sizeClass⟩, node.slot⟩).take
        ⟨.ofLevel level, larger⟩).1.slot = slot
      have moved : ((node.moved larger slot).insert chunk value).sizeClass = larger :=
        (sizeClass_insert _ chunk value).trans (sizeClass_moved node larger slot)
      exact Or.inr ⟨rfl, rfl, beq_iff_eq.mp full, next.trans (congrArg some moved.symm)⟩

/-- A new value for a chunk that has one changes that slot. -/
theorem cell_replace (valid : node.Valid) {old : α} (found : node.get? chunk = some old) (value : α)
    (view : α -> Content) (level : Nat) (key : Key) :
    (node.replace chunk value).cell view level key =
      (node.cell view level key).given chunk (view value) := by
  have entries : (node.replace chunk value).entries.map (Entry.viewed view) =
      (node.entries.map (Entry.viewed view)).map (Entry.given chunk (view value)) := by
    rw [entries_replace valid found, List.map_map, List.map_map]
    exact List.map_congr_left fun entry _ => entry.viewed_given view chunk value
  rw [cell, named_replace, entries]
  rfl

/-- A child that goes by the handle of the one before it is the same to its parent. -/
theorem cell_replace_of_same (valid : node.Valid) {old : α} (found : node.get? chunk = some old)
    {value : α} {view : α -> Content} (same : view value = view old) (level : Nat) (key : Key) :
    (node.replace chunk value).cell view level key = node.cell view level key := by
  have entries : (node.replace chunk value).entries.map (Entry.viewed view) =
      node.entries.map (Entry.viewed view) := by
    rw [entries_replace valid found, List.map_map]
    apply List.map_congr_left
    intro entry met
    refine (entry.viewed_given view chunk value).trans ?_
    by_cases here : entry.chunk = chunk
    · have seen : (entry.viewed view).chunk = chunk := here
      have held := mem_entries valid met
      rw [here, found] at held
      rw [Entry.given_of_eq seen, same, Option.some.inj held]
      rfl
    · have seen : (entry.viewed view).chunk ≠ chunk := here
      exact Entry.given_of_ne seen _
  rw [cell, named_replace, entries]
  rfl

end Node

namespace Subtree

variable {level floor : Nat} {node : Node (Subtree level)} {subtree child : Subtree level}
  {key other : Key} {cell : Cell}

/-! ## Growing -/

/-- Wrappers lie above the old top, and what lies below it is untouched. -/
theorem cell?_wrapped (found : subtree.cell? other floor = some cell) (pools : Pools) (rise : Nat)
    (fits : other.below (level + rise) = other.below level) :
    (subtree.wrapped pools rise).1.cell? other floor = some cell := by
  induction rise with
  | zero => exact found
  | succ rise inductionHypothesis =>
      rcases (other.below_add_succ_eq_iff level rise).mp fits with ⟨zero, lower⟩
      have deep : floor ≠ level + rise + 1 := by
        have := (place_of_cell? found).2.2
        omega
      have missed := Node.get?_vacant (α := Subtree (level + rise)) .c1
        ((subtree.wrapped pools rise).2.take ⟨.inner, .c1⟩).1.slot
      have holds := Node.get?_insert (Node.valid_vacant .c1 _) rfl (missed 0)
        (subtree.wrapped pools rise).1
      exact (cell?_of_child holds deep other).trans ((if_pos zero).trans (inductionHypothesis lower))

/-- A node is extended when what the key finds below it is, and its place was kept or filled. -/
private theorem extended_ofNode {later : Node (Subtree level)}
    (found : forall chunk,
      later.get? chunk = if chunk = key.chunk (level + 1) then some child else node.get? chunk)
    (succeeds : (later.cell content (level + 1) other).Succeeds
      (node.cell content (level + 1) other))
    (near : other.above (level + 2) = key.above (level + 2))
    (deeper : other.above (level + 1) = key.above (level + 1) ->
      Extended (other.above (floor + 1) ≠ key.above (floor + 1))
        ((node.get? (key.chunk (level + 1))).bind fun before => before.cell? other floor)
        (child.cell? other floor)) :
    Extended (other.above (floor + 1) ≠ key.above (floor + 1)) ((ofNode node).cell? other floor)
      ((ofNode later).cell? other floor) := by
  by_cases top : floor = level + 1
  · subst floor
    rw [cell?_top, cell?_top]
    exact .on_path (not_not.mpr near) succeeds
  · rw [cell?_of_child found top]
    split
    · rename_i same
      rw [cell?_below top, same]
      exact deeper (Key.above_eq_iff.mpr ⟨near, same⟩)
    · exact .refl _ _

/-- Adding a key extends what there is on its path, and spares what is apart from it. -/
theorem extended_insert (sound : subtree.Sound) (missed : subtree.get? key = none) (value : UInt64)
    (ledger : Ledger) (floor : Nat) (near : other.above (level + 1) = key.above (level + 1)) :
    Extended (other.above (floor + 1) ≠ key.above (floor + 1)) (subtree.cell? other floor)
      ((subtree.insert key value ledger).1.cell? other floor) := by
  induction subtree using byLevel generalizing ledger with
  | leaf leaf =>
      rw [insert_leaf, cell?_leaf, cell?_leaf]
      by_cases top : floor = 0
      · subst floor
        exact .on_path (not_not.mpr near)
          (Node.succeeds_insert (sound_leaf.mp sound).1 missed value 0 _ ledger _ other)
      · rw [if_neg top]
        exact .none _ _
  | @node level node inductionHypothesis =>
      rcases sound_node.mp sound with ⟨valid, _, children⟩
      cases held : node.get? (key.chunk (level + 1)) with
      | some child =>
          have absent := (get?_of_held held rfl).symm.trans missed
          rw [insert_of_child held]
          apply extended_ofNode (Node.get?_replace valid held _)
            (Or.inl (node.named_replace _ _ _)) near
          rw [held, Option.bind_some]
          exact inductionHypothesis child (children _ child held) absent ledger
      | none =>
          have roomy : Node.Roomy node (roomFor node key value ledger).1 :=
            Node.roomy_withRoom valid held _ _ _
          have absent := (roomy.same (key.chunk (level + 1))).trans held
          have found := Node.get?_insert roomy.valid roomy.room absent
            (chain key value ledger.pools level).1
          simp only [roomy.same] at found
          rw [insert_of_gap held]
          apply extended_ofNode found
            (Node.succeeds_insert valid held _ (level + 1) _ _ _ other) near
          intro _
          rw [held, Option.bind_none]
          exact .none _ _

/-! ## Rebinding -/

/-- A new value for a key changes one slot of the leaf, and the parents never know. -/
theorem cell?_replace {old : UInt64} (sound : subtree.Sound) (present : subtree.get? key = some old)
    (value : UInt64) (floor : Nat) (near : other.above (level + 1) = key.above (level + 1)) :
    (subtree.replace key value).cell? other floor =
      (subtree.cell? other floor).map fun cell => cell.rebound key value := by
  induction subtree using byLevel with
  | leaf leaf =>
      change (ofLeaf (leaf.replace (key.chunk 0) value)).cell? other floor = _
      rw [cell?_leaf, cell?_leaf]
      split
      · have here : (leaf.cell .value 0 other).rebound key value =
            (leaf.cell .value 0 other).given (key.chunk 0) (.value value) := if_pos ⟨rfl, near⟩
        rw [Option.map_some, here, Node.cell_replace (sound_leaf.mp sound).1 present]
      · rfl
  | @node level node inductionHypothesis =>
      rcases sound_node.mp sound with ⟨valid, _, children⟩
      rw [get?_node] at present
      rcases Option.bind_eq_some_iff.mp present with ⟨child, held, below⟩
      rw [replace_of_child held]
      by_cases top : floor = level + 1
      · subst floor
        have inner : (node.cell content (level + 1) other).rebound key value =
            node.cell content (level + 1) other := if_neg fun leaf => Nat.succ_ne_zero _ leaf.1
        have same : content (child.replace key value) = content child :=
          congrArg Content.child (handle_replace child key value)
        rw [cell?_top, cell?_top, Option.map_some, inner, Node.cell_replace_of_same valid held same]
      · rw [cell?_of_child (Node.get?_replace valid held _) top]
        split
        · rename_i same
          rw [cell?_below top, same, held, Option.bind_some]
          exact inductionHypothesis child (children _ child held) below
            (Key.above_eq_iff.mpr ⟨near, same⟩)
        · rename_i different
          have aside : forall cell, (ofNode node).cell? other floor = some cell ->
              cell.rebound key value = cell := by
            intro cell found
            rcases place_of_cell? found with ⟨here, stem, _⟩
            refine if_neg fun leaf => different ?_
            rw [stem, ← here, leaf.1] at leaf
            exact Key.chunk_eq_of_above_eq (Nat.succ_le_succ (Nat.zero_le level)) leaf.2
          cases found : (ofNode node).cell? other floor with
          | none => rfl
          | some cell => exact congrArg some (aside cell found).symm

/-- The leaf of a key that is present has one entry for it. -/
theorem exists_leaf {old : UInt64} (sound : subtree.Sound) (present : subtree.get? key = some old) :
    ∃ leaf, subtree.cell? key 0 = some leaf ∧ (leaf.entries.map Entry.chunk).Nodup ∧
      key.chunk 0 ∈ leaf.entries.map Entry.chunk := by
  induction subtree using byLevel with
  | leaf leaf =>
      have valid := (sound_leaf.mp sound).1
      have chunks : (leaf.cell .value 0 key).entries.map Entry.chunk =
          leaf.bindings.map Prod.fst := by
        rw [Node.cell, Node.bindings, List.map_map, List.map_map]
        rfl
      refine ⟨leaf.cell .value 0 key, rfl, ?_, ?_⟩
      · rw [chunks]
        exact (Node.listing valid).nodup_keys
      · rw [chunks]
        exact List.mem_map_of_mem ((Node.mem_bindings_iff valid).mpr present)
  | @node level node inductionHypothesis =>
      rw [get?_node] at present
      rcases Option.bind_eq_some_iff.mp present with ⟨child, held, below⟩
      rw [cell?_below (Nat.succ_ne_zero level).symm, held, Option.bind_some]
      exact inductionHypothesis child ((sound_node.mp sound).2.2 _ child held) below

/-! ## Pruning -/

/-- A subtree may only go when nothing below its top is left. -/
private theorem pruned_kept {apart : Prop} {before : Option Cell}
    (pruned : Pruned apart before (subtree.cell? other floor))
    (blank : subtree.isEmpty = true -> apart -> subtree.cell? other floor = none) (pools : Pools) :
    Pruned apart before ((subtree.kept pools).1.bind fun rest => rest.cell? other floor) := by
  rw [kept]
  split
  · rename_i empty
    exact .gone fun far => (pruned.spared far).symm.trans (blank empty far)
  · exact pruned

/-- A node is pruned when its child on the path of the key is, be it that nothing of it is left. -/
private theorem pruned_ofNode {later : Node (Subtree level)} {rest? : Option (Subtree level)}
    (held : node.get? (key.chunk (level + 1)) = some child)
    (left : forall chunk,
      later.get? chunk = if chunk = key.chunk (level + 1) then rest? else node.get? chunk)
    (named : later.named (level + 1) = node.named (level + 1))
    (near : other.above (level + 2) = key.above (level + 2))
    (deeper : other.above (level + 1) = key.above (level + 1) ->
      Pruned (other.above (floor + 1) ≠ key.above (floor + 1)) (child.cell? other floor)
        (rest?.bind fun rest => rest.cell? other floor)) :
    Pruned (other.above (floor + 1) ≠ key.above (floor + 1)) ((ofNode node).cell? other floor)
      ((ofNode later).cell? other floor) := by
  by_cases top : floor = level + 1
  · subst floor
    rw [cell?_top, cell?_top]
    exact .on_path (not_not.mpr near) named
  · rw [cell?_below top, cell?_below top, left]
    split
    · rename_i same
      rw [same, held, Option.bind_some]
      exact deeper (Key.above_eq_iff.mpr ⟨near, same⟩)
    · exact .refl _ _

/-- Removing a key takes nodes on its path away or leaves them, and spares what is apart. -/
theorem pruned_erase {old : UInt64} (sound : subtree.Sound) (present : subtree.get? key = some old)
    (pools : Pools) (floor : Nat) (near : other.above (level + 1) = key.above (level + 1)) :
    Pruned (other.above (floor + 1) ≠ key.above (floor + 1)) (subtree.cell? other floor)
      ((subtree.erase key pools).1.bind fun rest => rest.cell? other floor) := by
  induction subtree using byLevel with
  | leaf leaf =>
      rw [erase_leaf]
      by_cases top : floor = 0
      · subst floor
        apply pruned_kept
        · exact .on_path (not_not.mpr near) (leaf.named_erase (key.chunk 0) 0)
        · exact fun _ far => absurd near far
      · apply pruned_kept
        · rw [cell?_leaf, cell?_leaf, if_neg top, if_neg top]
          exact .refl _ _
        · exact fun _ _ => if_neg top
  | @node level node inductionHypothesis =>
      rcases sound_node.mp sound with ⟨valid, _, children⟩
      rw [get?_node] at present
      rcases Option.bind_eq_some_iff.mp present with ⟨child, held, below⟩
      have deeper := inductionHypothesis child (children _ child held) below
      rw [erase_of_child held]
      cases rest : (child.erase key pools).1 with
      | some smaller =>
          rw [rest] at deeper
          rw [Option.bind_some]
          exact pruned_ofNode held (Node.get?_replace valid held smaller) (node.named_replace _ _ _)
            near deeper
      | none =>
          rw [rest] at deeper
          apply pruned_kept
          · exact pruned_ofNode held (Node.get?_erase valid held) (node.named_erase _ _) near deeper
          -- A node that has lost its last entry had no others, so nothing aside goes with it.
          · intro empty far
            have erased := Node.valid_erase valid held
            have top : floor ≠ level + 1 := by
              rintro rfl
              exact far near
            rw [cell?_below top, Node.get?_eq_none_of_count_zero erased (beq_iff_eq.mp empty),
              Option.bind_none]

end Subtree

namespace Tree

variable {tree after : Tree} {root : Root} {key other : Key} {floor : Nat} {cell : Cell}

/-- What an insertion may do to the edge of a node aside. -/
inductive Follows (before after : Tree) (edge : Anchor) : Anchor -> Prop
  | same : Follows before after edge edge
  /-- The root of a tree that gets taller comes to lie below another node. -/
  | raised (top : edge = Anchor.root) (taller : before.height < after.height) (parent : Handle) :
      Follows before after edge ⟨some parent, edge.chunk⟩
  /-- The parent has moved to the next class. -/
  | moved {parent grown : Cell} (met : parent ∈ before.cells) (metLater : grown ∈ after.cells)
      (outgrown : parent.Outgrown grown) (held : edge.parent? = some parent.handle) :
      Follows before after edge ⟨some grown.handle, edge.chunk⟩

/-- A node that an insertion leaves as it is, but for the parent that it names. -/
structure Spared (before after : Tree) (cell : Cell) : Prop where
  still : cell ∈ after.cells
  edge : ∃ edge later, before.pools.anchor? cell.handle = some edge ∧
    after.pools.anchor? cell.handle = some later ∧ Follows before after edge later

/-- A tree in which a key has got another value: one slot of one leaf is another. -/
structure Overwritten (before after : Tree) (key : Key) (value : UInt64) : Prop where
  pools : after.pools = before.pools
  size : after.size = before.size
  ceiling : after.ceiling = before.ceiling
  limit? : after.limit? = before.limit?
  slot : ∃ leaf ∈ before.cells, leaf.level = 0 ∧ leaf.stem = key.above 1 ∧
    ∃ front entry back, leaf.entries = front ++ entry :: back ∧ entry.chunk = key.chunk 0 ∧
      forall cell, cell ∈ after.cells ↔ (cell ∈ before.cells ∧ cell ≠ leaf) ∨
        cell = { leaf with entries := front ++ { entry with value := .value value } :: back }

/-- A tree that a key has been taken out of. -/
structure Trimmed (before after : Tree) (key : Key) : Prop where
  /-- A node that the key is not below is neither taken away nor changed. -/
  spared : forall cell, cell.stem ≠ key.above (cell.level + 1) ->
    (cell ∈ after.cells ↔ cell ∈ before.cells)
  /-- What is left keeps its place, its handle and its edge. -/
  stays : ∀ later ∈ after.cells, ∃ cell ∈ before.cells, later.handle = cell.handle ∧
    later.level = cell.level ∧ later.stem = cell.stem ∧
    after.pools.anchor? later.handle = before.pools.anchor? cell.handle

/-- The requests that change no node: they only read, or are refused, or find no key. -/
def Quiet (tree : Tree) : Request -> Prop
  | .insert key value allowance =>
      ∃ shortage, (tree.insertWithin allowance key value).result = .error shortage
  | .update key _ | .erase key => tree.get? key = none
  | .lookup _ | .size | .isEmpty | .forEach | .toList => True

/-- What requests do to the nodes of a tree. -/
structure Framed (tree : Tree) : Prop where
  /-- The nodes in use are the cells, each under a handle of its own. -/
  live : forall handle,
    (tree.pools.anchor? handle).isSome = true ↔ ∃ cell ∈ tree.cells, cell.handle = handle
  single : ∀ first ∈ tree.cells, ∀ second ∈ tree.cells, first.handle = second.handle -> first = second
  /-- A new key spares the nodes that it is not below; all of them, when the tree gets taller. -/
  inserted : forall key value allowance,
    (tree.insertWithin allowance key value).result = .ok false ->
      ∀ cell ∈ tree.cells, cell.stem ≠ key.above (cell.level + 1) ∨
          tree.height < (tree.insertWithin allowance key value).state.height ->
        Spared tree (tree.insertWithin allowance key value).state cell
  /-- A new value for a key that is present changes the slot of that key. -/
  rebound : forall key value allowance, (tree.get? key).isSome = true ->
    Overwritten tree (tree.insertWithin allowance key value).state key value
  updated : forall key value, (tree.get? key).isSome = true ->
    Overwritten tree (tree.update key value).1 key value
  /-- A removal changes the path of its key, where the nodes that are left stay what they are. -/
  erased : forall key, (tree.get? key).isSome = true -> Trimmed tree (tree.erase key).state key
  quiet : forall request, tree.Quiet request ->
    (tree.perform request).1.cells = tree.cells ∧
      (tree.perform request).1.pools.anchor? = tree.pools.anchor?

/-! ## Insertion -/

/-- A root that is raised keeps all its cells. -/
private theorem cell?_raisedFor (rooted : tree.Rooted) (held : tree.root? = some root) (key : Key)
    (fits : other ≤ Key.bound root.level) (passed : root.top.cell? other floor = some cell) :
    (tree.raisedFor root key).1.top.cell? other floor = some cell ∧
      other ≤ Key.bound (tree.raisedFor root key).1.level := by
  have low := (rooted.sound root held).low
  have high := (fitting_raisedFor rooted held key).sound.low
  by_cases tooLow : tree.ceiling < key
  · rw [raisedFor, if_pos tooLow] at high ⊢
    change root.level + (key.topLevel - root.level) ≤ Key.maxLevel at high
    have inside := Key.le_bound_of_le (Nat.le_add_right _ _) high fits
    refine ⟨Subtree.cell?_wrapped passed tree.pools _ ?_, inside⟩
    rw [(Key.below_eq_toNat_iff high).mpr inside, (Key.below_eq_toNat_iff low).mpr fits]
  · rw [raisedFor, if_neg tooLow]
    exact ⟨passed, fits⟩

theorem extended_added (rooted : tree.Rooted) (missed : tree.get? key = none) (value : UInt64)
    (other : Key) (floor : Nat) :
    Extended (other.above (floor + 1) ≠ key.above (floor + 1)) (tree.cell? other floor)
      ((tree.added key value).1.cell? other floor) := by
  cases found : tree.cell? other floor with
  | none => exact .none _ _
  | some cell =>
      rcases root_of_cell? found with ⟨root, held, fits, passed, _⟩
      have fitting := fitting_raisedFor rooted held key
      rcases cell?_raisedFor rooted held key fits passed with ⟨tall, inside⟩
      have near := Key.above_eq_of_le_bound fitting.sound.low inside fitting.fits
      have extended := Subtree.extended_insert fitting.sound.top
        (get?_raisedFor rooted held missed) value (tree.raisedFor root key).2 floor near
      rw [tall] at extended
      rw [added_of_root held, cell?_of_root rfl]
      exact (if_pos inside).symm ▸ extended

theorem extended_insertWithin (rooted : tree.Rooted) {allowance : Allowance} {value : UInt64}
    (added : (tree.insertWithin allowance key value).result = .ok false) (other : Key) (floor : Nat) :
    Extended (other.above (floor + 1) ≠ key.above (floor + 1)) (tree.cell? other floor)
      ((tree.insertWithin allowance key value).state.cell? other floor) := by
  have inserted := Tree.inserted tree allowance key value
  generalize tree.insertWithin allowance key value = outcome at added inserted ⊢
  cases inserted with
  | rebound => cases added
  | @bound pools missed =>
      have roomier : ({ tree with pools := pools } : Tree).Rooted := ⟨rooted.sound, rooted.ceiling⟩
      exact extended_added roomier missed value other floor
  | overLimit => cases added
  | refused => cases added

/-- The edges to a place follow the node above the place. -/
private theorem follows_of_extended {apart : Prop} (rooted : tree.Rooted)
    (found : tree.cell? other floor = some cell)
    (above : Extended apart (tree.cell? other (floor + 1)) (after.cell? other (floor + 1))) :
    Follows tree after (tree.edgeAt other floor) (after.edgeAt other floor) := by
  cases upper : tree.cell? other (floor + 1) with
  | some parent =>
      rw [upper] at above
      rcases above.lasts parent rfl with ⟨later, there, succeeds⟩
      rw [edgeAt, edgeAt, upper, there, Option.elim_some, Option.elim_some]
      rcases succeeds with same | outgrown
      · rw [same]
        exact .same
      · exact .moved ⟨other, _, upper⟩ ⟨other, _, there⟩ outgrown rfl
  | none =>
      rw [edgeAt, edgeAt, upper, Option.elim_none]
      cases there : after.cell? other (floor + 1) with
      | none => exact .same
      | some later =>
          rcases root_of_cell? found with ⟨root, held, fits, _, lower⟩
          rcases root_of_cell? there with ⟨tall, heldLater, _, _, lowerLater⟩
          have top : floor = root.level := by
            by_contra different
            rcases exists_cell?_above held found (Nat.lt_of_le_of_ne lower different) with
              ⟨parent, passed⟩
            rw [upper] at passed
            cases passed
          have zero : other.chunk (floor + 1) = Anchor.root.chunk := by
            have low := (rooted.sound root held).low
            rw [top, Key.chunk_eq_of_above_eq (Nat.le_refl _) ((Key.le_bound_iff_above low).mp fits)]
            simp [Key.chunk, Anchor.root]
          rw [Option.elim_some, zero]
          refine .raised rfl ?_ later.handle
          rw [height_of_root held, height_of_root heldLater, ← top]
          exact Nat.succ_lt_succ lowerLater

/-- A key that needs a taller tree is not below any node of the tree. -/
private theorem apart_of_taller (sound : tree.Sound) {allowance : Allowance} {value : UInt64}
    (taller : tree.height < (tree.insertWithin allowance key value).state.height)
    (met : cell ∈ tree.cells) : cell.stem ≠ key.above (cell.level + 1) := by
  rcases met with ⟨other, floor, found⟩
  rcases root_of_cell? found with ⟨root, held, fits, _, lower⟩
  rcases place_of_cell? found with ⟨level, stem⟩
  have low := (sound.sound root held).low
  have wants : root.level < key.topLevel := by
    cases climbs_insertWithin sound allowance key value with
    | stays _ same => exact absurd same taller.ne'
    | rises _ grown =>
        rw [grown, height_of_root held] at taller
        omega
  intro same
  rw [level, stem] at same
  have above := (Key.above_eq_of_le (Nat.succ_le_succ lower) same).symm.trans
    ((Key.le_bound_iff_above low).mp fits)
  have inside := (Key.le_bound_iff low).mp ((Key.le_bound_iff_above low).mpr above)
  exact absurd inside (Nat.not_le.mpr wants)

theorem Sound.spared (sound : tree.Sound) {allowance : Allowance} {value : UInt64}
    (added : (tree.insertWithin allowance key value).result = .ok false) (met : cell ∈ tree.cells)
    (aside : cell.stem ≠ key.above (cell.level + 1) ∨
      tree.height < (tree.insertWithin allowance key value).state.height) :
    Spared tree (tree.insertWithin allowance key value).state cell := by
  have apart := aside.elim id fun taller => apart_of_taller sound taller met
  rcases met with ⟨other, floor, found⟩
  have soundLater := sound_insertWithin sound allowance key value
  have here := extended_insertWithin sound.toRooted added other floor
  have above := extended_insertWithin sound.toRooted added other (floor + 1)
  rcases place_of_cell? found with ⟨level, stem⟩
  rw [level, stem] at apart
  have still := here.spared apart cell found
  exact ⟨⟨other, floor, still⟩, _, _, anchor?_of_cell? sound found, anchor?_of_cell? soundLater still,
    follows_of_extended sound.toRooted found above⟩

/-! ## Rebinding -/

theorem cell?_replace (rooted : tree.Rooted) {old : UInt64} (found : tree.get? key = some old)
    (value : UInt64) (other : Key) (floor : Nat) :
    (tree.replace key value).cell? other floor =
      (tree.cell? other floor).map fun cell => cell.rebound key value := by
  rcases exists_root rooted found with ⟨root, held, fits, below⟩
  rcases rooted.sound root held with ⟨low, top⟩
  rw [replace_of_root held, cell?_of_root held, cell?_of_root rfl]
  by_cases inside : other ≤ Key.bound root.level
  · have near := Key.above_eq_of_le_bound low inside fits
    rw [if_pos inside, if_pos inside]
    exact Subtree.cell?_replace top below value floor near
  · rw [if_neg inside, if_neg inside, Option.map_none]

theorem overwritten_replace (sound : tree.Sound) {old : UInt64} (found : tree.get? key = some old)
    (value : UInt64) : Overwritten tree (tree.replace key value) key value := by
  have replaced := cell?_replace sound.toRooted found value
  rcases exists_root sound.toRooted found with ⟨root, held, fits, below⟩
  rcases Subtree.exists_leaf (sound.sound root held).top below with ⟨leaf, passed, distinct, listed⟩
  have here : tree.cell? key 0 = some leaf := by
    rw [cell?_of_root held, if_pos fits, passed]
  rcases place_of_cell? here with ⟨level, stem⟩
  rcases Entry.exists_split distinct listed with ⟨front, entry, back, entries, chunk, changed⟩
  have rebound : leaf.rebound key value =
      { leaf with entries := front ++ { entry with value := .value value } :: back } := by
    rw [Cell.rebound, if_pos ⟨level, stem⟩, Cell.given, changed]
  refine ⟨rfl, rfl, rfl, rfl, leaf, ⟨key, 0, here⟩, level, stem, front, entry, back, entries, chunk, ?_⟩
  intro cell
  rw [← rebound]
  have aside : forall other floor cell, tree.cell? other floor = some cell -> cell ≠ leaf ->
      cell.rebound key value = cell := by
    intro other floor cell there different
    rcases place_of_cell? there with ⟨lies, same⟩
    refine if_neg fun atLeaf => different ?_
    have bottom : floor = 0 := lies.symm.trans atLeaf.1
    subst bottom
    rw [cell?_congr sound.toRooted (same.symm.trans atLeaf.2), here] at there
    exact (Option.some.inj there).symm
  constructor
  · intro met
    rcases met with ⟨other, floor, there⟩
    rw [replaced] at there
    rcases Option.map_eq_some_iff.mp there with ⟨before, passedBefore, rfl⟩
    by_cases same : before = leaf
    · exact Or.inr (same ▸ rfl)
    · rw [aside other floor before passedBefore same]
      exact Or.inl ⟨⟨other, floor, passedBefore⟩, same⟩
  · intro met
    rcases met with ⟨⟨other, floor, there⟩, different⟩ | rfl
    · refine ⟨other, floor, ?_⟩
      rw [replaced, there, Option.map_some, aside other floor cell there different]
    · refine ⟨key, 0, ?_⟩
      rw [replaced, here, Option.map_some]

private theorem Sound.rebound (sound : tree.Sound) (allowance : Allowance)
    (present : (tree.get? key).isSome = true) (value : UInt64) :
    Overwritten tree (tree.insertWithin allowance key value).state key value := by
  rcases Option.isSome_iff_exists.mp present with ⟨old, found⟩
  rw [insertWithin, if_pos ((placement_eq_present_iff tree key).mpr ⟨old, found⟩)]
  exact overwritten_replace sound found value

private theorem Sound.updated (sound : tree.Sound) (present : (tree.get? key).isSome = true)
    (value : UInt64) : Overwritten tree (tree.update key value).1 key value := by
  rcases Option.isSome_iff_exists.mp present with ⟨old, found⟩
  rw [update, found]
  exact overwritten_replace sound found value

/-! ## Removal -/

theorem pruned_erase (rooted : tree.Rooted) {old : UInt64} (found : tree.get? key = some old)
    (other : Key) (floor : Nat) :
    Pruned (other.above (floor + 1) ≠ key.above (floor + 1)) (tree.cell? other floor)
      ((tree.erase key).state.cell? other floor) := by
  rcases exists_root rooted found with ⟨root, held, fits, below⟩
  rcases rooted.sound root held with ⟨low, top⟩
  rw [cell?_of_root held, (erase_of_root held found).2]
  by_cases inside : other ≤ Key.bound root.level
  · have near := Key.above_eq_of_le_bound low inside fits
    have pruned := Subtree.pruned_erase top below tree.pools floor near
    rw [if_pos inside]
    cases left : (root.top.erase key tree.pools).1 with
    | none =>
        rw [left] at pruned
        rw [cell?_of_none rfl]
        exact pruned
    | some smaller =>
        rw [left] at pruned
        rw [cell?_of_root rfl]
        exact (if_pos inside).symm ▸ pruned
  · rw [if_neg inside]
    cases left : (root.top.erase key tree.pools).1 with
    | none =>
        rw [cell?_of_none rfl]
        exact .refl _ _
    | some smaller =>
        rw [cell?_of_root rfl]
        exact (if_neg inside).symm ▸ Pruned.refl _ none

/-- Nodes that stay where they are keep the edges between them. -/
private theorem edgeAt_erase (rooted : tree.Rooted) {old : UInt64} (found : tree.get? key = some old)
    (there : (tree.erase key).state.cell? other floor = some cell) :
    (tree.erase key).state.edgeAt other floor = tree.edgeAt other floor := by
  have pruned := pruned_erase rooted found other (floor + 1)
  rw [edgeAt, edgeAt]
  cases upper : (tree.erase key).state.cell? other (floor + 1) with
  | some parent =>
      rw [upper] at pruned
      rcases pruned.stays parent rfl with ⟨before, passed, same⟩
      rw [passed, Option.elim_some, Option.elim_some, same]
  | none =>
      rcases exists_root rooted found with ⟨root, held, _, _⟩
      rcases root_of_cell? there with ⟨rest, heldLater, _, _, lower⟩
      have level : rest.level = root.level := by
        rw [(erase_of_root held found).2] at heldLater
        rcases Option.map_eq_some_iff.mp heldLater with ⟨_, _, rfl⟩
        rfl
      have top : floor = root.level := by
        by_contra different
        have below : floor < rest.level := by omega
        rcases exists_cell?_above heldLater there below with ⟨parent, passed⟩
        rw [upper] at passed
        cases passed
      have above : tree.cell? other (floor + 1) = none := by
        rw [cell?_of_root held, top, Subtree.cell?_of_lt (Nat.lt_succ_self _), ite_self]
      rw [above]

theorem Sound.trimmed (sound : tree.Sound) (present : (tree.get? key).isSome = true) :
    Trimmed tree (tree.erase key).state key := by
  rcases Option.isSome_iff_exists.mp present with ⟨old, found⟩
  have pruned := pruned_erase sound.toRooted found
  refine ⟨?_, ?_⟩
  · intro cell apart
    constructor
    · intro met
      rcases met with ⟨other, floor, there⟩
      rcases place_of_cell? there with ⟨level, stem⟩
      rw [level, stem] at apart
      exact ⟨other, floor, ((pruned other floor).spared apart).symm.trans there⟩
    · intro met
      rcases met with ⟨other, floor, there⟩
      rcases place_of_cell? there with ⟨level, stem⟩
      rw [level, stem] at apart
      exact ⟨other, floor, ((pruned other floor).spared apart).trans there⟩
  · intro later met
    rcases met with ⟨other, floor, there⟩
    rcases (pruned other floor).stays later there with ⟨cell, passed, same⟩
    rcases place_of_cell? there with ⟨level, stem⟩
    rcases place_of_cell? passed with ⟨levelToo, stemToo⟩
    refine ⟨cell, ⟨other, floor, passed⟩, same, level.trans levelToo.symm, stem.trans stemToo.symm, ?_⟩
    rw [anchor?_of_cell? (erase_keeps sound found).1 there, anchor?_of_cell? sound passed,
      edgeAt_erase sound.toRooted found there]

/-! ## All requests -/

theorem quiet_perform {request : Request} (quiet : tree.Quiet request) :
    (tree.perform request).1.cells = tree.cells ∧
      (tree.perform request).1.pools.anchor? = tree.pools.anchor? := by
  cases request with
  | insert key value allowance =>
      rcases quiet with ⟨shortage, failed⟩
      have inserted := Tree.inserted tree allowance key value
      rw [perform]
      generalize tree.insertWithin allowance key value = outcome at failed inserted ⊢
      cases inserted with
      | rebound => cases failed
      | bound => cases failed
      | overLimit => exact ⟨rfl, rfl⟩
      | refused _ gained => exact ⟨rfl, funext gained.anchor?⟩
  | update key value =>
      have missed : tree.get? key = none := quiet
      rw [perform, update, missed]
      exact ⟨rfl, rfl⟩
  | erase key =>
      rw [perform, erase_of_get?_none quiet]
      exact ⟨rfl, rfl⟩
  | lookup | size | isEmpty | forEach | toList => exact ⟨rfl, rfl⟩

theorem Sound.framed (sound : tree.Sound) : tree.Framed where
  live _ := live_iff_cells sound
  single _ met _ metToo := eq_of_handle sound met metToo
  inserted _ _ _ added _ met := sound.spared added met
  rebound _ value allowance present := sound.rebound allowance present value
  updated _ value present := sound.updated present value
  erased _ present := sound.trimmed present
  quiet _ := quiet_perform

/-- After every run of a new tree, no request reaches further than the path of its key. -/
theorem framed_after (limit? : Option Nat) (requests : List Request) :
    ((empty limit?).after requests).Framed :=
  (sound_after (sound_empty limit?) requests).framed

end Tree
end AdaptiveRadix
