import AdaptiveRadix.Proofs.Node.Overwrite
import AdaptiveRadix.Proofs.Tree.Granted

namespace AdaptiveRadix

/-!
# Insertions and the values they bring

No value plays a part in where a node goes, whether there is room, or what becomes of
the pools.  So an insertion of one value and then of another under the same key leaves
the tree that the second value alone would have left, with every node in its slot, and
an insertion that is refused for one value is refused in the same way for every other.
-/

namespace Subtree

variable {level : Nat} {node : Node (Subtree level)} {child : Subtree level} {key : Key}

theorem handle_replace (subtree : Subtree level) (key : Key) (value : UInt64) :
    (subtree.replace key value).handle = subtree.handle := by
  cases level with
  | zero => exact Node.named_replace (show Node UInt64 from subtree) (key.chunk 0) value 0
  | succ level =>
      simp only [replace]
      split
      · exact Node.named_replace (show Node (Subtree level) from subtree) _ _ (level + 1)
      · rfl

theorem replace_replace {subtree : Subtree level} (sound : subtree.Sound) {old : UInt64}
    (found : subtree.get? key = some old) (first second : UInt64) :
    (subtree.replace key first).replace key second = subtree.replace key second := by
  induction subtree using byLevel with
  | leaf leaf => exact leaf.replace_replace (key.chunk 0) first second
  | @node level node inductionHypothesis =>
      rcases sound_node.mp sound with ⟨valid, _, children⟩
      rw [get?_node] at found
      rcases Option.bind_eq_some_iff.mp found with ⟨child, held, below⟩
      have replaced := Node.get?_replace valid held (child.replace key first) (key.chunk (level + 1))
      rw [if_pos rfl] at replaced
      rw [replace_of_child held, replace_of_child replaced, replace_of_child held,
        Node.replace_replace, inductionHypothesis child (children _ child held) below]

/-- A node that takes a subtree under the key's chunk holds what becomes of the subtree. -/
private theorem hold_replace (valid : node.Valid) (room : node.isFull = false)
    (missed : node.get? (key.chunk (level + 1)) = none) (child : Subtree level) (value : UInt64)
    (pools : Pools) :
    hold node (key.chunk (level + 1)) (child.replace key value) pools =
      ((hold node (key.chunk (level + 1)) child pools).1.replace key value,
        (hold node (key.chunk (level + 1)) child pools).2) := by
  have held := Node.get?_insert valid room missed child (key.chunk (level + 1))
  rw [if_pos rfl] at held
  have holder : (hold node (key.chunk (level + 1)) child pools).1.replace key value =
      ofNode (node.insert (key.chunk (level + 1)) (child.replace key value)) :=
    (replace_of_child held value).trans
      (congrArg ofNode (Node.replace_insert valid room missed child (child.replace key value)))
  have named : (ofNode (node.insert (key.chunk (level + 1)) (child.replace key value))).handle =
      (ofNode (node.insert (key.chunk (level + 1)) child)).handle := by
    exact (Node.named_insert node _ _ (level + 1)).trans (Node.named_insert node _ _ (level + 1)).symm
  rw [holder]
  refine Prod.ext rfl ?_
  exact congrArg₂ (fun below above => pools.anchored below ⟨some above, key.chunk (level + 1)⟩)
    (handle_replace child key value) named

theorem chain_replace (key : Key) (first second : UInt64) (pools : Pools) (level : Nat) :
    chain key second pools level =
      ((chain key first pools level).1.replace key second, (chain key first pools level).2) := by
  induction level with
  | zero =>
      let empty : Node UInt64 := Node.vacant .c1 (pools.take ⟨.leaf, .c1⟩).1.slot
      have leaf : (empty.insert (key.chunk 0) first).replace (key.chunk 0) second =
          empty.insert (key.chunk 0) second :=
        Node.replace_insert (Node.valid_vacant _ _) rfl (Node.get?_vacant _ _ _) first second
      exact Prod.ext leaf.symm rfl
  | succ level inductionHypothesis =>
      simp only [chain, inductionHypothesis]
      exact hold_replace (Node.valid_vacant _ _) rfl (Node.get?_vacant _ _ _) _ second _

/-- What an insertion does apart from the value that it brings. -/
theorem insert_replace {subtree : Subtree level} (sound : subtree.Sound)
    (missed : subtree.get? key = none) (first second : UInt64) (ledger : Ledger) :
    subtree.insert key second ledger =
      ((subtree.insert key first ledger).1.replace key second,
        (subtree.insert key first ledger).2) := by
  induction subtree using byLevel generalizing ledger with
  | leaf leaf =>
      have roomy := Node.roomy_withRoom (sound_leaf.mp sound).1 missed 0 (fun _ => none) ledger
      have absent := (roomy.same (key.chunk 0)).trans missed
      refine Prod.ext ?_ rfl
      exact (Node.replace_insert roomy.valid roomy.room absent first second).symm
  | @node level node inductionHypothesis =>
      rcases sound_node.mp sound with ⟨valid, _, children⟩
      cases held : node.get? (key.chunk (level + 1)) with
      | some child =>
          have absent := (get?_of_held held rfl).symm.trans missed
          have grown := Node.get?_replace valid held (child.insert key first ledger).1
            (key.chunk (level + 1))
          rw [if_pos rfl] at grown
          rw [insert_of_child held, insert_of_child held,
            inductionHypothesis child (children _ child held) absent, replace_of_child grown,
            Node.replace_replace]
      | none =>
          have roomy : Node.Roomy node (roomFor node key first ledger).1 :=
            Node.roomy_withRoom valid held _ _ _
          have room : roomFor node key second ledger = roomFor node key first ledger := by
            simp only [roomFor, chain_replace key first second]
          rw [insert_of_gap held, insert_of_gap held, room, chain_replace key first second]
          simp only
          rw [hold_replace roomy.valid roomy.room ((roomy.same _).trans held)]

end Subtree

namespace Tree

variable {tree : Tree} {root : Root} {key : Key} {first : UInt64}

theorem replace_replace (sound : tree.Sound) {old : UInt64} (found : tree.get? key = some old)
    (first second : UInt64) :
    (tree.replace key first).replace key second = tree.replace key second := by
  rcases exists_root sound.toRooted found with ⟨root, held, _, below⟩
  rw [replace_of_root held, replace_of_root held, replace_of_root rfl,
    Subtree.replace_replace (sound.sound root held).top below]

theorem added_replace (sound : tree.Sound) (missed : tree.get? key = none) (first second : UInt64) :
    tree.added key second =
      ((tree.added key first).1.replace key second, (tree.added key first).2) := by
  cases held : tree.root? with
  | none =>
      simp only [added, held, Subtree.chain_replace key first second, replace, Option.map_some]
  | some root =>
      have fitting := fitting_raisedFor sound.toRooted held key
      have grown := Subtree.insert_replace fitting.sound.top
        (get?_raisedFor sound.toRooted held missed) first second (tree.raisedFor root key).2
      simp only [raisedFor] at grown
      simp only [added, held, grown, replace, Option.map_some]

/-- A second value takes the place of the first, as if it had come alone. -/
theorem insert_of_ok (sound : tree.Sound) {present : Bool}
    (accepted : (tree.insert key first).result = .ok present) (second : UInt64) :
    tree.insert key second = ⟨(tree.insert key first).state.replace key second, .ok present,
      (tree.insert key first).events⟩ := by
  cases settled tree key first with
  | present found does =>
      rw [does] at accepted ⊢
      rw [insert_of_found found, replace_replace sound found]
      cases accepted
      rfl
  | excess missed limited excess does =>
      rw [does] at accepted
      cases accepted
  | fits missed fits does =>
      rw [does] at accepted ⊢
      have roomy : (tree.roomyFor key).Sound := sound.roomier (Pools.roomier_roomFor _ _)
      have missedRoomy : (tree.roomyFor key).get? key = none := missed
      rw [insert_of_fits missed fits, added_replace roomy missedRoomy first second]
      cases accepted
      rfl

/-- A key is bound once its insertion was accepted. -/
theorem get?_of_insert_ok (sound : tree.Sound) {present : Bool}
    (accepted : (tree.insert key first).result = .ok present) :
    (tree.insert key first).state.get? key = some first := by
  rcases bound_or_refused sound none key first with ⟨_, _, changed⟩ | ⟨shortage, refused, _⟩
  · exact (changed key).trans (if_pos rfl)
  · rw [← insert, accepted] at refused
    cases refused

/-- What is refused for one value is refused for every other. -/
theorem insert_of_error {shortage : OutOfMemory}
    (refused : (tree.insert key first).result = .error shortage) (second : UInt64) :
    tree.insert key second = tree.insert key first := by
  cases settled tree key first with
  | present found does | fits found fits does =>
      rw [does] at refused
      cases refused
  | excess missed limited excess does => rw [does, insert_of_excess missed limited excess]

/-- While the system grants all room, a refusal leaves the tree as it was, and the key was not
there. -/
theorem unchanged_of_insert_error {shortage : OutOfMemory}
    (refused : (tree.insert key first).result = .error shortage) :
    (tree.insert key first).state = tree ∧ tree.get? key = none := by
  cases settled tree key first with
  | present found does | fits found fits does =>
      rw [does] at refused
      cases refused
  | excess missed limited excess does =>
      rw [does]
      exact ⟨rfl, missed⟩

end Tree
end AdaptiveRadix
