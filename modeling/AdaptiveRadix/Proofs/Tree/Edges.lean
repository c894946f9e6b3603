import AdaptiveRadix.Proofs.Pool.Anchors
import AdaptiveRadix.Proofs.Tree.Contents

namespace AdaptiveRadix

/-!
# The nodes of a subtree and the pools

`Subtree.edges` lists the nodes of a subtree by handle, each with the edge that leads
to it.  Every operation on a subtree exchanges the edges before it for the edges after
it, so the account that the pools keep stays the account that the walk would give.

Between its steps an operation leaves the two accounts apart: a moved node's children
still name its old handle, and a node given back is still held by its parent.  Each
lemma below closes one such gap, and is stated for the whole of it.
-/

namespace Node

variable {α : Type}

/-- The handle that a node goes by at a level. -/
def named (node : Node α) (level : Nat) : Handle :=
  ⟨⟨Family.ofLevel level, node.sizeClass⟩, node.slot⟩

theorem named_insert (node : Node α) (chunk : Chunk) (value : α) (level : Nat) :
    (node.insert chunk value).named level = node.named level := by
  rw [named, sizeClass_insert]
  rfl

theorem named_replace (node : Node α) (chunk : Chunk) (value : α) (level : Nat) :
    (node.replace chunk value).named level = node.named level := by
  rw [named, sizeClass_replace]
  rfl

theorem named_erase (node : Node α) (chunk : Chunk) (level : Nat) :
    (node.erase chunk).named level = node.named level := by
  rw [named, sizeClass_erase]
  rfl

/-- The edges from a holder to those values of some bindings that are nodes. -/
def heads (holder : Handle) (child? : α -> Option Handle) (bindings : List (Chunk × α)) :
    List (Handle × Anchor) :=
  bindings.filterMap fun binding => (child? binding.2).map fun child => (child, ⟨some holder, binding.1⟩)

theorem handles_heads (holder : Handle) (child? : α -> Option Handle)
    (bindings : List (Chunk × α)) :
    (heads holder child? bindings).map Prod.fst =
      bindings.filterMap fun binding => child? binding.2 := by
  rw [heads, List.map_filterMap]
  congr 1
  funext binding
  cases child? binding.2 <;> rfl

private theorem adopt_heads (holder parent : Handle) (child? : α -> Option Handle)
    (bindings : List (Chunk × α)) :
    ((heads holder child? bindings).map fun child =>
        (child.1, { child.2 with parent? := some parent })) = heads parent child? bindings := by
  rw [heads, heads, List.map_filterMap]
  congr 1
  funext binding
  cases child? binding.2 <;> rfl

theorem heads_none (holder : Handle) (bindings : List (Chunk × α)) :
    heads holder (fun _ => none) bindings = [] := by
  simp [heads]

variable [Inhabited α]

/-- A node that moves keeps its children. -/
theorem children_moved {node : Node α} (valid : node.Valid) {larger : SizeClass}
    (room : node.count ≤ larger.capacity) (slot : Nat) (holder : Handle)
    (child? : α -> Option Handle) :
    ((node.moved larger slot).entries.filterMap fun entry => child? entry.value) =
      (heads holder child? node.bindings).map Prod.fst := by
  rw [handles_heads, ← bindings_moved valid room slot, bindings, List.filterMap_map]
  rfl

/-- What becomes of a full node whose edge is on record. -/
theorem withRoom_of_recorded {node : Node α} (valid : node.Valid) (full : node.isFull = true)
    {larger : SizeClass} (next : node.sizeClass.next? = some larger) {level : Nat} {ledger : Ledger}
    {anchor : Anchor} (recorded : ledger.pools.anchor? (node.named level) = some anchor)
    (child? : α -> Option Handle) :
    node.withRoom level child? ledger =
      let taken := (ledger.pools.release (node.named level)).take ⟨.ofLevel level, larger⟩
      (node.moved larger taken.1.slot, {
        pools := (taken.2.anchored taken.1 anchor).adoptedAll taken.1
          ((heads (node.named level) child? node.bindings).map Prod.fst)
        events := ledger.events ++ [.grew (.ofLevel level) node.sizeClass larger level] }) := by
  have more := SizeClass.capacity_lt_of_next? next
  rw [← beq_iff_eq.mp full] at more
  have children := children_moved valid more.le
    ((ledger.pools.release (node.named level)).take ⟨.ofLevel level, larger⟩).1.slot
    (node.named level) child?
  rw [named] at recorded
  simp only [withRoom, full, next, recorded, Option.getD_some, ← children]
  rfl

/-- A node that moves gives its old handle up, and its children follow it. -/
theorem withRoom_exchange_of_next {node : Node α} (valid : node.Valid) (full : node.isFull = true)
    {larger : SizeClass} (next : node.sizeClass.next? = some larger) (level : Nat)
    (child? : α -> Option Handle) (ledger : Ledger) (anchor : Anchor) :
    Exchange ledger.pools (node.withRoom level child? ledger).2.pools
      ((node.named level, anchor) :: heads (node.named level) child? node.bindings)
      (((node.withRoom level child? ledger).1.named level, anchor) ::
        heads ((node.withRoom level child? ledger).1.named level) child? node.bindings) := by
  refine ⟨?_⟩
  intro others inventory
  let taken := (ledger.pools.release (node.named level)).take ⟨.ofLevel level, larger⟩
  have name : (node.moved larger taken.1.slot).named level = taken.1 := by
    rw [named, sizeClass_moved, slot_moved]
    rfl
  have exchanged := ((inventory.release.take ⟨.ofLevel level, larger⟩).anchored anchor).perm
    List.perm_middle.symm
  have adopted := Exchange.adoptedAll taken.1 (heads (node.named level) child? node.bindings)
    (taken.2.anchored taken.1 anchor)
  rw [adopt_heads] at adopted
  rw [withRoom_of_recorded valid full next inventory.head, name]
  exact (adopted.inventory exchanged).perm List.perm_middle

/-- A node that makes room for a chunk that it lacks can move if it has to. -/
theorem withRoom_exchange {node : Node α} (valid : node.Valid) {chunk : Chunk}
    (missed : node.get? chunk = none) (level : Nat) (child? : α -> Option Handle) (ledger : Ledger)
    (anchor : Anchor) :
    Exchange ledger.pools (node.withRoom level child? ledger).2.pools
      ((node.named level, anchor) :: heads (node.named level) child? node.bindings)
      (((node.withRoom level child? ledger).1.named level, anchor) ::
        heads ((node.withRoom level child? ledger).1.named level) child? node.bindings) := by
  cases full : node.isFull with
  | false =>
      rw [withRoom_of_room full]
      exact Exchange.refl _ _
  | true =>
      rcases exists_next? valid missed full with ⟨larger, next⟩
      exact withRoom_exchange_of_next valid full next level child? ledger anchor

end Node

namespace Subtree

variable {level : Nat} {leaf : Node UInt64} {node : Node (Subtree level)} {chunk : Chunk}
  {child : Subtree level} {key : Key} {before after pools : Pools}

/-- Every node of a subtree, with the edge that leads to it. -/
def edges : {level : Nat} -> Subtree level -> Anchor -> List (Handle × Anchor)
  | 0, (leaf : Node UInt64), anchor => [(leaf.named 0, anchor)]
  | level + 1, (node : Node (Subtree level)), anchor =>
      (node.named (level + 1), anchor) :: node.entries.flatMap fun entry =>
        entry.value.edges ⟨some (node.named (level + 1)), entry.chunk⟩

/-- The edges of the subtrees that a node holds. -/
def edgesBelow (holder : Handle) (bindings : List (Chunk × Subtree level)) :
    List (Handle × Anchor) :=
  bindings.flatMap fun binding => binding.2.edges ⟨some holder, binding.1⟩

theorem edges_leaf (leaf : Node UInt64) (anchor : Anchor) :
    (ofLeaf leaf).edges anchor = [(leaf.named 0, anchor)] :=
  rfl

theorem edges_node (node : Node (Subtree level)) (anchor : Anchor) :
    (ofNode node).edges anchor =
      (node.named (level + 1), anchor) :: edgesBelow (node.named (level + 1)) node.bindings := by
  rw [edgesBelow, Node.bindings, List.flatMap_map]
  rfl

/-- What holds a subtree concerns only its top. -/
def innerEdges (subtree : Subtree level) : List (Handle × Anchor) :=
  (subtree.edges Anchor.root).tail

theorem edges_eq_cons (subtree : Subtree level) (anchor : Anchor) :
    subtree.edges anchor = (subtree.handle, anchor) :: subtree.innerEdges := by
  cases level <;> rfl

theorem edgesBelow_cons (holder : Handle) (chunk : Chunk) (child : Subtree level)
    (rest : List (Chunk × Subtree level)) :
    edgesBelow holder ((chunk, child) :: rest) =
      child.edges ⟨some holder, chunk⟩ ++ edgesBelow holder rest :=
  List.flatMap_cons

private theorem edgesBelow_perm (holder : Handle) {first second : List (Chunk × Subtree level)}
    (same : first.Perm second) : (edgesBelow holder first).Perm (edgesBelow holder second) :=
  same.flatMap_right _

/-- The tops of what a node holds, and all that lies deeper. -/
theorem heads_perm (holder : Handle) (bindings : List (Chunk × Subtree level)) :
    (Node.heads holder (fun child => some child.handle) bindings ++
        bindings.flatMap fun binding => binding.2.innerEdges).Perm (edgesBelow holder bindings) := by
  have tops : Node.heads holder (fun child : Subtree level => some child.handle) bindings =
      bindings.map fun binding => (binding.2.handle, ⟨some holder, binding.1⟩) :=
    congrFun List.filterMap_eq_map bindings
  rw [tops, edgesBelow]
  simp only [edges_eq_cons]
  exact List.map_append_flatMap_perm _ _ _

/-- The edges of a child, and those of the rest of the node that holds it. -/
theorem edges_perm_of_held (valid : node.Valid) (held : node.get? chunk = some child)
    (anchor : Anchor) :
    ((ofNode node).edges anchor).Perm
      (child.edges ⟨some (node.named (level + 1)), chunk⟩ ++
        (ofNode (node.erase chunk)).edges anchor) := by
  rw [edges_node, edges_node, Node.named_erase]
  refine List.Perm.trans ?_ List.perm_middle.symm
  rw [← edgesBelow_cons]
  exact (edgesBelow_perm _ (Node.perm_erase valid held)).cons _

/-- The edges of a child that has taken another's place, and those of the same rest. -/
theorem edges_perm_of_replaced (valid : node.Valid) (held : node.get? chunk = some child)
    (smaller : Subtree level) (anchor : Anchor) :
    ((ofNode (node.replace chunk smaller)).edges anchor).Perm
      (smaller.edges ⟨some (node.named (level + 1)), chunk⟩ ++
        (ofNode (node.erase chunk)).edges anchor) := by
  rw [edges_node, edges_node, Node.named_replace, Node.named_erase]
  refine List.Perm.trans ?_ List.perm_middle.symm
  rw [← edgesBelow_cons]
  exact (edgesBelow_perm _ (Node.perm_replace valid held smaller)).cons _

/-- What becomes of one child becomes of the node that holds it. -/
theorem replace_exchange {smaller : Subtree level} (valid : node.Valid)
    (held : node.get? chunk = some child)
    (below : forall anchor, Exchange before after (child.edges anchor) (smaller.edges anchor))
    (anchor : Anchor) :
    Exchange before after ((ofNode node).edges anchor)
      ((ofNode (node.replace chunk smaller)).edges anchor) :=
  ((below _).append _).perm (edges_perm_of_held valid held anchor)
    (edges_perm_of_replaced valid held smaller anchor).symm

/-- A subtree that is gone leaves the rest of the node that held it. -/
theorem drop_exchange (valid : node.Valid) (held : node.get? chunk = some child)
    (below : forall anchor, Exchange before after (child.edges anchor) []) (anchor : Anchor) :
    Exchange before after ((ofNode node).edges anchor)
      ((ofNode (node.erase chunk)).edges anchor) :=
  ((below _).append _).perm (edges_perm_of_held valid held anchor) (List.Perm.refl _)

/-! ## Growing -/

/-- A subtree that a node comes to hold is on record under its chunk. -/
theorem hold_exchange (valid : node.Valid) (room : node.isFull = false)
    (missed : node.get? chunk = none) (child : Subtree level) (pools : Pools)
    (anchor loose : Anchor) :
    Exchange pools (hold node chunk child pools).2
      (child.edges loose ++ (ofNode node).edges anchor)
      ((hold node chunk child pools).1.edges anchor) := by
  let holder := node.named (level + 1)
  have name : (ofNode (node.insert chunk child)).handle = holder :=
    Node.named_insert node chunk child (level + 1)
  have pooled : (hold node chunk child pools).2 =
      pools.anchored child.handle ⟨some holder, chunk⟩ :=
    congrArg (fun handle => pools.anchored child.handle ⟨some handle, chunk⟩) name
  have new : (child.edges ⟨some holder, chunk⟩ ++ (ofNode node).edges anchor).Perm
      ((ofNode (node.insert chunk child)).edges anchor) := by
    rw [edges_node, edges_node, Node.named_insert]
    refine List.perm_middle.trans (List.Perm.cons _ ?_)
    rw [← edgesBelow_cons]
    exact (edgesBelow_perm holder (Node.perm_insert valid room missed child)).symm
  rw [pooled]
  refine Exchange.perm ?_ (List.Perm.refl _) new
  rw [edges_eq_cons child, edges_eq_cons child]
  exact (Exchange.anchored pools child.handle loose ⟨some holder, chunk⟩).append
    (child.innerEdges ++ (ofNode node).edges anchor)

private theorem hold_vacant_exchange (chunk : Chunk) (child : Subtree level) (pools : Pools)
    (loose : Anchor) :
    Exchange pools
      (hold (Node.vacant .c1 (pools.take ⟨.inner, .c1⟩).1.slot) chunk child
        (pools.take ⟨.inner, .c1⟩).2).2
      (child.edges loose)
      ((hold (Node.vacant .c1 (pools.take ⟨.inner, .c1⟩).1.slot) chunk child
        (pools.take ⟨.inner, .c1⟩).2).1.edges Anchor.root) := by
  let taken := pools.take ⟨.inner, .c1⟩
  let fresh : Node (Subtree level) := Node.vacant .c1 taken.1.slot
  have edges : (ofNode fresh).edges Anchor.root = [(taken.1, Anchor.root)] := by
    rw [edges_node, Node.bindings_vacant]
    rfl
  have held := hold_exchange (Node.valid_vacant .c1 taken.1.slot) rfl
    (Node.get?_vacant .c1 taken.1.slot chunk) child taken.2 Anchor.root loose
  rw [edges] at held
  have took := ((Exchange.take pools ⟨.inner, .c1⟩).append (child.edges loose)).perm
    (List.Perm.refl _) List.perm_append_comm
  exact took.trans held

/-- A fresh path takes its nodes from the pools and gives nothing back. -/
theorem chain_exchange (key : Key) (value : UInt64) (pools : Pools) (level : Nat) :
    Exchange pools (chain key value pools level).2 []
      ((chain key value pools level).1.edges Anchor.root) := by
  induction level with
  | zero =>
      let fresh : Node UInt64 := Node.vacant .c1 (pools.take ⟨.leaf, .c1⟩).1.slot
      have edges : (chain key value pools 0).1.edges Anchor.root =
          [((pools.take ⟨.leaf, .c1⟩).1, Anchor.root)] :=
        congrArg (fun handle => [(handle, Anchor.root)]) (Node.named_insert fresh (key.chunk 0) value 0)
      rw [edges]
      exact Exchange.take pools ⟨.leaf, .c1⟩
  | succ level inductionHypothesis =>
      exact inductionHypothesis.trans (hold_vacant_exchange (key.chunk (level + 1)) _ _ _)

theorem wrapped_exchange (subtree : Subtree level) (pools : Pools) (rise : Nat) :
    Exchange pools (subtree.wrapped pools rise).2 (subtree.edges Anchor.root)
      ((subtree.wrapped pools rise).1.edges Anchor.root) := by
  induction rise with
  | zero => exact Exchange.refl pools _
  | succ rise inductionHypothesis =>
      exact inductionHypothesis.trans (hold_vacant_exchange 0 _ _ _)

private theorem insert_leaf_exchange (valid : leaf.Valid) (missed : leaf.get? (key.chunk 0) = none)
    (value : UInt64) (ledger : Ledger) (anchor : Anchor) :
    Exchange ledger.pools ((ofLeaf leaf).insert key value ledger).2.pools
      ((ofLeaf leaf).edges anchor) (((ofLeaf leaf).insert key value ledger).1.edges anchor) := by
  have moved := Node.withRoom_exchange valid missed 0 (fun _ => none) ledger anchor
  rw [Node.heads_none, Node.heads_none] at moved
  rw [insert_leaf, edges_leaf, edges_leaf, Node.named_insert]
  exact moved

/-- The node at which a path ends may move before the missing part of the path joins it. -/
theorem roomFor_exchange (valid : node.Valid) (missed : node.get? (key.chunk (level + 1)) = none)
    (value : UInt64) (ledger : Ledger) (anchor : Anchor) :
    Exchange (chain key value ledger.pools level).2 (roomFor node key value ledger).2.pools
      ((ofNode node).edges anchor) ((ofNode (roomFor node key value ledger).1).edges anchor) := by
  let roomy := roomFor node key value ledger
  have facts : Node.Roomy node roomy.1 := Node.roomy_withRoom valid missed _ _ _
  have bindings : roomy.1.bindings = node.bindings := by
    have listed := Node.listing facts.valid
    rw [funext facts.same] at listed
    exact listed.eq (Node.listing valid)
  have moved := (Node.withRoom_exchange valid missed (level + 1) (fun child => some child.handle)
    { ledger with pools := (chain key value ledger.pools level).2 } anchor).append
      (node.bindings.flatMap fun binding => binding.2.innerEdges)
  rw [edges_node, edges_node, bindings]
  exact moved.perm ((heads_perm _ _).symm.cons _) ((heads_perm _ _).cons _)

private theorem insert_gap_exchange (valid : node.Valid)
    (missed : node.get? (key.chunk (level + 1)) = none) (value : UInt64) (ledger : Ledger)
    (anchor : Anchor) :
    Exchange ledger.pools ((ofNode node).insert key value ledger).2.pools
      ((ofNode node).edges anchor) (((ofNode node).insert key value ledger).1.edges anchor) := by
  let path := chain key value ledger.pools level
  let roomy := roomFor node key value ledger
  have facts : Node.Roomy node roomy.1 := Node.roomy_withRoom valid missed _ _ _
  have held := hold_exchange facts.valid facts.room ((facts.same _).trans missed) path.1
    roomy.2.pools anchor Anchor.root
  have chained := (chain_exchange key value ledger.pools level).append ((ofNode node).edges anchor)
  have both := ((roomFor_exchange valid missed value ledger anchor).append
    (path.1.edges Anchor.root)).perm List.perm_append_comm List.perm_append_comm
  rw [insert_of_gap missed]
  exact (chained.trans both).trans held

/-- An insertion leaves on record exactly the nodes of the subtree it makes. -/
theorem insert_exchange {subtree : Subtree level} (sound : subtree.Sound)
    (missed : subtree.get? key = none) (value : UInt64) (ledger : Ledger) (anchor : Anchor) :
    Exchange ledger.pools (subtree.insert key value ledger).2.pools (subtree.edges anchor)
      ((subtree.insert key value ledger).1.edges anchor) := by
  induction subtree using byLevel generalizing ledger anchor with
  | leaf leaf => exact insert_leaf_exchange (sound_leaf.mp sound).1 missed value ledger anchor
  | @node level node inductionHypothesis =>
      rcases sound_node.mp sound with ⟨valid, _, children⟩
      cases held : node.get? (key.chunk (level + 1)) with
      | some child =>
          have absent := (get?_of_held held rfl).symm.trans missed
          rw [insert_of_child held]
          exact replace_exchange valid held
            (inductionHypothesis child (children _ child held) absent ledger) anchor
      | none => exact insert_gap_exchange valid held value ledger anchor

/-- A replacement moves no node. -/
theorem replace_value_exchange {subtree : Subtree level} (sound : subtree.Sound) {old : UInt64}
    (found : subtree.get? key = some old) (value : UInt64) (pools : Pools) (anchor : Anchor) :
    Exchange pools pools (subtree.edges anchor) ((subtree.replace key value).edges anchor) := by
  induction subtree using byLevel generalizing anchor with
  | leaf leaf =>
      have same : ((ofLeaf leaf).replace key value).edges anchor = (ofLeaf leaf).edges anchor :=
        congrArg (fun handle => [(handle, anchor)]) (Node.named_replace leaf (key.chunk 0) value 0)
      rw [same]
      exact Exchange.refl pools _
  | @node level node inductionHypothesis =>
      rcases sound_node.mp sound with ⟨valid, _, children⟩
      rw [get?_node] at found
      rcases Option.bind_eq_some_iff.mp found with ⟨child, held, below⟩
      rw [replace_of_child held]
      exact replace_exchange valid held
        (inductionHypothesis child (children _ child held) below) anchor

/-! ## Pruning -/

/-- The edges of a subtree that may be gone. -/
def edges? (subtree? : Option (Subtree level)) (anchor : Anchor) : List (Handle × Anchor) :=
  subtree?.elim [] fun subtree => subtree.edges anchor

private theorem kept_exchange {subtree : Subtree level} {anchor : Anchor}
    (blank : subtree.isEmpty = true -> subtree.edges anchor = [(subtree.handle, anchor)])
    (pools : Pools) :
    Exchange pools (subtree.kept pools).2 (subtree.edges anchor)
      (edges? (subtree.kept pools).1 anchor) := by
  cases empty : subtree.isEmpty with
  | true =>
      simp only [kept, empty, if_true]
      rw [blank empty]
      exact Exchange.release pools subtree.handle anchor
  | false =>
      simp only [kept, empty, Bool.false_eq_true, if_false]
      exact Exchange.refl pools _

/-- A removal leaves on record exactly the nodes of the subtree it leaves. -/
theorem erase_exchange {subtree : Subtree level} (sound : subtree.Sound) {old : UInt64}
    (found : subtree.get? key = some old) (pools : Pools) (anchor : Anchor) :
    Exchange pools (subtree.erase key pools).2 (subtree.edges anchor)
      (edges? (subtree.erase key pools).1 anchor) := by
  induction subtree using byLevel generalizing anchor with
  | leaf leaf =>
      have same : (ofLeaf leaf).edges anchor = (ofLeaf (leaf.erase (key.chunk 0))).edges anchor := by
        rw [edges_leaf, edges_leaf, Node.named_erase]
      rw [erase_leaf, same]
      exact kept_exchange (fun _ => rfl) pools
  | @node level node inductionHypothesis =>
      rcases sound_node.mp sound with ⟨valid, _, children⟩
      rw [get?_node] at found
      rcases Option.bind_eq_some_iff.mp found with ⟨child, held, looked⟩
      have below := inductionHypothesis child (children _ child held) looked
      rw [erase_of_child held]
      cases rest : (child.erase key pools).1 with
      | some smaller =>
          rw [rest] at below
          exact replace_exchange valid held below anchor
      | none =>
          rw [rest] at below
          refine (drop_exchange valid held below anchor).trans (kept_exchange ?_ _)
          intro empty
          have erased := Node.valid_erase valid held
          rw [edges_node, Node.bindings_eq_nil_of_count_zero erased (beq_iff_eq.mp empty)]
          rfl

private theorem kept_releases (subtree : Subtree level) (pools : Pools) :
    ∃ handles : List Handle, (subtree.kept pools).2 = handles.foldl Pools.release pools := by
  rw [kept]
  split
  · exact ⟨[subtree.handle], rfl⟩
  · exact ⟨[], rfl⟩

/-- A removal does nothing to the pools but give nodes back. -/
theorem erase_releases (subtree : Subtree level) (key : Key) (pools : Pools) :
    ∃ handles : List Handle, (subtree.erase key pools).2 = handles.foldl Pools.release pools := by
  induction subtree using byLevel with
  | leaf leaf => exact kept_releases (ofLeaf (leaf.erase (key.chunk 0))) pools
  | @node level node inductionHypothesis =>
      cases held : node.get? (key.chunk (level + 1)) with
      | none =>
          refine ⟨[], ?_⟩
          simp only [ofNode, erase, held, List.foldl_nil]
      | some child =>
          rcases inductionHypothesis child with ⟨handles, below⟩
          rw [erase_of_child held, below]
          cases (child.erase key pools).1 with
          | some smaller => exact ⟨handles, rfl⟩
          | none =>
              rcases kept_releases (ofNode (node.erase (key.chunk (level + 1))))
                (handles.foldl Pools.release pools) with ⟨more, rest⟩
              refine ⟨handles ++ more, ?_⟩
              rw [List.foldl_append]
              exact rest

end Subtree
end AdaptiveRadix
