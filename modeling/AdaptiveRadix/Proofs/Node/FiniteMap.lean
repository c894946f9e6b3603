import AdaptiveRadix.Node.Basic
import AdaptiveRadix.Proofs.Listing
import AdaptiveRadix.Proofs.Node.Direct
import AdaptiveRadix.Proofs.Node.Indexed
import AdaptiveRadix.Proofs.Node.SortedRun

namespace AdaptiveRadix

/-!
# Nodes as finite maps

The three layouts keep different promises, but above them a node is only a map from
chunks to values with a count.  `Node.Valid` is what every operation needs and keeps;
the lemmas of this module say what an operation does to `get?`, and `bindings` is the
one listing of that map.  Nothing above this level opens a layout again.
-/

variable {α : Type}

namespace Entry

/-- The chunk and the value, without the place in the node. -/
def binding (entry : Entry α) : Chunk × α :=
  (entry.chunk, entry.value)

end Entry

/-- There are 256 chunks, so a map that lacks one has fewer bindings. -/
theorem Listing.length_lt_of_missed {bindings : List (Chunk × α)} {find? : Chunk -> Option α}
    (listing : Listing bindings find?) {chunk : Chunk} (missed : find? chunk = none) :
    bindings.length < 256 := by
  let keys := bindings.map Prod.fst
  have unlisted : chunk ∉ keys := by
    rw [listing.mem_keys_iff, missed]
    exact Bool.false_ne_true
  have distinct : ((chunk :: keys).map UInt8.toNat).Nodup :=
    (List.nodup_cons.mpr ⟨unlisted, listing.nodup_keys⟩).map fun _ _ => UInt8.toNat_inj.mp
  have covered : (chunk :: keys).map UInt8.toNat ⊆ List.range 256 := by
    intro number listed
    rcases List.mem_map.mp listed with ⟨key, _, rfl⟩
    exact List.mem_range.mpr key.toNat_lt
  have few := (List.subperm_of_subset distinct covered).length_le
  rw [List.length_map, List.length_cons, List.length_map, List.length_range] at few
  exact few

namespace Layout

/-- What a layout promises apart from the count of its entries. -/
def Arranged : Layout α -> Nat -> Prop
  | sorted _ run, count => run.Valid count
  | indexed table, _ => table.Valid
  | direct _, _ => True

def bindings (layout : Layout α) (count : Nat) : List (Chunk × α) :=
  (layout.entries count).map Entry.binding

private theorem keys_bindings (layout : Layout α) (count : Nat) :
    (layout.bindings count).map Prod.fst = (layout.entries count).map Entry.chunk := by
  simp only [bindings, List.map_map]
  rfl

/-- A traversal lists the map that a search reads. -/
theorem listing {layout : Layout α} {count : Nat} (arranged : layout.Arranged count) :
    Listing (layout.bindings count) (layout.get? count) := by
  cases layout with
  | sorted width run =>
      have same : (sorted width run).bindings count = run.bindings count :=
        run.map_entries arranged.fits
      rw [same]
      exact ⟨run.keys_bindings count ▸ arranged.ascending, (run.get?_eq_some_iff arranged).symm⟩
  | indexed table =>
      refine ⟨keys_bindings (indexed table) count ▸ table.entries_ascending, ?_⟩
      intro chunk value
      rw [bindings, List.mem_map]
      constructor
      · intro listed
        rcases listed with ⟨entry, met, same⟩
        cases same
        exact table.get?_eq_some_iff.mpr ⟨entry.position, table.mem_entries_iff.mp met⟩
      · intro found
        rcases table.get?_eq_some_iff.mp found with ⟨offset, held⟩
        exact ⟨⟨offset, chunk, value⟩, table.mem_entries_iff.mpr held, rfl⟩
  | direct table =>
      refine ⟨keys_bindings (direct table) count ▸ table.entries_ascending, ?_⟩
      intro chunk value
      rw [bindings, List.mem_map]
      constructor
      · intro listed
        rcases listed with ⟨entry, met, same⟩
        cases same
        exact (table.mem_entries_iff.mp met).2
      · intro found
        exact ⟨⟨chunk.toNat, chunk, value⟩, table.mem_entries_iff.mpr ⟨rfl, found⟩, rfl⟩

end Layout

namespace Node

/-- A node whose layout keeps its promises and whose count is the number of its entries. -/
structure Valid (node : Node α) : Prop where
  arranged : node.layout.Arranged node.count
  counted : node.entries.length = node.count

/-- The chunks with an entry and what they hold, in ascending order of chunks. -/
def bindings (node : Node α) : List (Chunk × α) :=
  node.entries.map Entry.binding

theorem length_bindings (node : Node α) : node.bindings.length = node.entries.length :=
  List.length_map _

theorem listing {node : Node α} (valid : node.Valid) : Listing node.bindings node.get? :=
  Layout.listing valid.arranged

theorem mem_bindings_iff {node : Node α} (valid : node.Valid) {chunk : Chunk} {value : α} :
    (chunk, value) ∈ node.bindings ↔ node.get? chunk = some value :=
  (listing valid).mem_iff

/-- A count that agrees with the listing is all that validity adds to the layout. -/
private theorem valid_of_listing {node : Node α} (arranged : node.layout.Arranged node.count)
    (length : node.bindings.length = node.count) : node.Valid :=
  ⟨arranged, by rw [← length_bindings, length]⟩

theorem exists_of_count_pos {node : Node α} (valid : node.Valid) (positive : 0 < node.count) :
    ∃ chunk value, node.get? chunk = some value := by
  rw [← valid.counted, ← length_bindings] at positive
  rcases List.exists_mem_of_length_pos positive with ⟨⟨chunk, value⟩, member⟩
  exact ⟨chunk, value, (mem_bindings_iff valid).mp member⟩

theorem bindings_eq_nil_of_count_zero {node : Node α} (valid : node.Valid)
    (zero : node.count = 0) : node.bindings = [] := by
  rw [← List.length_eq_zero_iff, length_bindings, valid.counted, zero]

theorem get?_eq_none_of_count_zero {node : Node α} (valid : node.Valid) (zero : node.count = 0)
    (chunk : Chunk) : node.get? chunk = none := by
  have empty := bindings_eq_nil_of_count_zero valid zero
  cases found : node.get? chunk with
  | none => rfl
  | some value =>
      rw [← mem_bindings_iff valid, empty] at found
      cases found

/-- A count never passes the capacity: there are no more chunks, slots or places. -/
theorem count_le_capacity {node : Node α} (valid : node.Valid) :
    node.count ≤ node.sizeClass.capacity := by
  rcases node with ⟨slot, count, layout⟩
  cases layout with
  | sorted width run =>
      have fits : count ≤ width.places := valid.arranged.fits
      exact fits.trans_eq width.capacity_sizeClass.symm
  | indexed table => exact valid.counted.symm.trans_le (Indexed.length_entries_le valid.arranged)
  | direct table => exact valid.counted.symm.trans_le table.length_entries_le

theorem count_lt_capacity {node : Node α} (valid : node.Valid) (room : node.isFull = false) :
    node.count < node.sizeClass.capacity := by
  have different : node.count ≠ node.sizeClass.capacity := by
    simpa only [isFull, beq_eq_false_iff_ne] using room
  exact Nat.lt_of_le_of_ne (count_le_capacity valid) different

theorem count_lt_of_get?_none {node : Node α} (valid : node.Valid) {chunk : Chunk}
    (missed : node.get? chunk = none) : node.count < 256 := by
  rw [← valid.counted, ← length_bindings]
  exact (listing valid).length_lt_of_missed missed

/-- A full node without an entry for some chunk has a class to move to. -/
theorem exists_next? {node : Node α} (valid : node.Valid) {chunk : Chunk}
    (missed : node.get? chunk = none) (full : node.isFull = true) :
    ∃ larger, node.sizeClass.next? = some larger := by
  cases next : node.sizeClass.next? with
  | some larger => exact ⟨larger, rfl⟩
  | none =>
      have most : node.sizeClass = .c256 := (SizeClass.next?_eq_none_iff _).mp next
      have few := count_lt_of_get?_none valid missed
      have count : node.count = node.sizeClass.capacity := beq_iff_eq.mp full
      rw [count, most] at few
      exact absurd few (Nat.lt_irrefl 256)

/-! ## Insertion -/

private theorem arranged_insert {node : Node α} (valid : node.Valid) (room : node.isFull = false)
    {chunk : Chunk} (missed : node.get? chunk = none) (value : α) :
    (node.insert chunk value).layout.Arranged (node.insert chunk value).count ∧
      forall other, (node.insert chunk value).get? other =
        if other = chunk then some value else node.get? other := by
  have below := count_lt_capacity valid room
  rcases node with ⟨slot, count, layout⟩
  cases layout with
  | sorted width run =>
      have arranged : run.Valid count := valid.arranged
      have space : count < width.places := below.trans_eq width.capacity_sizeClass
      exact ⟨SortedRun.valid_insert arranged space missed value,
        SortedRun.get?_insert arranged space missed value⟩
  | indexed table =>
      have arranged : table.Valid := valid.arranged
      have few : table.entries.length < 128 := valid.counted.trans_lt below
      rcases Indexed.exists_lowestFree? arranged few with ⟨free, found⟩
      exact ⟨Indexed.valid_insert arranged found (Indexed.offset?_eq_none arranged missed) value,
        Indexed.get?_insert arranged found chunk value⟩
  | direct table => exact ⟨trivial, table.get?_insert chunk value⟩

theorem get?_insert {node : Node α} (valid : node.Valid) (room : node.isFull = false)
    {chunk : Chunk} (missed : node.get? chunk = none) (value : α) (other : Chunk) :
    (node.insert chunk value).get? other = if other = chunk then some value else node.get? other :=
  (arranged_insert valid room missed value).2 other

/-- The entries after an insertion are the old ones and the new one. -/
theorem perm_insert {node : Node α} (valid : node.Valid) (room : node.isFull = false)
    {chunk : Chunk} (missed : node.get? chunk = none) (value : α) :
    (node.insert chunk value).bindings.Perm ((chunk, value) :: node.bindings) := by
  rcases arranged_insert valid room missed value with ⟨arranged, found⟩
  have larger : Listing (node.insert chunk value).bindings fun other =>
      if other = chunk then some value else node.get? other :=
    funext found ▸ Layout.listing arranged
  exact (listing valid).perm_cons larger missed

theorem valid_insert {node : Node α} (valid : node.Valid) (room : node.isFull = false)
    {chunk : Chunk} (missed : node.get? chunk = none) (value : α) :
    (node.insert chunk value).Valid := by
  apply valid_of_listing (arranged_insert valid room missed value).1
  rw [(perm_insert valid room missed value).length_eq, List.length_cons, length_bindings,
    valid.counted]
  rfl

/-! ## Replacement and removal -/

private theorem arranged_replace {node : Node α} (valid : node.Valid) {chunk : Chunk} {old : α}
    (found : node.get? chunk = some old) (value : α) :
    (node.replace chunk value).layout.Arranged node.count ∧
      forall other, (node.replace chunk value).get? other =
        if other = chunk then some value else node.get? other := by
  rcases node with ⟨slot, count, layout⟩
  cases layout with
  | sorted width run =>
      have arranged : run.Valid count := valid.arranged
      rcases Option.bind_eq_some_iff.mp found with ⟨place, here, _⟩
      exact ⟨SortedRun.valid_replace arranged chunk value,
        SortedRun.get?_replace arranged here value⟩
  | indexed table =>
      have arranged : table.Valid := valid.arranged
      rcases Indexed.exists_offset found with ⟨offset, located⟩
      exact ⟨Indexed.valid_replace arranged chunk value,
        Indexed.get?_replace arranged located value⟩
  | direct table => exact ⟨trivial, Direct.get?_replace (Direct.contains_of_get? found) value⟩

theorem get?_replace {node : Node α} (valid : node.Valid) {chunk : Chunk} {old : α}
    (found : node.get? chunk = some old) (value : α) (other : Chunk) :
    (node.replace chunk value).get? other =
      if other = chunk then some value else node.get? other :=
  (arranged_replace valid found value).2 other

theorem valid_replace {node : Node α} (valid : node.Valid) {chunk : Chunk} {old : α}
    (found : node.get? chunk = some old) (value : α) : (node.replace chunk value).Valid := by
  rcases arranged_replace valid found value with ⟨arranged, looked⟩
  have changed : Listing (node.replace chunk value).bindings fun other =>
      if other = chunk then some value else node.get? other :=
    funext looked ▸ Layout.listing arranged
  apply valid_of_listing arranged
  rw [(listing valid).length_replace changed found, length_bindings, valid.counted]
  rfl

/-- Where a chunk has no entry there is nothing to give a value. -/
theorem replace_of_get?_none {node : Node α} (valid : node.Valid) {chunk : Chunk}
    (missed : node.get? chunk = none) (value : α) : node.replace chunk value = node := by
  rcases node with ⟨slot, count, layout⟩
  cases layout with
  | sorted width run =>
      have arranged : run.Valid count := valid.arranged
      have nowhere : run.position? count chunk = none :=
        SortedRun.position?_eq_none_iff.mpr ((SortedRun.get?_eq_none_iff arranged).mp missed)
      simp only [replace, Layout.replace, SortedRun.replace_of_missed nowhere]
  | indexed table =>
      have nowhere := Indexed.offset?_eq_none valid.arranged missed
      simp only [replace, Layout.replace, Indexed.replace, nowhere]
  | direct table =>
      have vacant : table.contains chunk = false := by
        by_contra present
        have found : table.get? chunk = none := missed
        rw [Direct.get?, if_pos (eq_true_of_ne_false present)] at found
        cases found
      simp only [replace, Layout.replace, Direct.replace, vacant, Bool.false_eq_true, if_false]

private theorem arranged_erase {node : Node α} (valid : node.Valid) {chunk : Chunk} {old : α}
    (found : node.get? chunk = some old) :
    (node.erase chunk).layout.Arranged (node.erase chunk).count ∧
      forall other, (node.erase chunk).get? other =
        if other = chunk then none else node.get? other := by
  rcases node with ⟨slot, count, layout⟩
  cases layout with
  | sorted width run =>
      have arranged : run.Valid count := valid.arranged
      rcases Option.bind_eq_some_iff.mp found with ⟨place, here, _⟩
      exact ⟨SortedRun.valid_erase arranged here, SortedRun.get?_erase arranged here⟩
  | indexed table =>
      have arranged : table.Valid := valid.arranged
      rcases Indexed.exists_offset found with ⟨offset, located⟩
      exact ⟨Indexed.valid_erase arranged located, Indexed.get?_erase located⟩
  | direct table => exact ⟨trivial, table.get?_erase chunk⟩

theorem get?_erase {node : Node α} (valid : node.Valid) {chunk : Chunk} {old : α}
    (found : node.get? chunk = some old) (other : Chunk) :
    (node.erase chunk).get? other = if other = chunk then none else node.get? other :=
  (arranged_erase valid found).2 other

/-- The entries before a removal are the ones that are left and the removed one. -/
theorem perm_erase {node : Node α} (valid : node.Valid) {chunk : Chunk} {old : α}
    (found : node.get? chunk = some old) :
    node.bindings.Perm ((chunk, old) :: (node.erase chunk).bindings) := by
  rcases arranged_erase valid found with ⟨arranged, looked⟩
  have smaller : Listing (node.erase chunk).bindings fun other =>
      if other = chunk then none else node.get? other :=
    funext looked ▸ Layout.listing arranged
  exact (listing valid).perm_of_erase smaller found

theorem valid_erase {node : Node α} (valid : node.Valid) {chunk : Chunk} {old : α}
    (found : node.get? chunk = some old) : (node.erase chunk).Valid := by
  have lost := (perm_erase valid found).length_eq
  rw [List.length_cons, length_bindings, valid.counted] at lost
  apply valid_of_listing (arranged_erase valid found).1
  exact (Nat.sub_eq_of_eq_add lost).symm

/-- A replacement is a removal with another entry in place of the removed one. -/
theorem perm_replace {node : Node α} (valid : node.Valid) {chunk : Chunk} {old : α}
    (found : node.get? chunk = some old) (value : α) :
    (node.replace chunk value).bindings.Perm ((chunk, value) :: (node.erase chunk).bindings) := by
  have erased := get?_erase valid found
  apply (listing (valid_erase valid found)).perm_cons
  · refine ⟨(listing (valid_replace valid found value)).ascending, ?_⟩
    intro other held
    rw [mem_bindings_iff (valid_replace valid found value), get?_replace valid found, erased]
    by_cases same : other = chunk
    · rw [if_pos same, if_pos same]
    · rw [if_neg same, if_neg same, if_neg same]
  · rw [erased, if_pos rfl]

/-! ## Vacant and moved nodes -/

theorem get?_vacant [Inhabited α] (sizeClass : SizeClass) (slot : Nat) (chunk : Chunk) :
    (vacant sizeClass slot : Node α).get? chunk = none := by
  cases sizeClass with
  | c128 =>
      show (Indexed.vacant : Indexed α).get? chunk = none
      rw [Indexed.get?, Indexed.offset?_vacant, Option.bind_none]
  | c256 => exact Direct.get?_vacant chunk
  | c1 => exact SortedRun.get?_vacant RunWidth.one.places chunk
  | c4 => exact SortedRun.get?_vacant RunWidth.four.places chunk
  | c16 => exact SortedRun.get?_vacant RunWidth.sixteen.places chunk
  | c32 => exact SortedRun.get?_vacant RunWidth.thirtyTwo.places chunk

private theorem arranged_vacant [Inhabited α] (sizeClass : SizeClass) (slot : Nat) :
    (vacant sizeClass slot : Node α).layout.Arranged 0 := by
  cases sizeClass with
  | c128 => exact Indexed.valid_vacant
  | c256 => exact trivial
  | c1 | c4 | c16 | c32 => exact SortedRun.valid_vacant

theorem bindings_vacant [Inhabited α] (sizeClass : SizeClass) (slot : Nat) :
    (vacant sizeClass slot : Node α).bindings = [] := by
  apply List.eq_nil_iff_forall_not_mem.mpr
  intro binding listed
  have found : (vacant sizeClass slot : Node α).get? binding.1 = some binding.2 :=
    (Layout.listing (arranged_vacant sizeClass slot)).mem_iff.mp listed
  rw [get?_vacant] at found
  cases found

theorem valid_vacant [Inhabited α] (sizeClass : SizeClass) (slot : Nat) :
    (vacant sizeClass slot : Node α).Valid := by
  apply valid_of_listing (arranged_vacant sizeClass slot)
  rw [bindings_vacant]
  rfl

/-- Add entries in turn. -/
def insertAll (target : Node α) (pairs : List (Entry α)) : Node α :=
  pairs.foldl (fun node entry => node.insert entry.chunk entry.value) target

theorem slot_insertAll (pairs : List (Entry α)) (target : Node α) :
    (target.insertAll pairs).slot = target.slot := by
  induction pairs generalizing target with
  | nil => rfl
  | cons entry rest inductionHypothesis =>
      exact inductionHypothesis (target.insert entry.chunk entry.value)

theorem count_insertAll (pairs : List (Entry α)) (target : Node α) :
    (target.insertAll pairs).count = target.count + pairs.length := by
  induction pairs generalizing target with
  | nil => rfl
  | cons entry rest inductionHypothesis =>
      have more : (target.insert entry.chunk entry.value).count = target.count + 1 := rfl
      have counted := inductionHypothesis (target.insert entry.chunk entry.value)
      rw [more, Nat.add_assoc, Nat.add_comm 1] at counted
      exact counted

theorem sizeClass_insertAll (pairs : List (Entry α)) (target : Node α) :
    (target.insertAll pairs).sizeClass = target.sizeClass := by
  induction pairs generalizing target with
  | nil => rfl
  | cons entry rest inductionHypothesis =>
      exact (inductionHypothesis (target.insert entry.chunk entry.value)).trans
        (sizeClass_insert target entry.chunk entry.value)

/-- A valid node with room for all of some entries, whose chunks are distinct and new to it. -/
structure Admits (target : Node α) (pairs : List (Entry α)) : Prop where
  valid : target.Valid
  distinct : (pairs.map Entry.chunk).Nodup
  missed : ∀ entry ∈ pairs, target.get? entry.chunk = none
  fits : target.count + pairs.length ≤ target.sizeClass.capacity

namespace Admits

variable {target : Node α} {entry : Entry α} {rest : List (Entry α)}

theorem room (admits : Admits target (entry :: rest)) : target.isFull = false := by
  have fits := admits.fits
  rw [List.length_cons] at fits
  rw [isFull, beq_eq_false_iff_ne]
  omega

theorem head_missed (admits : Admits target (entry :: rest)) : target.get? entry.chunk = none :=
  admits.missed entry List.mem_cons_self

/-- With the first entry in place, the node admits the others. -/
theorem tail (admits : Admits target (entry :: rest)) :
    Admits (target.insert entry.chunk entry.value) rest where
  valid := valid_insert admits.valid admits.room admits.head_missed entry.value
  distinct := (List.nodup_cons.mp admits.distinct).2
  missed := by
    intro other listed
    have different : other.chunk ≠ entry.chunk := fun same =>
      (List.nodup_cons.mp admits.distinct).1 (same ▸ List.mem_map_of_mem listed)
    rw [get?_insert admits.valid admits.room admits.head_missed, if_neg different]
    exact admits.missed other (List.mem_cons_of_mem entry listed)
  fits := by
    have fits := admits.fits
    have more : (target.insert entry.chunk entry.value).count = target.count + 1 := rfl
    rw [List.length_cons] at fits
    rw [sizeClass_insert, more]
    omega

/-- A new node of a class that is large enough admits the entries of another node. -/
theorem vacant [Inhabited α] {node : Node α} (valid : node.Valid) {larger : SizeClass}
    (room : node.count ≤ larger.capacity) (slot : Nat) :
    Admits (Node.vacant larger slot) node.entries where
  valid := valid_vacant larger slot
  distinct := by
    have keys := (listing valid).nodup_keys
    rwa [bindings, List.map_map] at keys
  missed entry _ := get?_vacant larger slot entry.chunk
  fits := by
    rw [sizeClass_vacant, valid.counted]
    exact (Nat.zero_add node.count).trans_le room

end Admits

/-- The entries that a node admits all arrive, and nothing that was there is lost. -/
theorem insertAll_keeps (pairs : List (Entry α)) {target : Node α} (admits : Admits target pairs) :
    (target.insertAll pairs).Valid ∧ forall chunk value,
      (target.insertAll pairs).get? chunk = some value ↔
        (chunk, value) ∈ pairs.map Entry.binding ∨ target.get? chunk = some value := by
  induction pairs generalizing target with
  | nil => simp [insertAll, admits.valid]
  | cons entry rest inductionHypothesis =>
      rcases inductionHypothesis admits.tail with ⟨restValid, restFound⟩
      refine ⟨restValid, ?_⟩
      intro chunk value
      have arrived := restFound chunk value
      rw [get?_insert admits.valid admits.room admits.head_missed] at arrived
      refine arrived.trans ?_
      rw [List.map_cons, List.mem_cons]
      by_cases same : chunk = entry.chunk
      · subst chunk
        simp [admits.head_missed, Entry.binding, eq_comm, or_comm]
      · simp [same, Entry.binding]

theorem slot_moved [Inhabited α] (node : Node α) (sizeClass : SizeClass) (slot : Nat) :
    (node.moved sizeClass slot).slot = slot :=
  slot_insertAll node.entries (vacant sizeClass slot)

theorem sizeClass_moved [Inhabited α] (node : Node α) (sizeClass : SizeClass) (slot : Nat) :
    (node.moved sizeClass slot).sizeClass = sizeClass :=
  (sizeClass_insertAll node.entries (vacant sizeClass slot)).trans (sizeClass_vacant sizeClass slot)

theorem count_moved [Inhabited α] {node : Node α} (valid : node.Valid) (sizeClass : SizeClass)
    (slot : Nat) : (node.moved sizeClass slot).count = node.count := by
  have counted := count_insertAll node.entries (vacant sizeClass slot)
  rw [valid.counted] at counted
  exact counted.trans (Nat.zero_add node.count)

/-- A move to a class with enough room keeps every entry. -/
theorem moved_keeps [Inhabited α] {node : Node α} (valid : node.Valid) {larger : SizeClass}
    (room : node.count ≤ larger.capacity) (slot : Nat) :
    (node.moved larger slot).Valid ∧
      forall chunk, (node.moved larger slot).get? chunk = node.get? chunk := by
  rcases insertAll_keeps node.entries (Admits.vacant valid room slot) with ⟨movedValid, found⟩
  refine ⟨movedValid, ?_⟩
  intro chunk
  apply Option.ext
  intro value
  refine (found chunk value).trans ?_
  rw [get?_vacant, ← mem_bindings_iff valid]
  simp [bindings]

theorem bindings_moved [Inhabited α] {node : Node α} (valid : node.Valid) {larger : SizeClass}
    (room : node.count ≤ larger.capacity) (slot : Nat) :
    (node.moved larger slot).bindings = node.bindings := by
  rcases moved_keeps valid room slot with ⟨movedValid, same⟩
  have listed := listing movedValid
  rw [funext same] at listed
  exact listed.eq (listing valid)

end Node
end AdaptiveRadix
