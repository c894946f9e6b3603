import AdaptiveRadix.Node.Request
import AdaptiveRadix.Proofs.Checked.Basic
import AdaptiveRadix.Proofs.Node.FiniteMap

namespace AdaptiveRadix

/-!
# Checked nodes

The layouts of a node and the node itself are tested for indices into arrays, room for
another entry, the bitmap of an indexed table, and counts.
-/

variable {α : Type}

namespace SortedRun

variable {width : Nat}

def checkedGet? (run : SortedRun α width) (count : Nat) (chunk : Chunk) : Checked (Option α) := do
  ensure (count ≤ width) .outOfRange
  ensure (∀ position ∈ run.position? count chunk, position < width) .outOfRange
  return run.get? count chunk

/-- The places from the insertion point up to the count move one place up, which takes a
place past the last entry. -/
def checkedInsert (run : SortedRun α width) (count : Nat) (chunk : Chunk) (value : α) :
    Checked (SortedRun α width) := do
  ensure (count < width) .fullNode
  ensure (ChunkSearch.insertionPoint (run.live count) chunk ≤ count) .outOfRange
  return run.insert count chunk value

def checkedReplace (run : SortedRun α width) (count : Nat) (chunk : Chunk) (value : α) :
    Checked (SortedRun α width) := do
  ensure (count ≤ width) .outOfRange
  ensure (∀ position ∈ run.position? count chunk, position < width) .outOfRange
  return run.replace count chunk value

/-- The places behind the entry move one place down, as far as the count reaches. -/
def checkedErase (run : SortedRun α width) (count : Nat) (chunk : Chunk) :
    Checked (SortedRun α width) := do
  ensure (count ≤ width) .outOfRange
  ensure (∀ position ∈ run.position? count chunk, position + 1 ≤ count) .outOfRange
  return run.erase count chunk

def checkedEntries (run : SortedRun α width) (count : Nat) : Checked (List (Entry α)) := do
  ensure (count ≤ width) .outOfRange
  return run.entries count

variable {run : SortedRun α width} {count : Nat}

theorem checkedGet?_of_fits (fits : count ≤ width) (chunk : Chunk) :
    run.checkedGet? count chunk = .ok (run.get? count chunk) := by
  have inside : ∀ position ∈ run.position? count chunk, position < width :=
    fun position found => Nat.lt_of_lt_of_le (position?_lt fits found) fits
  rw [checkedGet?, ensure_bind fits, ensure_bind inside]
  rfl

theorem checkedInsert_of_room (room : count < width) (chunk : Chunk) (value : α) :
    run.checkedInsert count chunk value = .ok (run.insert count chunk value) := by
  have inside := ChunkSearch.insertionPoint_le_length (run.live count) chunk
  rw [run.length_live (Nat.le_of_lt room)] at inside
  rw [checkedInsert, ensure_bind room, ensure_bind inside]
  rfl

theorem checkedReplace_of_fits (fits : count ≤ width) (chunk : Chunk) (value : α) :
    run.checkedReplace count chunk value = .ok (run.replace count chunk value) := by
  have inside : ∀ position ∈ run.position? count chunk, position < width :=
    fun position found => Nat.lt_of_lt_of_le (position?_lt fits found) fits
  rw [checkedReplace, ensure_bind fits, ensure_bind inside]
  rfl

theorem checkedErase_of_fits (fits : count ≤ width) (chunk : Chunk) :
    run.checkedErase count chunk = .ok (run.erase count chunk) := by
  have inside : ∀ position ∈ run.position? count chunk, position + 1 ≤ count :=
    fun position found => position?_lt fits found
  rw [checkedErase, ensure_bind fits, ensure_bind inside]
  rfl

theorem checkedEntries_of_fits (fits : count ≤ width) :
    run.checkedEntries count = .ok (run.entries count) := by
  rw [checkedEntries, ensure_bind fits]
  rfl

end SortedRun

namespace Indexed

/-- Every slot number that the table records is one of the 128. -/
def checkedOffset? (table : Indexed α) (chunk : Chunk) : Checked (Option Nat) := do
  ensure (∀ offset ∈ table.offset? chunk, offset < 128) .outOfRange
  return table.offset? chunk

def checkedGet? (table : Indexed α) (chunk : Chunk) : Checked (Option α) := do
  let _ ← table.checkedOffset? chunk
  return table.get? chunk

/-- The bitmap is compared with the count before a free slot is looked for in it. -/
def checkedInsert (table : Indexed α) (count : Nat) (chunk : Chunk) (value : α) :
    Checked (Indexed α) := do
  ensure (count < 128) .fullNode
  ensure ((List.finRange 128).countP table.isUsed = count) .usedMismatch
  ensure (table.lowestFree?.isSome) .noFreeSlot
  return table.insert chunk value

def checkedReplace (table : Indexed α) (chunk : Chunk) (value : α) : Checked (Indexed α) := do
  let _ ← table.checkedOffset? chunk
  return table.replace chunk value

def checkedErase (table : Indexed α) (chunk : Chunk) : Checked (Indexed α) := do
  let _ ← table.checkedOffset? chunk
  return table.erase chunk

def checkedEntries (table : Indexed α) : Checked (List (Entry α)) := do
  ensure (∀ place : Fin 256, ∀ offset ∈ table.offset? (UInt8.ofNat place.val), offset < 128)
    .outOfRange
  return table.entries

variable {table : Indexed α}

theorem checkedOffset?_of_valid (valid : table.Valid) (chunk : Chunk) :
    table.checkedOffset? chunk = .ok (table.offset? chunk) := by
  have inside : ∀ offset ∈ table.offset? chunk, offset < 128 :=
    fun offset located => valid.bounded located
  rw [checkedOffset?, ensure_bind inside]
  rfl

/-- Fewer entries than slots leave a slot free, and the bitmap shows it. -/
theorem checkedInsert_of_room (valid : table.Valid) (room : table.entries.length < 128)
    (chunk : Chunk) (value : α) :
    table.checkedInsert table.entries.length chunk value = .ok (table.insert chunk value) := by
  have free : table.lowestFree?.isSome := Option.isSome_iff_exists.mpr (exists_lowestFree? valid room)
  rw [checkedInsert, ensure_bind room, ensure_bind (countP_isUsed valid), ensure_bind free]
  rfl

theorem checkedEntries_of_valid (valid : table.Valid) :
    table.checkedEntries = .ok table.entries := by
  have inside : ∀ place : Fin 256, ∀ offset ∈ table.offset? (UInt8.ofNat place.val), offset < 128 :=
    fun _ _ located => valid.bounded located
  rw [checkedEntries, ensure_bind inside]
  rfl

end Indexed

namespace Direct

def checkedEntries (table : Direct α) : Checked (List (Entry α)) := do
  ensure (∀ word : Fin 4, ∀ bit ∈ setBits (table.wordAt word), word.val * 64 + bit < 256) .outOfRange
  return table.entries

theorem checkedEntries_eq (table : Direct α) : table.checkedEntries = .ok table.entries := by
  have inside : ∀ word : Fin 4, ∀ bit ∈ setBits (table.wordAt word), word.val * 64 + bit < 256 :=
    fun _ _ listed => (place_of_bit listed).1
  rw [checkedEntries, ensure_bind inside]
  rfl

end Direct

namespace Layout

/-! ## Layouts

A direct table has a slot for each chunk, so only a walk through it can go astray. -/

def checkedGet? (layout : Layout α) (count : Nat) (chunk : Chunk) : Checked (Option α) :=
  match layout with
  | sorted _ run => run.checkedGet? count chunk
  | indexed table => table.checkedGet? chunk
  | direct table => .ok (table.get? chunk)

def checkedInsert (layout : Layout α) (count : Nat) (chunk : Chunk) (value : α) :
    Checked (Layout α) :=
  match layout with
  | sorted width run => sorted width <$> run.checkedInsert count chunk value
  | indexed table => indexed <$> table.checkedInsert count chunk value
  | direct table => .ok (direct (table.insert chunk value))

def checkedReplace (layout : Layout α) (count : Nat) (chunk : Chunk) (value : α) :
    Checked (Layout α) :=
  match layout with
  | sorted width run => sorted width <$> run.checkedReplace count chunk value
  | indexed table => indexed <$> table.checkedReplace chunk value
  | direct table => .ok (direct (table.replace chunk value))

def checkedErase (layout : Layout α) (count : Nat) (chunk : Chunk) : Checked (Layout α) :=
  match layout with
  | sorted width run => sorted width <$> run.checkedErase count chunk
  | indexed table => indexed <$> table.checkedErase chunk
  | direct table => .ok (direct (table.erase chunk))

def checkedEntries (layout : Layout α) (count : Nat) : Checked (List (Entry α)) :=
  match layout with
  | sorted _ run => run.checkedEntries count
  | indexed table => table.checkedEntries
  | direct table => table.checkedEntries

variable {layout : Layout α} {count : Nat}

theorem checkedGet?_of_arranged (arranged : layout.Arranged count) (chunk : Chunk) :
    layout.checkedGet? count chunk = .ok (layout.get? count chunk) := by
  cases layout with
  | sorted width run => exact SortedRun.checkedGet?_of_fits arranged.fits chunk
  | indexed table =>
      rw [checkedGet?, Indexed.checkedGet?, Indexed.checkedOffset?_of_valid arranged, ok_bind]
      rfl
  | direct table => rfl

/-- Only an insertion looks at the number of entries beside the arrangement. -/
theorem checkedInsert_of_room (arranged : layout.Arranged count)
    (counted : (layout.entries count).length = count) (room : count < layout.sizeClass.capacity)
    (chunk : Chunk) (value : α) :
    layout.checkedInsert count chunk value = .ok (layout.insert count chunk value) := by
  cases layout with
  | sorted width run =>
      have inside : count < width.places := width.capacity_sizeClass ▸ room
      rw [checkedInsert, SortedRun.checkedInsert_of_room inside]
      rfl
  | indexed table =>
      have same : table.entries.length = count := counted
      subst same
      rw [checkedInsert, Indexed.checkedInsert_of_room arranged room]
      rfl
  | direct table => rfl

theorem checkedReplace_of_arranged (arranged : layout.Arranged count) (chunk : Chunk) (value : α) :
    layout.checkedReplace count chunk value = .ok (layout.replace count chunk value) := by
  cases layout with
  | sorted width run =>
      rw [checkedReplace, SortedRun.checkedReplace_of_fits arranged.fits]
      rfl
  | indexed table =>
      rw [checkedReplace, Indexed.checkedReplace, Indexed.checkedOffset?_of_valid arranged, ok_bind]
      rfl
  | direct table => rfl

theorem checkedErase_of_arranged (arranged : layout.Arranged count) (chunk : Chunk) :
    layout.checkedErase count chunk = .ok (layout.erase count chunk) := by
  cases layout with
  | sorted width run =>
      rw [checkedErase, SortedRun.checkedErase_of_fits arranged.fits]
      rfl
  | indexed table =>
      rw [checkedErase, Indexed.checkedErase, Indexed.checkedOffset?_of_valid arranged, ok_bind]
      rfl
  | direct table => rfl

theorem checkedEntries_of_arranged (arranged : layout.Arranged count) :
    layout.checkedEntries count = .ok (layout.entries count) := by
  cases layout with
  | sorted width run => exact SortedRun.checkedEntries_of_fits arranged.fits
  | indexed table => exact Indexed.checkedEntries_of_valid arranged
  | direct table => exact Direct.checkedEntries_eq table

end Layout

namespace Node

/-! ## Nodes

The count of a node is a number of 16 bits. -/

def checkedGet? (node : Node α) (chunk : Chunk) : Checked (Option α) :=
  node.layout.checkedGet? node.count chunk

def checkedInsert (node : Node α) (chunk : Chunk) (value : α) : Checked (Node α) := do
  ensure (node.isFull = false) .fullNode
  let present ← node.checkedGet? chunk
  ensure (present.isNone) .chunkTaken
  let layout ← node.layout.checkedInsert node.count chunk value
  ensure (node.count + 1 < 2 ^ 16) .countOverflow
  return { node with count := node.count + 1, layout := layout }

def checkedReplace (node : Node α) (chunk : Chunk) (value : α) : Checked (Node α) := do
  let layout ← node.layout.checkedReplace node.count chunk value
  return { node with layout := layout }

def checkedErase (node : Node α) (chunk : Chunk) : Checked (Node α) := do
  let layout ← node.layout.checkedErase node.count chunk
  ensure (0 < node.count) .countUnderflow
  let present ← layout.checkedGet? (node.count - 1) chunk
  ensure (present.isNone) .entryLeft
  return { node with count := node.count - 1, layout := layout }

def checkedEntries (node : Node α) : Checked (List (Entry α)) :=
  node.layout.checkedEntries node.count

/-- Every entry is added by a checked insertion, and all of them have to arrive. -/
def checkedMoved [Inhabited α] (node : Node α) (sizeClass : SizeClass) (slot : Nat) :
    Checked (Node α) := do
  ensure (node.sizeClass.capacity < sizeClass.capacity) .notLarger
  let entries ← node.checkedEntries
  let target ← entries.foldlM (fun target entry => target.checkedInsert entry.chunk entry.value)
    (vacant sizeClass slot)
  ensure (target.count = node.count) .entriesLost
  return target

variable {node : Node α} {chunk : Chunk}

theorem checkedGet?_of_valid (valid : node.Valid) (chunk : Chunk) :
    node.checkedGet? chunk = .ok (node.get? chunk) :=
  Layout.checkedGet?_of_arranged valid.arranged chunk

theorem checkedInsert_of_room (valid : node.Valid) (room : node.isFull = false)
    (missed : node.get? chunk = none) (value : α) :
    node.checkedInsert chunk value = .ok (node.insert chunk value) := by
  have small : node.count + 1 < 2 ^ 16 := by
    have few := count_lt_of_get?_none valid missed
    omega
  have absent : (node.get? chunk).isNone := missed ▸ rfl
  rw [checkedInsert, ensure_bind room, checkedGet?_of_valid valid, ok_bind, ensure_bind absent,
    Layout.checkedInsert_of_room valid.arranged valid.counted (count_lt_capacity valid room),
    ok_bind, ensure_bind small]
  rfl

theorem checkedReplace_of_valid (valid : node.Valid) (chunk : Chunk) (value : α) :
    node.checkedReplace chunk value = .ok (node.replace chunk value) := by
  rw [checkedReplace, Layout.checkedReplace_of_arranged valid.arranged, ok_bind]
  rfl

theorem checkedErase_of_found (valid : node.Valid) {old : α} (found : node.get? chunk = some old) :
    node.checkedErase chunk = .ok (node.erase chunk) := by
  have positive : 0 < node.count := by
    by_contra zero
    rw [get?_eq_none_of_count_zero valid (Nat.eq_zero_of_not_pos zero)] at found
    cases found
  have absent : ((node.erase chunk).get? chunk).isNone := by
    rw [get?_erase valid found, if_pos rfl]
    rfl
  have searched := Layout.checkedGet?_of_arranged (valid_erase valid found).arranged chunk
  rw [checkedErase, Layout.checkedErase_of_arranged valid.arranged, ok_bind, ensure_bind positive]
  show ((node.erase chunk).layout.checkedGet? (node.erase chunk).count chunk >>= _) = _
  rw [searched, ok_bind]
  exact ensure_bind absent .entryLeft _

theorem checkedEntries_of_valid (valid : node.Valid) : node.checkedEntries = .ok node.entries :=
  Layout.checkedEntries_of_arranged valid.arranged

/-- A removal is a search first, and goes on only where that finds an entry. -/
def checkedPerform (node : Node α) : Request α -> Checked (Node α × Answer α)
  | .insert chunk value => do
      let larger ← node.checkedInsert chunk value
      return (larger, .done)
  | .replace chunk value => do
      let found ← node.checkedGet? chunk
      let changed ← node.checkedReplace chunk value
      return (changed, .value found)
  | .erase chunk => do
      match ← node.checkedGet? chunk with
      | some value =>
          let smaller ← node.checkedErase chunk
          return (smaller, .value (some value))
      | none => return (node, .value none)
  | .lookup chunk => do
      let found ← node.checkedGet? chunk
      return (node, .value found)
  | .forEach => do
      let entries ← node.checkedEntries
      return (node, .entries entries)

/-- What an insertion takes for granted of a node; the other calls ask for nothing. -/
def Grants (node : Node α) : Request α -> Prop
  | .insert chunk _ => node.isFull = false ∧ node.get? chunk = none
  | .replace .. | .erase _ | .lookup _ | .forEach => True

instance Grants.decidable (node : Node α) : (request : Request α) -> Decidable (node.Grants request)
  | .insert chunk _ => inferInstanceAs (Decidable (node.isFull = false ∧ node.get? chunk = none))
  | .replace .. | .erase _ | .lookup _ | .forEach => inferInstanceAs (Decidable True)

theorem checkedPerform_of_valid (valid : node.Valid) {request : Request α}
    (grants : node.Grants request) : node.checkedPerform request = .ok (node.perform request) := by
  cases request with
  | insert chunk value =>
      rw [checkedPerform, checkedInsert_of_room valid grants.1 grants.2, ok_bind]
      rfl
  | replace chunk value =>
      rw [checkedPerform, checkedGet?_of_valid valid, ok_bind, checkedReplace_of_valid valid, ok_bind]
      rfl
  | erase chunk =>
      rw [checkedPerform, checkedGet?_of_valid valid, ok_bind, perform]
      cases found : node.get? chunk with
      | none => rfl
      | some value =>
          simp only
          rw [checkedErase_of_found valid found, ok_bind]
          rfl
  | lookup chunk =>
      rw [checkedPerform, checkedGet?_of_valid valid, ok_bind]
      rfl
  | forEach =>
      rw [checkedPerform, checkedEntries_of_valid valid, ok_bind]
      rfl

theorem valid_perform (valid : node.Valid) {request : Request α} (grants : node.Grants request) :
    (node.perform request).1.Valid := by
  cases request with
  | insert chunk value => exact valid_insert valid grants.1 grants.2 value
  | replace chunk value =>
      cases found : node.get? chunk with
      | none =>
          rw [perform, replace_of_get?_none valid found]
          exact valid
      | some old => exact valid_replace valid found value
  | erase chunk =>
      rw [perform]
      cases found : node.get? chunk with
      | none => exact valid
      | some old => exact valid_erase valid found
  | lookup chunk | forEach => exact valid

/-- Calls each of which is granted when its turn comes. -/
def GrantsAll : Node α -> List (Request α) -> Prop
  | _, [] => True
  | node, request :: rest => node.Grants request ∧ GrantsAll (node.perform request).1 rest

instance GrantsAll.decidable :
    (node : Node α) -> (requests : List (Request α)) -> Decidable (node.GrantsAll requests)
  | _, [] => inferInstanceAs (Decidable True)
  | node, request :: rest =>
      have := GrantsAll.decidable (node.perform request).1 rest
      inferInstanceAs (Decidable (node.Grants request ∧ GrantsAll _ rest))

theorem checkedServed_of_valid (valid : node.Valid) {requests : List (Request α)}
    (granted : node.GrantsAll requests) :
    checkedServed checkedPerform node requests = .ok (served perform node requests) := by
  induction requests generalizing node with
  | nil => rfl
  | cons request rest inductionHypothesis =>
      have later := inductionHypothesis (valid_perform valid granted.1) granted.2
      rw [checkedServed, checkedPerform_of_valid valid granted.1, ok_bind, later, ok_bind]
      rfl

/-- The entries that a node admits are added one by one. -/
theorem foldlM_checkedInsert (pairs : List (Entry α)) {target : Node α}
    (admits : Admits target pairs) :
    pairs.foldlM (fun target entry => target.checkedInsert entry.chunk entry.value) target =
      .ok (target.insertAll pairs) := by
  induction pairs generalizing target with
  | nil => rfl
  | cons entry rest inductionHypothesis =>
      rw [List.foldlM_cons, checkedInsert_of_room admits.valid admits.room admits.head_missed, ok_bind]
      exact inductionHypothesis admits.tail

theorem checkedMoved_of_valid [Inhabited α] (valid : node.Valid) {larger : SizeClass}
    (grows : node.sizeClass.capacity < larger.capacity) (slot : Nat) :
    node.checkedMoved larger slot = .ok (node.moved larger slot) := by
  have room : node.count ≤ larger.capacity := (count_le_capacity valid).trans (Nat.le_of_lt grows)
  have arrived : ((vacant larger slot : Node α).insertAll node.entries).count = node.count :=
    count_moved valid larger slot
  rw [checkedMoved, ensure_bind grows, checkedEntries_of_valid valid, ok_bind,
    foldlM_checkedInsert node.entries (Admits.vacant valid room slot), ok_bind, ensure_bind arrived]
  rfl

end Node
end AdaptiveRadix
