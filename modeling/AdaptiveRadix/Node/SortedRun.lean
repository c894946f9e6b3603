import AdaptiveRadix.ChunkSearch

namespace AdaptiveRadix

/-!
# Sorted runs

The layout of the four smaller classes: two parallel arrays of fixed width, chunks
and slots, whose leading `count` places are the entries in strictly ascending chunk
order.  The count is kept by the node around the run and passed to every operation.

The places past `count` hold whatever an earlier removal left there, and no
operation looks at them.  Insertion opens a gap by moving the places from the
insertion point up to `count`; removal closes one by moving the places behind it
down, which leaves the last of them doubled past the new end.
-/

/-- An occupied slot of a node, as a traversal meets it: where it lies, the chunk that
selects it, and what it holds. -/
structure Entry (α : Type) where
  position : Nat
  chunk : Chunk
  value : α
deriving DecidableEq, Repr

/-- Two parallel arrays of which only the leading places mean anything. -/
@[ext]
structure SortedRun (α : Type) (width : Nat) where
  chunks : Vector Chunk width
  slots : Vector α width

namespace SortedRun

variable {α β : Type} {width : Nat}

/-- A run without entries.  Its places are filled because arrays have no holes. -/
def vacant [Inhabited α] : SortedRun α width :=
  ⟨Vector.replicate width 0, Vector.replicate width default⟩

/-- The chunks that belong to entries. -/
def live (run : SortedRun α width) (count : Nat) : List Chunk :=
  run.chunks.toList.take count

def position? (run : SortedRun α width) (count : Nat) (chunk : Chunk) : Option Nat :=
  ChunkSearch.position? (run.live count) chunk

def get? (run : SortedRun α width) (count : Nat) (chunk : Chunk) : Option α :=
  (run.position? count chunk).bind fun position => run.slots[position]?

/-- Move the places from `position` up to `count` one place up and put `item` into
the gap.  Places past `count` keep what they hold. -/
def opened (items : Vector β width) (position count : Nat) (item : β) : Vector β width :=
  Vector.ofFn fun place =>
    if place.val < position then items[place]
    else if place.val = position then item
    else if place.val ≤ count then items[place.val - 1]
    else items[place]

/-- Move the places behind `position` one place down, as far as `count` reaches. -/
def closed (items : Vector β width) (position count : Nat) : Vector β width :=
  Vector.ofFn fun place =>
    if following : place.val + 1 < width then
      if position ≤ place.val ∧ place.val + 1 < count then items[place.val + 1] else items[place]
    else items[place]

/-- Add an entry for a chunk that has none, to a run with fewer entries than its width. -/
def insert (run : SortedRun α width) (count : Nat) (chunk : Chunk) (value : α) :
    SortedRun α width :=
  let position := ChunkSearch.insertionPoint (run.live count) chunk
  ⟨opened run.chunks position count chunk, opened run.slots position count value⟩

/-- Give the entry of a chunk another value. -/
def replace (run : SortedRun α width) (count : Nat) (chunk : Chunk) (value : α) :
    SortedRun α width :=
  match run.position? count chunk with
  | some position => ⟨run.chunks, run.slots.setIfInBounds position value⟩
  | none => run

/-- Take out the entry of a chunk. -/
def erase (run : SortedRun α width) (count : Nat) (chunk : Chunk) : SortedRun α width :=
  match run.position? count chunk with
  | some position => ⟨closed run.chunks position count, closed run.slots position count⟩
  | none => run

/-- The entries in ascending order; the position of an entry is its place. -/
def entries (run : SortedRun α width) (count : Nat) : List (Entry α) :=
  ((List.finRange width).take count).map fun place =>
    ⟨place.val, run.chunks[place], run.slots[place]⟩

/-- What opening a gap does to the leading places. -/
theorem take_opened (items : Vector β width) {position count : Nat} (item : β)
    (inside : position ≤ count) (room : count < width) :
    (opened items position count item).toList.take (count + 1) =
      (items.toList.take count).insertIdx position item := by
  apply List.ext_getElem
  · rw [List.length_insertIdx]
    simp only [List.length_take, Vector.length_toList]
    split <;> omega
  · intro place first second
    simp only [List.length_take, Vector.length_toList] at first
    rw [List.getElem_take, Vector.getElem_toList, List.getElem_insertIdx]
    simp only [opened, Vector.getElem_ofFn, List.getElem_take, Vector.getElem_toList,
      Fin.getElem_fin]
    split
    · rfl
    · split
      · rfl
      · split
        · rfl
        · omega

/-- What closing a gap does to the leading places. -/
theorem take_closed (items : Vector β width) {position count : Nat}
    (inside : position < count) (fits : count ≤ width) :
    (closed items position count).toList.take (count - 1) =
      (items.toList.take count).eraseIdx position := by
  apply List.ext_getElem
  · rw [List.length_eraseIdx]
    simp only [List.length_take, Vector.length_toList]
    split <;> omega
  · intro place first second
    simp only [List.length_take, Vector.length_toList] at first
    rw [List.getElem_take, Vector.getElem_toList, List.getElem_eraseIdx]
    simp only [closed, Vector.getElem_ofFn, List.getElem_take, Vector.getElem_toList,
      Fin.getElem_fin]
    have following : place + 1 < width := by omega
    rw [dif_pos following]
    split
    · split
      · omega
      · rfl
    · split
      · rfl
      · omega

theorem length_entries (run : SortedRun α width) {count : Nat} (fits : count ≤ width) :
    (run.entries count).length = count := by
  simp only [entries, List.length_map, List.length_take, List.length_finRange]
  omega

end SortedRun
end AdaptiveRadix
