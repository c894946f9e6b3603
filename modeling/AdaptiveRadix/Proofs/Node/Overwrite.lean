import AdaptiveRadix.Proofs.Node.FiniteMap

namespace AdaptiveRadix

/-!
# Writing an entry twice

The second value that a chunk is given leaves no trace of the first.  Nor does it
matter whether the entry came in with the first value or with the second: where an
entry goes is decided by its chunk and by the entries that are there, and by nothing
else.
-/

variable {α : Type} {chunk : Chunk}

namespace SortedRun

variable {width count : Nat} {run : SortedRun α width}

theorem replace_replace (run : SortedRun α width) (count : Nat) (chunk : Chunk)
    (first second : α) :
    (run.replace count chunk first).replace count chunk second = run.replace count chunk second := by
  have placed : (run.replace count chunk first).position? count chunk = run.position? count chunk := by
    rw [position?, live_replace, position?]
  rw [replace, placed, replace, replace]
  cases run.position? count chunk with
  | none => rfl
  | some place =>
      refine SortedRun.ext rfl (Vector.ext fun other inside => ?_)
      simp only [Vector.getElem_setIfInBounds]
      split <;> rfl

theorem replace_insert (valid : run.Valid count) (room : count < width)
    (missed : run.get? count chunk = none) (first second : α) :
    (run.insert count chunk first).replace (count + 1) chunk second =
      run.insert count chunk second := by
  have placed : (run.insert count chunk first).position? (count + 1) chunk =
      some (ChunkSearch.insertionPoint (run.live count) chunk) := by
    rw [position?_eq_some_iff (valid_insert valid room missed first), live_insert run room,
      List.getElem?_insertIdx_self, if_pos (ChunkSearch.insertionPoint_le_length _ chunk)]
  rw [replace, placed]
  refine SortedRun.ext rfl (Vector.ext fun other inside => ?_)
  simp only [insert, Vector.getElem_setIfInBounds, opened, Vector.getElem_ofFn]
  by_cases here : ChunkSearch.insertionPoint (run.live count) chunk = other
  · rw [if_pos here, if_neg (Nat.not_lt.mpr here.le), if_pos here.symm]
  · rw [if_neg here, if_neg (Ne.symm here), if_neg (Ne.symm here)]

end SortedRun

namespace Indexed

variable {table : Indexed α}

theorem replace_replace (table : Indexed α) (chunk : Chunk) (first second : α) :
    (table.replace chunk first).replace chunk second = table.replace chunk second := by
  have placed : (table.replace chunk first).offset? chunk = table.offset? chunk := by
    rw [replace]
    split <;> rfl
  rw [replace, placed, replace, replace]
  cases table.offset? chunk with
  | none => rfl
  | some offset =>
      refine Indexed.ext rfl rfl (Vector.ext fun other inside => ?_)
      simp only [Vector.getElem_setIfInBounds]
      split <;> rfl

theorem replace_insert {slot : Fin 128} (free : table.lowestFree? = some slot) (chunk : Chunk)
    (first second : α) :
    (table.insert chunk first).replace chunk second = table.insert chunk second := by
  have placed := offset?_insert free chunk first chunk
  rw [if_pos rfl] at placed
  rw [replace, placed, insert, insert, free]
  refine Indexed.ext rfl rfl (Vector.ext fun other inside => ?_)
  simp only [Vector.getElem_setIfInBounds, Vector.getElem_set]
  split <;> rfl

end Indexed

namespace Direct

theorem replace_of_contains {table : Direct α} (present : table.contains chunk = true) (value : α) :
    table.replace chunk value = { table with slots := table.slots.set chunk.toFin value } :=
  if_pos present

theorem replace_replace (table : Direct α) (chunk : Chunk) (first second : α) :
    (table.replace chunk first).replace chunk second = table.replace chunk second := by
  by_cases present : table.contains chunk = true
  · have still : (table.replace chunk first).contains chunk = true := by
      rw [replace_of_contains present]
      exact present
    rw [replace_of_contains still, replace_of_contains present, replace_of_contains present]
    refine Direct.ext rfl (Vector.ext fun other inside => ?_)
    simp only [Vector.getElem_set]
    split <;> rfl
  · have absent : forall value, table.replace chunk value = table := fun value => if_neg present
    rw [absent, absent]

theorem replace_insert (table : Direct α) (chunk : Chunk) (first second : α) :
    (table.insert chunk first).replace chunk second = table.insert chunk second := by
  have present : (table.insert chunk first).contains chunk = true := by
    rw [contains_insert]
    simp
  rw [replace_of_contains present]
  refine Direct.ext rfl (Vector.ext fun other inside => ?_)
  simp only [insert, Vector.getElem_set]
  split <;> rfl

end Direct

namespace Node

variable {node : Node α}

theorem replace_replace (node : Node α) (chunk : Chunk) (first second : α) :
    (node.replace chunk first).replace chunk second = node.replace chunk second := by
  rcases node with ⟨slot, count, layout⟩
  cases layout with
  | sorted width run =>
      exact congrArg (fun run => Node.mk slot count (.sorted width run))
        (run.replace_replace count chunk first second)
  | indexed table =>
      exact congrArg (fun table => Node.mk slot count (.indexed table))
        (table.replace_replace chunk first second)
  | direct table =>
      exact congrArg (fun table => Node.mk slot count (.direct table))
        (table.replace_replace chunk first second)

/-- An entry that came in with one value and got another might have come in with the other. -/
theorem replace_insert (valid : node.Valid) (room : node.isFull = false)
    (missed : node.get? chunk = none) (first second : α) :
    (node.insert chunk first).replace chunk second = node.insert chunk second := by
  have below := count_lt_capacity valid room
  rcases node with ⟨slot, count, layout⟩
  cases layout with
  | sorted width run =>
      have space : count < width.places := below.trans_eq width.capacity_sizeClass
      exact congrArg (fun run => Node.mk slot (count + 1) (.sorted width run))
        (SortedRun.replace_insert valid.arranged space missed first second)
  | indexed table =>
      have few : table.entries.length < 128 := valid.counted.trans_lt below
      rcases Indexed.exists_lowestFree? valid.arranged few with ⟨free, found⟩
      exact congrArg (fun table => Node.mk slot (count + 1) (.indexed table))
        (Indexed.replace_insert found chunk first second)
  | direct table =>
      exact congrArg (fun table => Node.mk slot (count + 1) (.direct table))
        (table.replace_insert chunk first second)

end Node
end AdaptiveRadix
