import AdaptiveRadix.Node.SortedRun
import Mathlib

namespace AdaptiveRadix
namespace SortedRun

/-!
# Sorted runs as finite maps

Whatever lies past the count, a run whose leading chunks ascend strictly is a map
from chunks to slots: a chunk is found exactly when it is paired with a value among
the leading places.  Insertion puts one pair in at its sorted place, removal takes
one out, and neither moves a pair away from its value.
-/

variable {α : Type} {width : Nat}

/-- The pairs in the leading places. -/
def bindings (run : SortedRun α width) (count : Nat) : List (Chunk × α) :=
  (run.live count).zip (run.slots.toList.take count)

/-- What a node promises about its run. -/
structure Valid (run : SortedRun α width) (count : Nat) : Prop where
  fits : count ≤ width
  ascending : (run.live count).Pairwise (· < ·)

/-! ## Pairs by place -/

private theorem zip_insertIdx {β γ : Type} (position : Nat) (first : β) (second : γ) :
    forall (left : List β) (right : List γ), left.length = right.length ->
      (left.insertIdx position first).zip (right.insertIdx position second) =
        (left.zip right).insertIdx position (first, second) := by
  induction position with
  | zero =>
      intro left right _
      simp only [List.insertIdx_zero, List.zip_cons_cons]
  | succ position inductionHypothesis =>
      intro left right same
      cases left with
      | nil =>
          have empty : right = [] := List.length_eq_zero_iff.mp same.symm
          subst empty
          simp only [List.insertIdx_succ_nil, List.zip_nil_left]
      | cons head rest =>
          cases right with
          | nil => cases same
          | cons other others =>
              have rest_same : rest.length = others.length := Nat.succ.inj same
              simp only [List.insertIdx_succ_cons, List.zip_cons_cons,
                inductionHypothesis rest others rest_same]

private theorem zip_eraseIdx {β γ : Type} (position : Nat) :
    forall (left : List β) (right : List γ),
      (left.eraseIdx position).zip (right.eraseIdx position) =
        (left.zip right).eraseIdx position := by
  induction position with
  | zero =>
      intro left right
      cases left <;> cases right <;> simp
  | succ position inductionHypothesis =>
      intro left right
      cases left with
      | nil => rfl
      | cons head rest =>
          cases right with
          | nil => simp
          | cons other others =>
              simp only [List.eraseIdx_cons_succ, List.zip_cons_cons, inductionHypothesis]

theorem length_live (run : SortedRun α width) {count : Nat} (fits : count ≤ width) :
    (run.live count).length = count := by
  simp only [live, List.length_take, Vector.length_toList]
  omega

theorem getElem?_live (run : SortedRun α width) {count place : Nat} (below : place < count) :
    (run.live count)[place]? = run.chunks[place]? := by
  rw [live, List.getElem?_take, if_pos below, Vector.getElem?_toList]

theorem length_bindings (run : SortedRun α width) {count : Nat} (fits : count ≤ width) :
    (run.bindings count).length = count := by
  simp only [bindings, List.length_zip, length_live run fits, List.length_take,
    Vector.length_toList]
  omega

theorem keys_bindings (run : SortedRun α width) (count : Nat) :
    (run.bindings count).map Prod.fst = run.live count := by
  apply List.map_fst_zip
  simp [live]

/-- A pair is listed exactly when some leading place holds both of its parts. -/
theorem mem_bindings_iff (run : SortedRun α width) {count : Nat} {chunk : Chunk} {value : α} :
    (chunk, value) ∈ run.bindings count ↔
      ∃ place : Nat, (run.live count)[place]? = some chunk ∧ run.slots[place]? = some value := by
  constructor
  · intro listed
    rcases List.mem_iff_getElem?.mp listed with ⟨place, found⟩
    rw [bindings, List.getElem?_zip_eq_some] at found
    refine ⟨place, found.1, ?_⟩
    have short := found.2
    rw [List.getElem?_take] at short
    split at short
    · simpa using short
    · cases short
  · intro paired
    rcases paired with ⟨place, key, slot⟩
    have inside : place < count := by
      have bound := (List.getElem?_eq_some_iff.mp key).1
      simp only [live, List.length_take] at bound
      omega
    apply List.mem_iff_getElem?.mpr
    refine ⟨place, ?_⟩
    rw [bindings, List.getElem?_zip_eq_some]
    refine ⟨key, ?_⟩
    rw [List.getElem?_take, if_pos inside]
    simpa using slot

/-! ## Searching -/

/-- A search never leaves the leading places. -/
theorem position?_lt {run : SortedRun α width} {count : Nat} (fits : count ≤ width) {chunk : Chunk}
    {place : Nat} (found : run.position? count chunk = some place) : place < count :=
  run.length_live fits ▸ ChunkSearch.position?_lt_length found

theorem position?_eq_some_iff {run : SortedRun α width} {count : Nat} (valid : run.Valid count)
    {chunk : Chunk} {place : Nat} :
    run.position? count chunk = some place ↔ (run.live count)[place]? = some chunk := by
  rw [position?, ChunkSearch.position?, List.findIdx?_eq_some_iff_getElem]
  constructor
  · intro found
    rcases found with ⟨inside, hit, _⟩
    rw [List.getElem?_eq_getElem inside, eq_of_beq hit]
  · intro found
    rcases List.getElem?_eq_some_iff.mp found with ⟨inside, hit⟩
    refine ⟨inside, beq_iff_eq.mpr hit, ?_⟩
    intro earlier before hitEarlier
    have less := List.pairwise_iff_getElem.mp valid.ascending earlier place
      (Nat.lt_trans before inside) inside before
    rw [hit, eq_of_beq hitEarlier] at less
    exact UInt8.lt_irrefl chunk less

/-- A value is found exactly when it is paired with the chunk. -/
theorem get?_eq_some_iff {run : SortedRun α width} {count : Nat} (valid : run.Valid count)
    {chunk : Chunk} {value : α} :
    run.get? count chunk = some value ↔ (chunk, value) ∈ run.bindings count := by
  simp only [get?, Option.bind_eq_some_iff, position?_eq_some_iff valid, mem_bindings_iff]

theorem position?_eq_none_iff {run : SortedRun α width} {count : Nat} {chunk : Chunk} :
    run.position? count chunk = none ↔ chunk ∉ run.live count := by
  rw [position?, ChunkSearch.position?, List.findIdx?_eq_none_iff]
  constructor
  · intro missed listed
    have hit := missed chunk listed
    rw [beq_self_eq_true] at hit
    cases hit
  · intro absent other listed
    exact beq_false_of_ne fun same => absent (same ▸ listed)

/-- Every leading place holds a value, so a chunk without one is not among them. -/
theorem get?_eq_none_iff {run : SortedRun α width} {count : Nat} (valid : run.Valid count)
    {chunk : Chunk} : run.get? count chunk = none ↔ chunk ∉ run.live count := by
  rw [← position?_eq_none_iff]
  constructor
  · intro missed
    cases found : run.position? count chunk with
    | none => rfl
    | some place =>
        have inside := (List.getElem?_eq_some_iff.mp ((position?_eq_some_iff valid).mp found)).1
        rw [length_live run valid.fits] at inside
        have bound : place < width := Nat.lt_of_lt_of_le inside valid.fits
        simp [get?, found, bound] at missed
  · intro missed
    rw [get?, missed, Option.bind_none]

/-! ## Insertion -/

/-- The insertion point is where a new chunk keeps the order. -/
theorem pairwise_insertIdx_insertionPoint {chunks : List Chunk} {chunk : Chunk}
    (ascending : chunks.Pairwise (· < ·)) (absent : chunk ∉ chunks) :
    (chunks.insertIdx (ChunkSearch.insertionPoint chunks chunk) chunk).Pairwise (· < ·) := by
  induction chunks with
  | nil => simp [ChunkSearch.insertionPoint]
  | cons head rest inductionHypothesis =>
      rcases List.pairwise_cons.mp ascending with ⟨above, restAscending⟩
      rcases not_or.mp fun listed => absent (List.mem_cons.mpr listed) with ⟨different, restAbsent⟩
      by_cases before : chunk ≤ head
      · have point : ChunkSearch.insertionPoint (head :: rest) chunk = 0 := by
          simp [ChunkSearch.insertionPoint, List.findIdx_cons, before]
        have less : chunk < head := UInt8.lt_of_le_of_ne before different
        rw [point, List.insertIdx_zero]
        refine List.pairwise_cons.mpr ⟨?_, ascending⟩
        intro other listed
        rcases List.mem_cons.mp listed with same | later
        · exact same ▸ less
        · exact UInt8.lt_trans less (above other later)
      · have point : ChunkSearch.insertionPoint (head :: rest) chunk =
            ChunkSearch.insertionPoint rest chunk + 1 := by
          simp [ChunkSearch.insertionPoint, List.findIdx_cons, before]
        rw [point, List.insertIdx_succ_cons]
        refine List.pairwise_cons.mpr ⟨?_, inductionHypothesis restAscending restAbsent⟩
        intro other listed
        rcases (List.mem_insertIdx (ChunkSearch.insertionPoint_le_length rest chunk)).mp listed
          with same | old
        · exact same ▸ UInt8.not_le.mp before
        · exact above other old

theorem live_insert (run : SortedRun α width) {count : Nat} (room : count < width)
    (chunk : Chunk) (value : α) :
    (run.insert count chunk value).live (count + 1) =
      (run.live count).insertIdx (ChunkSearch.insertionPoint (run.live count) chunk) chunk := by
  have inside := ChunkSearch.insertionPoint_le_length (run.live count) chunk
  rw [length_live run (Nat.le_of_lt room)] at inside
  exact take_opened run.chunks chunk inside room

/-- The pairs after an insertion are the old ones and the new one at its sorted place. -/
theorem bindings_insert (run : SortedRun α width) {count : Nat} (room : count < width)
    (chunk : Chunk) (value : α) :
    (run.insert count chunk value).bindings (count + 1) =
      (run.bindings count).insertIdx (ChunkSearch.insertionPoint (run.live count) chunk)
        (chunk, value) := by
  have inside := ChunkSearch.insertionPoint_le_length (run.live count) chunk
  rw [length_live run (Nat.le_of_lt room)] at inside
  have slots : (run.insert count chunk value).slots.toList.take (count + 1) =
      (run.slots.toList.take count).insertIdx
        (ChunkSearch.insertionPoint (run.live count) chunk) value :=
    take_opened run.slots value inside room
  rw [bindings, live_insert run room, slots, zip_insertIdx]
  · rfl
  · simp [live]

theorem valid_insert {run : SortedRun α width} {count : Nat} (valid : run.Valid count)
    (room : count < width) {chunk : Chunk} (absent : run.get? count chunk = none) (value : α) :
    (run.insert count chunk value).Valid (count + 1) where
  fits := room
  ascending := by
    rw [live_insert run room]
    exact pairwise_insertIdx_insertionPoint valid.ascending ((get?_eq_none_iff valid).mp absent)

theorem get?_insert {run : SortedRun α width} {count : Nat} (valid : run.Valid count)
    (room : count < width) {chunk : Chunk} (absent : run.get? count chunk = none) (value : α)
    (other : Chunk) :
    (run.insert count chunk value).get? (count + 1) other =
      if other = chunk then some value else run.get? count other := by
  have inside : ChunkSearch.insertionPoint (run.live count) chunk ≤ (run.bindings count).length := by
    rw [length_bindings run valid.fits]
    exact (ChunkSearch.insertionPoint_le_length _ chunk).trans_eq (length_live run valid.fits)
  apply Option.ext
  intro found
  rw [get?_eq_some_iff (valid_insert valid room absent value), bindings_insert run room,
    List.mem_insertIdx inside, ← get?_eq_some_iff valid, Prod.mk.injEq]
  by_cases same : other = chunk
  · subst other
    simp [absent, eq_comm]
  · simp [same]

/-! ## Removal and replacement -/

theorem erase_of_missed {run : SortedRun α width} {count : Nat} {chunk : Chunk}
    (missed : run.position? count chunk = none) : run.erase count chunk = run := by
  rw [erase, missed]

theorem replace_of_missed {run : SortedRun α width} {count : Nat} {chunk : Chunk}
    (missed : run.position? count chunk = none) (value : α) :
    run.replace count chunk value = run := by
  rw [replace, missed]

theorem live_erase {run : SortedRun α width} {count : Nat} (fits : count ≤ width)
    {chunk : Chunk} {place : Nat} (found : run.position? count chunk = some place) :
    (run.erase count chunk).live (count - 1) = (run.live count).eraseIdx place := by
  rw [erase, found]
  exact take_closed run.chunks (position?_lt fits found) fits

/-- The pairs after a removal are the old ones without the removed one. -/
theorem bindings_erase {run : SortedRun α width} {count : Nat} (fits : count ≤ width)
    {chunk : Chunk} {place : Nat} (found : run.position? count chunk = some place) :
    (run.erase count chunk).bindings (count - 1) = (run.bindings count).eraseIdx place := by
  have slots : (run.erase count chunk).slots.toList.take (count - 1) =
      (run.slots.toList.take count).eraseIdx place := by
    rw [erase, found]
    exact take_closed run.slots (position?_lt fits found) fits
  rw [bindings, live_erase fits found, slots, zip_eraseIdx]
  rfl

theorem valid_erase {run : SortedRun α width} {count : Nat} (valid : run.Valid count)
    {chunk : Chunk} {place : Nat} (found : run.position? count chunk = some place) :
    (run.erase count chunk).Valid (count - 1) where
  fits := Nat.le_trans (Nat.sub_le count 1) valid.fits
  ascending := by
    rw [live_erase valid.fits found]
    exact valid.ascending.eraseIdx place

theorem get?_erase {run : SortedRun α width} {count : Nat} (valid : run.Valid count)
    {chunk : Chunk} {place : Nat} (found : run.position? count chunk = some place)
    (other : Chunk) :
    (run.erase count chunk).get? (count - 1) other =
      if other = chunk then none else run.get? count other := by
  have here := (position?_eq_some_iff valid).mp found
  apply Option.ext
  intro value
  rw [get?_eq_some_iff (valid_erase valid found), bindings_erase valid.fits found,
    List.mem_eraseIdx_iff_getElem?]
  by_cases same : other = chunk
  · subst other
    simp only [if_true, reduceCtorEq, iff_false]
    intro listed
    rcases listed with ⟨place', different, paired⟩
    have there : (run.live count)[place']? = some chunk :=
      (List.getElem?_zip_eq_some.mp paired).1
    have twice := (position?_eq_some_iff valid).mpr there
    rw [found] at twice
    exact different (Option.some.inj twice).symm
  · rw [if_neg same, get?_eq_some_iff valid, List.mem_iff_getElem?]
    constructor
    · intro listed
      rcases listed with ⟨place', _, paired⟩
      exact ⟨place', paired⟩
    · intro listed
      rcases listed with ⟨place', paired⟩
      refine ⟨place', ?_, paired⟩
      intro reached
      subst reached
      have there := (List.getElem?_zip_eq_some.mp paired).1
      rw [here] at there
      exact same (Option.some.inj there).symm

theorem live_replace (run : SortedRun α width) (count : Nat) (chunk : Chunk) (value : α) :
    (run.replace count chunk value).live count = run.live count := by
  unfold replace
  split <;> rfl

theorem valid_replace {run : SortedRun α width} {count : Nat} (valid : run.Valid count)
    (chunk : Chunk) (value : α) : (run.replace count chunk value).Valid count where
  fits := valid.fits
  ascending := by
    rw [live_replace]
    exact valid.ascending

theorem get?_replace {run : SortedRun α width} {count : Nat} (valid : run.Valid count)
    {chunk : Chunk} {place : Nat} (found : run.position? count chunk = some place) (value : α)
    (other : Chunk) :
    (run.replace count chunk value).get? count other =
      if other = chunk then some value else run.get? count other := by
  have here := (position?_eq_some_iff valid).mp found
  have inside := (List.getElem?_eq_some_iff.mp here).1
  rw [length_live run valid.fits] at inside
  have bound : place < width := Nat.lt_of_lt_of_le inside valid.fits
  have positions : (run.replace count chunk value).position? count other =
      run.position? count other := by
    rw [position?, live_replace, position?]
  rw [get?, positions, replace, found]
  by_cases same : other = chunk
  · subst other
    simp [found, bound]
  · rw [if_neg same, get?]
    cases elsewhere : run.position? count other with
    | none => rfl
    | some place' =>
        have different : place ≠ place' := by
          intro reached
          subst reached
          have there := (position?_eq_some_iff valid).mp elsewhere
          rw [here] at there
          exact same (Option.some.inj there).symm
        simp [Vector.getElem?_setIfInBounds, different]

/-! ## Traversal -/

theorem valid_vacant [Inhabited α] : (vacant : SortedRun α width).Valid 0 where
  fits := Nat.zero_le width
  ascending := by simp [live]

theorem get?_vacant [Inhabited α] (places : Nat) (chunk : Chunk) :
    (vacant : SortedRun α places).get? 0 chunk = none := by
  simp [get?, position?, ChunkSearch.position?, live]

/-- A traversal meets the leading places in order. -/
theorem map_entries (run : SortedRun α width) {count : Nat} (fits : count ≤ width) :
    (run.entries count).map (fun entry => (entry.chunk, entry.value)) = run.bindings count := by
  apply List.ext_getElem
  · rw [List.length_map, length_entries run fits, length_bindings run fits]
  · intro place first second
    simp [entries, bindings, live]

end SortedRun
end AdaptiveRadix
