import AdaptiveRadix.Proofs.Checked.Node
import AdaptiveRadix.Proofs.ChunkSearch

namespace AdaptiveRadix

/-!
# What a run shows of itself

A sorted run is two arrays of which only the leading places mean anything, and the number
of these is kept outside.  All that it answers is read off the list of its leading pairs:
this module says for each operation what becomes of that list, and hence that two runs
with the same leading pairs cannot be told apart, whatever lies behind.
-/

variable {α : Type}

namespace ChunkSearch

variable {chunks : List Chunk}

/-- On ascending chunks the insertion point is the number of chunks below the needle. -/
theorem insertionPoint_eq_countP (ascending : chunks.Pairwise (· < ·)) (needle : Chunk) :
    insertionPoint chunks needle = chunks.countP (· < needle) := by
  induction chunks with
  | nil => rfl
  | cons head rest inductionHypothesis =>
      rcases List.pairwise_cons.mp ascending with ⟨above, restAscending⟩
      have later := inductionHypothesis restAscending
      rw [insertionPoint] at later ⊢
      by_cases below : head < needle
      · have passed : ¬needle ≤ head := UInt8.not_le.mpr below
        simp [List.findIdx_cons, passed, below, later]
      · have reached : needle ≤ head := UInt8.not_lt.mp below
        have none_below : rest.countP (· < needle) = 0 := by
          apply List.countP_eq_zero.mpr
          intro other listed less
          have high : head < needle := UInt8.lt_trans (above other listed) (of_decide_eq_true less)
          exact below high
        simp [List.findIdx_cons, reached, below, none_below]

/-- Where a chunk is found, the chunks before it are those below it. -/
theorem countP_eq_of_getElem? (ascending : chunks.Pairwise (· < ·)) {needle : Chunk} {place : Nat}
    (here : chunks[place]? = some needle) : chunks.countP (· < needle) = place := by
  rcases List.getElem?_eq_some_iff.mp here with ⟨inside, rfl⟩
  rw [← insertionPoint_eq_countP ascending, insertionPoint, List.findIdx_eq inside]
  refine ⟨by simp, fun earlier before => ?_⟩
  have less := List.pairwise_iff_getElem.mp ascending earlier place (Nat.lt_trans before inside)
    inside before
  simpa using less

end ChunkSearch

namespace SortedRun

variable {width count : Nat} {run : SortedRun α width} {chunk : Chunk}

/-! ## Operations on the leading pairs -/

theorem getElem?_bindings (fits : count ≤ width) {place : Nat} (below : place < count) :
    ((run.bindings count)[place]?).map Prod.snd = run.slots[place]? := by
  have inside : place < width := Nat.lt_of_lt_of_le below fits
  have listed : place < (run.bindings count).length := by rwa [length_bindings run fits]
  rw [List.getElem?_eq_getElem listed, Option.map_some]
  simp [bindings, inside]

/-- A search finds the one place where the chunk can be, if the chunk is there. -/
theorem position?_iff_countP (valid : run.Valid count) {chunk : Chunk} {place : Nat} :
    run.position? count chunk = some place ↔
      place = (run.live count).countP (· < chunk) ∧ place < count ∧
        run.chunks[place]? = some chunk := by
  rw [position?_eq_some_iff valid]
  constructor
  · intro here
    have below := position?_lt valid.fits ((position?_eq_some_iff valid).mpr here)
    exact ⟨(ChunkSearch.countP_eq_of_getElem? valid.ascending here).symm, below,
      run.getElem?_live below ▸ here⟩
  · intro reached
    rcases reached with ⟨_, below, here⟩
    rw [run.getElem?_live below, here]

/-- A search reads its value from the leading pairs, ascending or not. -/
theorem get?_eq_map (fits : count ≤ width) (chunk : Chunk) :
    run.get? count chunk =
      ((run.position? count chunk).bind fun place => (run.bindings count)[place]?).map Prod.snd := by
  rw [get?]
  cases found : run.position? count chunk with
  | none => rfl
  | some place => exact (getElem?_bindings fits (position?_lt fits found)).symm

theorem entries_eq_map (run : SortedRun α width) (fits : count ≤ width) :
    run.entries count =
      (run.bindings count).zipIdx.map fun pair => ⟨pair.2, pair.1.1, pair.1.2⟩ := by
  apply List.ext_getElem
  · rw [length_entries run fits, List.length_map, List.length_zipIdx, length_bindings run fits]
  · intro place first second
    simp [entries, bindings, live]

private theorem zip_set {β γ : Type} (place : Nat) (value : γ) (left : List β) (right : List γ) :
    left.zip (right.set place value) =
      (left.zip right).modify place fun pair => (pair.1, value) := by
  apply List.ext_getElem
  · simp
  · intro other first second
    rw [List.getElem_zip, List.getElem_set, List.getElem_modify, List.getElem_zip]
    split <;> rfl

/-- The pairs after a replacement are the old ones with another value at one place. -/
theorem bindings_replace (run : SortedRun α width) (count : Nat) {chunk : Chunk} {place : Nat}
    (found : run.position? count chunk = some place) (value : α) :
    (run.replace count chunk value).bindings count =
      (run.bindings count).modify place fun pair => (pair.1, value) := by
  rw [bindings, live_replace, replace, found, Vector.toList_setIfInBounds, List.take_set, zip_set]
  rfl

/-! ## Ascending runs -/

/-- The searches of a run with ascending chunks, on every machine. -/
structure Searches (run : SortedRun α width) (count : Nat) (chunk : Chunk) : Prop where
  insertionPoint_eq : ChunkSearch.insertionPoint (run.live count) chunk =
    (run.live count).countP (· < chunk)
  position?_iff : forall place, run.position? count chunk = some place ↔
    place = ChunkSearch.insertionPoint (run.live count) chunk ∧ place < count ∧
      run.chunks[place]? = some chunk
  get?_iff : forall value, run.get? count chunk = some value ↔
    ∃ place < count, run.chunks[place]? = some chunk ∧ run.slots[place]? = some value
  findEqual_eq : forall registers,
    ChunkSearch.findEqual registers run.chunks.toList count chunk = run.position? count chunk
  findInsertionPoint_eq : forall registers,
    ChunkSearch.findInsertionPoint registers run.chunks.toList count chunk =
      ChunkSearch.insertionPoint (run.live count) chunk

/-- The same run with a new pair at its sorted place among the leading ones. -/
structure Grows (run grown : SortedRun α width) (count : Nat) (chunk : Chunk) (value : α) :
    Prop where
  ascending : (grown.live (count + 1)).Pairwise (· < ·)
  bindings_eq : grown.bindings (count + 1) =
    (run.bindings count).insertIdx ((run.live count).countP (· < chunk)) (chunk, value)
  get?_eq : forall other, grown.get? (count + 1) other =
    if other = chunk then some value else run.get? count other

/-- The same run with the pair of a chunk taken out. -/
structure Shrinks (run shrunk : SortedRun α width) (count : Nat) (chunk : Chunk) (value : α) :
    Prop where
  ascending : (shrunk.live (count - 1)).Pairwise (· < ·)
  removed : (run.bindings count)[(run.live count).countP (· < chunk)]? = some (chunk, value)
  bindings_eq : shrunk.bindings (count - 1) =
    (run.bindings count).eraseIdx ((run.live count).countP (· < chunk))
  get?_eq : forall other, shrunk.get? (count - 1) other =
    if other = chunk then none else run.get? count other

theorem searches (valid : run.Valid count) (chunk : Chunk) : Searches run count chunk where
  insertionPoint_eq := ChunkSearch.insertionPoint_eq_countP valid.ascending chunk
  position?_iff place := by
    rw [ChunkSearch.insertionPoint_eq_countP valid.ascending]
    exact position?_iff_countP valid
  get?_iff value := by
    rw [get?_eq_some_iff valid, mem_bindings_iff]
    constructor
    · intro paired
      rcases paired with ⟨place, key, slot⟩
      have below := position?_lt valid.fits ((position?_eq_some_iff valid).mpr key)
      exact ⟨place, below, run.getElem?_live below ▸ key, slot⟩
    · intro paired
      rcases paired with ⟨place, below, key, slot⟩
      exact ⟨place, (run.getElem?_live below).trans key, slot⟩
  findEqual_eq registers :=
    ChunkSearch.findEqual_eq registers (valid.fits.trans_eq Vector.length_toList.symm) chunk
  findInsertionPoint_eq registers :=
    ChunkSearch.findInsertionPoint_eq registers (valid.fits.trans_eq Vector.length_toList.symm) chunk

theorem grows (valid : run.Valid count) (room : count < width) (absent : chunk ∉ run.live count)
    (value : α) : Grows run (run.insert count chunk value) count chunk value := by
  have missed := (get?_eq_none_iff valid).mpr absent
  refine ⟨(valid_insert valid room missed value).ascending, ?_, get?_insert valid room missed value⟩
  rw [bindings_insert run room, ChunkSearch.insertionPoint_eq_countP valid.ascending]

theorem shrinks (valid : run.Valid count) {value : α} (found : run.get? count chunk = some value) :
    Shrinks run (run.erase count chunk) count chunk value := by
  rcases Option.bind_eq_some_iff.mp found with ⟨place, here, held⟩
  have reached := (position?_iff_countP valid).mp here
  rcases reached with ⟨rfl, below, _⟩
  refine ⟨(valid_erase valid here).ascending, ?_, bindings_erase valid.fits here,
    get?_erase valid here⟩
  rw [bindings, List.getElem?_zip_eq_some, List.getElem?_take, if_pos below, Vector.getElem?_toList]
  exact ⟨(position?_eq_some_iff valid).mp here, held⟩

/-! ## Runs with the same leading pairs -/

/-- Two runs that answer alike, and that have the same leading pairs after any operation. -/
structure Indistinct (first second : SortedRun α width) (count : Nat) : Prop where
  insertionPoint_eq : forall chunk, ChunkSearch.insertionPoint (first.live count) chunk =
    ChunkSearch.insertionPoint (second.live count) chunk
  position?_eq : forall chunk, first.position? count chunk = second.position? count chunk
  get?_eq : forall chunk, first.get? count chunk = second.get? count chunk
  entries_eq : first.entries count = second.entries count
  insert_eq : count < width -> forall chunk value,
    (first.insert count chunk value).bindings (count + 1) =
      (second.insert count chunk value).bindings (count + 1)
  replace_eq : forall chunk value,
    (first.replace count chunk value).bindings count =
      (second.replace count chunk value).bindings count
  erase_eq : forall chunk, (first.position? count chunk).isSome = true ->
    (first.erase count chunk).bindings (count - 1) = (second.erase count chunk).bindings (count - 1)
  erase_eq_of_missed : forall chunk, first.position? count chunk = none ->
    (first.erase count chunk).bindings count = (second.erase count chunk).bindings count

/-- Runs with the same leading pairs are indistinct, whether or not their chunks ascend. -/
theorem indistinct {first second : SortedRun α width} (fits : count ≤ width)
    (same : first.bindings count = second.bindings count) : Indistinct first second count := by
  -- The chunks come with the pairs, so both runs search the same list.
  have live : first.live count = second.live count := by
    rw [← keys_bindings, same, keys_bindings]
  have placed : forall chunk, first.position? count chunk = second.position? count chunk :=
    fun chunk => congrArg (ChunkSearch.position? · chunk) live
  refine ⟨fun chunk => by rw [live], placed, ?_, ?_, ?_, ?_, ?_, ?_⟩
  · intro chunk
    rw [get?_eq_map fits, placed, same, ← get?_eq_map fits]
  · rw [entries_eq_map first fits, same, ← entries_eq_map second fits]
  · intro room chunk value
    rw [bindings_insert first room, bindings_insert second room, live, same]
  · intro chunk value
    cases found : first.position? count chunk with
    | none => rw [replace_of_missed found, replace_of_missed (placed chunk ▸ found), same]
    | some place =>
        rw [bindings_replace first count found, bindings_replace second count (placed chunk ▸ found),
          same]
  · intro chunk found
    rcases Option.isSome_iff_exists.mp found with ⟨place, here⟩
    rw [bindings_erase fits here, bindings_erase fits (placed chunk ▸ here), same]
  · intro chunk missed
    rw [erase_of_missed missed, erase_of_missed (placed chunk ▸ missed), same]

/-- All that a run with ascending chunks has to do. -/
structure Keeps (run : SortedRun α width) (count : Nat) : Prop where
  searches : forall chunk, Searches run count chunk
  grows : count < width -> ∀ chunk ∉ run.live count, forall value,
    Grows run (run.insert count chunk value) count chunk value
  shrinks : forall chunk value, run.get? count chunk = some value ->
    Shrinks run (run.erase count chunk) count chunk value
  erase_of_absent : ∀ chunk ∉ run.live count, run.erase count chunk = run
  entries_eq : run.entries count =
    (run.bindings count).zipIdx.map fun pair => ⟨pair.2, pair.1.1, pair.1.2⟩
  indistinct : forall other, other.bindings count = run.bindings count -> Indistinct other run count

theorem keeps (valid : run.Valid count) : run.Keeps count where
  searches := searches valid
  grows room _ absent := grows valid room absent
  shrinks _ _ found := shrinks valid found
  erase_of_absent _ absent := erase_of_missed (position?_eq_none_iff.mpr absent)
  entries_eq := run.entries_eq_map valid.fits
  indistinct _ same := indistinct valid.fits same

end SortedRun

namespace Node

/-! ## Nodes over them -/

/-- Two nodes that differ in nothing but what lies behind the leading places of their runs. -/
inductive SameLeading : Node α -> Node α -> Prop
  | sorted {slot count : Nat} {width : RunWidth} {first second : SortedRun α width.places}
      (fits : count ≤ width.places) (same : first.bindings count = second.bindings count) :
      SameLeading ⟨slot, count, .sorted width first⟩ ⟨slot, count, .sorted width second⟩

namespace SameLeading

variable {first second : Node α}

theorem get?_eq (alike : SameLeading first second) (chunk : Chunk) :
    first.get? chunk = second.get? chunk := by
  cases alike with
  | sorted fits same => exact (SortedRun.indistinct fits same).get?_eq chunk

/-- A call that is granted is answered alike, and leaves the nodes alike. -/
theorem perform (alike : SameLeading first second) {request : Request α}
    (grants : first.Grants request) :
    (first.perform request).2 = (second.perform request).2 ∧
      SameLeading (first.perform request).1 (second.perform request).1 := by
  have found := alike.get?_eq
  cases alike with
  | @sorted slot count width left right fits same =>
      have indistinct := SortedRun.indistinct fits same
      cases request with
      | insert chunk value =>
          have room : count < width.places := by
            have different : count ≠ width.sizeClass.capacity := beq_eq_false_iff_ne.mp grants.1
            rw [width.capacity_sizeClass] at different
            exact Nat.lt_of_le_of_ne fits different
          exact ⟨rfl, .sorted room (indistinct.insert_eq room chunk value)⟩
      | replace chunk value =>
          exact ⟨congrArg Answer.value (found chunk),
            .sorted fits (indistinct.replace_eq chunk value)⟩
      | erase chunk =>
          rw [Node.perform, Node.perform, ← found chunk]
          cases held : (⟨slot, count, .sorted width left⟩ : Node α).get? chunk with
          | none => exact ⟨rfl, .sorted fits same⟩
          | some value =>
              rcases Option.bind_eq_some_iff.mp held with ⟨place, here, _⟩
              exact ⟨rfl, .sorted ((Nat.sub_le count 1).trans fits)
                (indistinct.erase_eq chunk (Option.isSome_iff_exists.mpr ⟨place, here⟩))⟩
      | lookup chunk => exact ⟨congrArg Answer.value (found chunk), .sorted fits same⟩
      | forEach => exact ⟨congrArg Answer.entries indistinct.entries_eq, .sorted fits same⟩

theorem served (alike : SameLeading first second) {requests : List (Request α)}
    (granted : first.GrantsAll requests) :
    (served Node.perform first requests).2 = (served Node.perform second requests).2 ∧
      SameLeading (served Node.perform first requests).1 (served Node.perform second requests).1 := by
  induction requests generalizing first second with
  | nil => exact ⟨rfl, alike⟩
  | cons request rest inductionHypothesis =>
      rcases alike.perform granted.1 with ⟨answer, next⟩
      rcases inductionHypothesis next granted.2 with ⟨answers, last⟩
      exact ⟨congrArg₂ List.cons answer answers, last⟩

end SameLeading

/-- What some calls on a node make of its run, whatever lies behind the leading places. -/
structure Determines (slot count : Nat) (width : RunWidth) (run : SortedRun α width.places)
    (requests : List (Request α)) : Prop where
  passes : checkedServed checkedPerform ⟨slot, count, .sorted width run⟩ requests =
    .ok (served perform ⟨slot, count, .sorted width run⟩ requests)
  answers_eq : forall other, other.bindings count = run.bindings count ->
    (served perform ⟨slot, count, .sorted width run⟩ requests).2 =
      (served perform ⟨slot, count, .sorted width other⟩ requests).2
  alike : forall other, other.bindings count = run.bindings count ->
    SameLeading (served perform ⟨slot, count, .sorted width run⟩ requests).1
      (served perform ⟨slot, count, .sorted width other⟩ requests).1

/-- A run of any width whose leading chunks ascend keeps them so and its pairs together.  It
answers by its leading pairs, one call after another, and no check fails on the way. -/
theorem determined_by_leading (slot : Nat) (width : RunWidth) {count : Nat}
    {run : SortedRun α width.places} (fits : count ≤ width.places)
    (ascending : (run.live count).Pairwise (· < ·)) :
    run.Keeps count ∧ forall requests, GrantsAll ⟨slot, count, .sorted width run⟩ requests ->
      Determines slot count width run requests := by
  have valid : Valid ⟨slot, count, .sorted width run⟩ :=
    ⟨⟨fits, ascending⟩, run.length_entries fits⟩
  refine ⟨SortedRun.keeps ⟨fits, ascending⟩, fun requests granted => ?_⟩
  have run_alike : forall other, other.bindings count = run.bindings count ->
      SameLeading ⟨slot, count, .sorted width run⟩ ⟨slot, count, .sorted width other⟩ :=
    fun other same => .sorted fits same.symm
  exact ⟨checkedServed_of_valid valid granted,
    fun other same => ((run_alike other same).served granted).1,
    fun other same => ((run_alike other same).served granted).2⟩

/-- The first chunk twice over behind the leading places, as removals leave it. -/
def staleRun : SortedRun Nat RunWidth.four.places :=
  ⟨#v[9, 40, 9, 9], #v[90, 400, 7, 8]⟩

/-- Calls that fill a run of four to the brim, at both ends and in between. -/
def fillingCalls : List (Request Nat) :=
  [.insert 20 200, .insert 60 600, .erase 9, .erase 9, .insert 0 1, .replace 40 401, .lookup 9,
    .forEach]

theorem determined_by_leading_stale :
    2 ≤ RunWidth.four.places ∧ (staleRun.live 2).Pairwise (· < ·) ∧ staleRun.Keeps 2 ∧
      GrantsAll ⟨3, 2, .sorted .four staleRun⟩ fillingCalls ∧
        Determines 3 2 .four staleRun fillingCalls := by
  have fits : 2 ≤ RunWidth.four.places := by decide
  have ascending : (staleRun.live 2).Pairwise (· < ·) := by decide
  have granted : GrantsAll ⟨3, 2, .sorted .four staleRun⟩ fillingCalls := by decide +kernel
  rcases determined_by_leading 3 .four fits ascending with ⟨keeps, determines⟩
  exact ⟨fits, ascending, keeps, granted, determines fillingCalls granted⟩

end Node
end AdaptiveRadix
