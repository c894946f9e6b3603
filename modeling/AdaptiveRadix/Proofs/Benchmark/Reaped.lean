import AdaptiveRadix.Proofs.Benchmark.Load
import AdaptiveRadix.Proofs.TupleSet.Batch

namespace AdaptiveRadix

/-!
# Two ways to load dead tuples

The workload that reaps packs its tuples from words of 64 bits and sets them in the tree
bit by bit.  A set of tuples packs them from a block of 32 bits and an offset of 16, sorts
what it is given for a block, and writes a word only where that changes it.  Both make the
same tree, pool slots and all: set word by word, the tuples of a block leave what they leave
bit by bit in ascending order, and every tuple is packed above all that came before, so no
write of the workload is one that the set leaves out.
-/

/-- A fold that comes through one part of a list goes on with the rest. -/
private theorem foldlM_append_of_ok {ε σ κ : Type} {step : σ -> κ -> Except ε σ} {start next : σ}
    {items : List κ} (does : items.foldlM step start = .ok next) (rest : List κ) :
    (items ++ rest).foldlM step start = rest.foldlM step next := by
  rw [List.foldlM_append, does]
  rfl

private theorem foldlM_singleton {ε σ κ : Type} {step : σ -> κ -> Except ε σ} {start next : σ}
    {item : κ} (does : step start item = .ok next) : [item].foldlM step start = .ok next := by
  rw [List.foldlM_cons, does]
  rfl

namespace Tree

/-- Set the bits of a mark beside those that its word has, unless that is refused. -/
def withMark (tree : Tree) (mark : Mark) : Except OutOfMemory Tree :=
  let bound := tree.insert mark.key ((tree.get? mark.key).getD 0 ||| mark.bits)
  bound.result.map fun _ => bound.state

/-- Without a limit nothing is refused. -/
theorem exists_ok_insert {tree : Tree} (unlimited : tree.limit? = none) (key : Key)
    (value : UInt64) : ∃ present, (tree.insert key value).result = .ok present := by
  cases settled tree key value with
  | present found does => exact ⟨true, congrArg Outcome.result does⟩
  | excess missed limited => exact absurd (limited.symm.trans unlimited) (Option.some_ne_none _)
  | fits missed fits does => exact ⟨false, congrArg Outcome.result does⟩

end Tree

namespace TupleSet

variable {set : TupleSet} {bound : Nat}

/-- Add tuples of one block, unless that is refused. -/
def insertBlock (offsets : UInt32 -> List UInt16) (set : TupleSet) (block : UInt32) :
    Except InsertError TupleSet :=
  let added := set.insertMany block (offsets block)
  added.result.map fun _ => added.state

/-- Add tuples block after block, up to the first block that is refused. -/
def insertBlocks (set : TupleSet) (offsets : UInt32 -> List UInt16) (blocks : List UInt32) :
    Except InsertError TupleSet :=
  blocks.foldlM (insertBlock offsets) set

/-- A set of the usual width, over a tree without a limit, whose tuples are all packed below
some number. -/
structure Below (set : TupleSet) (bound : Nat) : Prop where
  stores : ∃ numbers, set.Stores numbers ∧ ∀ number ∈ numbers, number < bound
  unlimited : set.tree.limit? = none
  width : set.offsetBits = defaultOffsetBits

theorem Below.mono {higher : Nat} (below : set.Below bound) (most : bound ≤ higher) :
    set.Below higher := by
  rcases below.stores with ⟨numbers, stores, less⟩
  exact ⟨⟨numbers, stores, fun number listed => Nat.lt_of_lt_of_le (less number listed) most⟩,
    below.unlimited, below.width⟩

/-- Nothing was refused, and the tree is what setting the marks one by one makes of it. -/
structure Adds (set : TupleSet) (marks : List Mark) (bound : Nat)
    (outcome : Outcome TupleSet (Except InsertError Nat)) : Prop where
  ok : ∃ count, outcome.result = .ok count
  tree_eq : marks.foldlM Tree.withMark set.tree = .ok outcome.state.tree
  below : outcome.state.Below bound

/-- A number above all others has a bit that is not set yet. -/
theorem Below.markedWithin (below : set.Below bound) {packed : UInt64} (new : bound ≤ packed.toNat) :
    Adds set [Mark.ofPacked packed] (packed.toNat + 1)
      (set.markedWithin none (Mark.ofPacked packed)) := by
  rcases below.stores with ⟨numbers, stores, less⟩
  have single := Mark.numbers_ofPacked packed
  generalize Mark.ofPacked packed = mark at single ⊢
  -- Only for such a word do both ways insert; a set leaves out what changes nothing.
  have unset : set.word mark.key ||| mark.bits ≠ set.word mark.key := by
    rw [ne_eq, word_or_eq_iff stores mark, single, Finset.singleton_subset_iff]
    exact fun listed => absurd (less packed.toNat listed) (Nat.not_lt.mpr new)
  rcases Tree.exists_ok_insert below.unlimited mark.key (set.word mark.key ||| mark.bits) with
    ⟨present, accepted⟩
  have kept := marked_markedWithin stores none mark
  rw [markedWithin_of_ok stores mark unset accepted] at kept ⊢
  cases kept with
  | set storesAfter width =>
      refine ⟨⟨_, rfl⟩, ?_, ⟨numbers ∪ mark.numbers, storesAfter, ?_⟩, ?_, below.width⟩
      · apply foldlM_singleton
        change Except.map _ (set.tree.insert mark.key (set.word mark.key ||| mark.bits)).result = _
        rw [accepted]
        rfl
      · intro number listed
        rw [single, Finset.mem_union, Finset.mem_singleton] at listed
        rcases listed with old | rfl
        · exact Nat.lt_succ_of_lt (Nat.lt_of_lt_of_le (less number old) new)
        · exact Nat.lt_succ_self _
      · exact (Tree.limit?_insert set.tree mark.key _).trans below.unlimited

/-- Numbers in ascending order are set one above the other. -/
theorem Below.markedAll (below : set.Below bound) {packed : List UInt64} {last : Nat}
    (ascending : packed.Pairwise (· < ·)) (new : ∀ word ∈ packed, bound ≤ word.toNat)
    (few : ∀ word ∈ packed, word.toNat < last) (most : bound ≤ last) :
    Adds set (packed.map Mark.ofPacked) last (set.markedAll (packed.map Mark.ofPacked)) := by
  induction packed generalizing set bound with
  | nil => exact ⟨⟨0, rfl⟩, rfl, below.mono most⟩
  | cons word rest inductionHypothesis =>
      rcases List.pairwise_cons.mp ascending with ⟨above, restAscending⟩
      have first := below.markedWithin (new word List.mem_cons_self)
      rw [List.map_cons]
      cases does : set.markedWithin none (Mark.ofPacked word) with
      | mk after result events =>
          rw [does] at first
          rcases first with ⟨⟨fresh, rfl⟩, treeAfter, belowAfter⟩
          have others := inductionHypothesis belowAfter restAscending
            (fun other listed => UInt64.lt_iff_toNat_lt.mp (above other listed))
            (fun other listed => few other (List.mem_cons_of_mem word listed))
            (few word List.mem_cons_self)
          rw [markedAll_of_ok does]
          rcases others.ok with ⟨count, ok⟩
          refine ⟨⟨fresh + count, by rw [ok]; rfl⟩, ?_, others.below⟩
          rw [← List.singleton_append, foldlM_append_of_ok treeAfter]
          exact others.tree_eq

end TupleSet

namespace Benchmark

/-! ## The dead tuples of a block -/

/-- The offsets of the dead tuples of a block, in ascending order. -/
def deadOffsets (block : UInt32) : List UInt16 :=
  ((List.range tuplesPerPage).map fun place => UInt16.ofNat (place + 1)).filter fun offset =>
    isDead block.toUInt64 offset.toUInt64

/-- The first blocks. -/
def firstBlocks (count : Nat) : List UInt32 :=
  (List.range count).map UInt32.ofNat

/-- The dead tuples of a block, packed in ascending order. -/
def packedDead (block : UInt32) : List UInt64 :=
  (deadOffsets block).map fun offset => block.toUInt64 <<< 9 ||| offset.toUInt64

private theorem toNat_offset {place : Nat} (below : place < tuplesPerPage) :
    (UInt16.ofNat (place + 1)).toNat = place + 1 :=
  UInt16.toNat_ofNat_of_lt' (Nat.lt_of_lt_of_le (Nat.succ_lt_succ below) (by decide))

theorem toNat_lt_of_mem_deadOffsets {block : UInt32} {offset : UInt16}
    (listed : offset ∈ deadOffsets block) : offset.toNat < 2 ^ 9 := by
  rcases List.mem_map.mp (List.mem_filter.mp listed).1 with ⟨place, inside, rfl⟩
  have below : place < tuplesPerPage := List.mem_range.mp inside
  rw [toNat_offset below]
  exact Nat.lt_of_lt_of_le (Nat.succ_lt_succ below) (by decide)

theorem deadOffsets_ascending (block : UInt32) : (deadOffsets block).Pairwise (· < ·) := by
  apply List.Pairwise.filter
  rw [List.pairwise_map]
  apply List.pairwise_lt_range.imp_of_mem
  intro first second inside insideToo less
  rw [UInt16.lt_iff_toNat_lt, toNat_offset (List.mem_range.mp inside),
    toNat_offset (List.mem_range.mp insideToo)]
  exact Nat.succ_lt_succ less

/-- Lists that are filtered between two maps are filtered and mapped at once. -/
private theorem map_filter_map {κ β γ : Type} (first : κ -> β) (keep : β -> Bool) (second : β -> γ)
    (items : List κ) :
    ((items.map first).filter keep).map second =
      items.filterMap fun item => if keep (first item) then some (second (first item)) else none := by
  induction items with
  | nil => rfl
  | cons item rest inductionHypothesis =>
      rw [List.map_cons, List.filter_cons, List.filterMap_cons]
      cases keep (first item) with
      | false => exact inductionHypothesis
      | true => exact congrArg _ inductionHypothesis

/-- The marks that the workload sets for a block are those of the packed tuples. -/
theorem deadMarks_eq_map (block : UInt32) :
    deadMarks block.toUInt64 = (packedDead block).map Mark.ofPacked := by
  rw [packedDead, List.map_map, deadOffsets, map_filter_map, deadMarks]
  apply List.filterMap_congr
  intro place inside
  have below : place < tuplesPerPage := List.mem_range.mp inside
  have widened : (UInt16.ofNat (place + 1)).toUInt64 = UInt64.ofNat (place + 1) :=
    UInt16.toUInt64_ofNat' (Nat.lt_of_lt_of_le (Nat.succ_lt_succ below) (by decide))
  simp only [widened, Function.comp_apply, tupleMark]

theorem toNat_packed {block : UInt32} {offset : UInt16} (fits : offset.toNat < 2 ^ 9) :
    (block.toUInt64 <<< 9 ||| offset.toUInt64).toNat = 2 ^ 9 * block.toNat + offset.toNat := by
  have narrow : block.toUInt64.toNat < 2 ^ 55 := by
    rw [UInt32.toNat_toUInt64]
    exact Nat.lt_of_lt_of_le block.toNat_lt (by decide)
  rw [toNat_packedTuple narrow (by rwa [UInt16.toNat_toUInt64]), UInt32.toNat_toUInt64,
    UInt16.toNat_toUInt64]

theorem packedDead_ascending (block : UInt32) : (packedDead block).Pairwise (· < ·) := by
  rw [packedDead, List.pairwise_map]
  apply (deadOffsets_ascending block).imp_of_mem
  intro first second listed listedToo less
  rw [UInt64.lt_iff_toNat_lt, toNat_packed (toNat_lt_of_mem_deadOffsets listed),
    toNat_packed (toNat_lt_of_mem_deadOffsets listedToo)]
  exact Nat.add_lt_add_left (UInt16.lt_iff_toNat_lt.mp less) _

/-- The numbers of a block lie between those of the blocks before it and those behind it. -/
theorem packedDead_between {block : UInt32} {word : UInt64} (listed : word ∈ packedDead block) :
    2 ^ 9 * block.toNat ≤ word.toNat ∧ word.toNat < 2 ^ 9 * (block.toNat + 1) := by
  rcases List.mem_map.mp listed with ⟨offset, dead, rfl⟩
  have fits := toNat_lt_of_mem_deadOffsets dead
  rw [toNat_packed fits]
  omega

end Benchmark

namespace TupleSet

open Benchmark

variable {set : TupleSet}

/-! ## Block after block -/

/-- A block whose dead tuples are added in whatever order. -/
theorem Below.insertMany {block : UInt32} (below : set.Below (2 ^ 9 * block.toNat))
    {offsets : List UInt16} (dead : offsets.Perm (deadOffsets block)) :
    Adds set (deadMarks block.toUInt64) (2 ^ 9 * (block.toNat + 1))
      (set.insertMany block offsets) := by
  have fits : ∀ offset ∈ offsets, (TupleId.mk block offset).Fits set.offsetBits := by
    intro offset listed
    rw [below.width]
    exact toNat_lt_of_mem_deadOffsets (dead.subset listed)
  have marks : (deadOffsets block).map (set.markOf block) = deadMarks block.toUInt64 := by
    rw [deadMarks_eq_map, packedDead, List.map_map]
    apply List.map_congr_left
    intro offset _
    rw [markOf, below.width]
    rfl
  have ordered : (deadOffsets block).Pairwise (· ≤ ·) :=
    (deadOffsets_ascending block).imp fun {_ _} less => UInt16.le_of_lt less
  rcases below.stores with ⟨numbers, stores, _⟩
  rw [insertMany_of_fits fits dead.symm ordered, markedAll_joined stores, marks, deadMarks_eq_map]
  exact below.markedAll (packedDead_ascending block) (fun _ listed => (packedDead_between listed).1)
    (fun _ listed => (packedDead_between listed).2) (Nat.mul_le_mul_left _ (Nat.le_succ _))

/-- Both ways go through all blocks to the end, and to the same tree. -/
theorem Below.insertBlocks (empty : set.Below 0) {offsets : UInt32 -> List UInt16} {count : Nat}
    (few : count ≤ 2 ^ 32)
    (dead : forall block : UInt32, block.toNat < count -> (offsets block).Perm (deadOffsets block)) :
    ∃ after, set.insertBlocks offsets (firstBlocks count) = .ok after ∧
      (deadMarksBelow count).foldlM Tree.withMark set.tree = .ok after.tree ∧
        after.Below (2 ^ 9 * count) := by
  induction count with
  | zero => exact ⟨set, rfl, rfl, empty⟩
  | succ count inductionHypothesis =>
      rcases inductionHypothesis (Nat.le_of_succ_le few)
        (fun block less => dead block (Nat.lt_succ_of_lt less)) with ⟨before, does, tree, below⟩
      have number : (UInt32.ofNat count).toNat = count := UInt32.toNat_ofNat_of_lt' few
      have wide : (UInt32.ofNat count).toUInt64 = UInt64.ofNat count := UInt32.toUInt64_ofNat' few
      have last := dead (UInt32.ofNat count) (by rw [number]; exact Nat.lt_succ_self count)
      rw [← number] at below
      have adds := below.insertMany last
      rw [number, wide] at adds
      rcases adds.ok with ⟨fresh, ok⟩
      refine ⟨(before.insertMany (UInt32.ofNat count) (offsets (UInt32.ofNat count))).state, ?_, ?_,
        adds.below⟩
      · have next : insertBlock offsets before (UInt32.ofNat count) =
            .ok (before.insertMany (UInt32.ofNat count) (offsets (UInt32.ofNat count))).state := by
          rw [insertBlock, ok]
          rfl
        rw [TupleSet.insertBlocks, firstBlocks] at does ⊢
        rw [List.range_succ, List.map_append, foldlM_append_of_ok does]
        exact foldlM_singleton next
      · rw [deadMarksBelow] at tree ⊢
        rw [List.range_succ, List.flatMap_append, foldlM_append_of_ok tree, List.flatMap_singleton]
        exact adds.tree_eq

end TupleSet

namespace Benchmark
namespace Index

/-- Insertions none of which is refused are those of the index. -/
theorem foldl_marked_of_ok {tree after : Tree} {marks : List Mark}
    (does : marks.foldlM Tree.withMark tree = .ok after) :
    marks.foldl Index.marked (.radix tree) = .radix after := by
  induction marks generalizing tree with
  | nil =>
      cases does
      rfl
  | cons mark rest inductionHypothesis =>
      rw [List.foldlM_cons, Tree.withMark] at does
      cases result : (tree.insert mark.key ((tree.get? mark.key).getD 0 ||| mark.bits)).result with
      | error shortage =>
          simp only [result] at does
          cases does
      | ok present =>
          simp only [result] at does
          exact inductionHypothesis does

/-- The tree of an index that is loaded with dead tuples is that of a set of tuples which the same
tuples are added to, block after block and in any order within a block.  No insertion is refused
on either side. -/
theorem load_eq_insertBlocks {count : Nat} (few : count ≤ 2 ^ 32)
    {offsets : UInt32 -> List UInt16}
    (dead : forall block : UInt32, block.toNat < count -> (offsets block).Perm (deadOffsets block)) :
    ∃ start set, TupleSet.ofTree (Tree.empty none) TupleSet.defaultOffsetBits = .ok start ∧
      start.insertBlocks offsets (firstBlocks count) = .ok set ∧
        (deadMarksBelow count).foldlM Tree.withMark (Tree.empty none) = .ok set.tree ∧
          (empty .radix).load .reaped count = .radix set.tree := by
  have holds := TupleSet.Holds.empty (Tree.sound_empty none) rfl (by decide : 9 ≤ 16)
  have start : TupleSet.Below ⟨Tree.empty none, 9, 0, by decide⟩ 0 :=
    ⟨⟨_, holds.stores, fun _ listed => absurd listed (Finset.notMem_empty _)⟩, rfl, rfl⟩
  rcases start.insertBlocks few dead with ⟨set, does, tree, _⟩
  exact ⟨_, set, rfl, does, tree, (load_reaped .radix count).trans (foldl_marked_of_ok tree)⟩

/-- Two blocks whose tuples come in descending order. -/
theorem load_eq_insertBlocks_descending :
    2 ≤ 2 ^ 32 ∧
      (forall block : UInt32, block.toNat < 2 ->
        (deadOffsets block).reverse.Perm (deadOffsets block)) ∧
        ∃ start set, TupleSet.ofTree (Tree.empty none) TupleSet.defaultOffsetBits = .ok start ∧
          start.insertBlocks (fun block => (deadOffsets block).reverse) (firstBlocks 2) = .ok set ∧
            (deadMarksBelow 2).foldlM Tree.withMark (Tree.empty none) = .ok set.tree ∧
              (empty .radix).load .reaped 2 = .radix set.tree := by
  have few : 2 ≤ 2 ^ 32 := by decide
  have dead : forall block : UInt32, block.toNat < 2 ->
      (deadOffsets block).reverse.Perm (deadOffsets block) :=
    fun block _ => List.reverse_perm (deadOffsets block)
  exact ⟨few, dead, load_eq_insertBlocks few dead⟩

end Index
end Benchmark
end AdaptiveRadix
