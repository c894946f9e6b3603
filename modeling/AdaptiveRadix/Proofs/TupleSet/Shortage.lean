import AdaptiveRadix.Proofs.TupleSet.Batch

namespace AdaptiveRadix

/-!
# Additions that run out of room

Words are made in ascending order of their keys, and a word that is there is never
refused.  So an addition of many tuples that stops for want of room stops at a key that
was not there.  The tuples under lower keys are in the set, the others are not, and the
addition stops at the same place when it is made again: up to there it finds nothing
new, and there it asks the same of the same tree.
-/

namespace Mark

variable {marks : List Mark}

/-- Joining brings in no key. -/
theorem mem_keys_of_joined {key : Key} (listed : key ∈ (joined marks).map Mark.key) :
    key ∈ marks.map Mark.key := by
  induction marks with
  | nil => exact listed
  | cons mark rest inductionHypothesis =>
      rw [joined] at listed
      rw [List.map_cons, List.mem_cons]
      cases split : joined rest with
      | nil =>
          rw [split] at listed
          exact Or.inl (List.mem_singleton.mp listed)
      | cons next others =>
          rw [split] at listed inductionHypothesis
          by_cases same : next.key = mark.key
          · simp only [if_pos same] at listed
            rcases List.mem_cons.mp listed with here | later
            · exact Or.inl here
            · exact Or.inr (inductionHypothesis (List.mem_cons_of_mem _ later))
          · simp only [if_neg same] at listed
            exact (List.mem_cons.mp listed).imp id inductionHypothesis

/-- Marks in order have one key each once they are joined. -/
theorem keys_joined_ascending (ordered : (marks.map Mark.key).Pairwise (· ≤ ·)) :
    ((joined marks).map Mark.key).Pairwise (· < ·) := by
  induction marks with
  | nil => exact List.Pairwise.nil
  | cons mark rest inductionHypothesis =>
      rw [List.map_cons, List.pairwise_cons] at ordered
      have later := inductionHypothesis ordered.2
      have above : ∀ key ∈ (joined rest).map Mark.key, mark.key ≤ key :=
        fun key listed => ordered.1 key (mem_keys_of_joined listed)
      rw [joined]
      cases split : joined rest with
      | nil => exact List.pairwise_singleton _ _
      | cons next others =>
          rw [split] at later above
          rw [List.map_cons, List.pairwise_cons] at later
          by_cases same : next.key = mark.key
          · simp only [if_pos same]
            exact List.pairwise_cons.mpr ⟨fun key listed => same ▸ later.1 key listed, later.2⟩
          · simp only [if_neg same]
            have less : mark.key < next.key :=
              UInt64.lt_of_le_of_ne (above _ List.mem_cons_self) (Ne.symm same)
            refine List.pairwise_cons.mpr ⟨?_, List.pairwise_cons.mpr later⟩
            intro key listed
            rcases List.mem_cons.mp listed with here | beyond
            · exact here ▸ less
            · exact UInt64.lt_trans less (later.1 key beyond)

/-- With ascending keys, the numbers of a first part are those under lower keys. -/
theorem allNumbers_of_ascending {first rest : List Mark} {mark : Mark}
    (ascending : ((first ++ mark :: rest).map Mark.key).Pairwise (· < ·)) :
    allNumbers first =
      (allNumbers (first ++ mark :: rest)).filter fun number => number / 64 < mark.key.toNat := by
  rw [List.map_append, List.map_cons, List.pairwise_append, List.pairwise_cons] at ascending
  rcases ascending with ⟨_, ⟨above, _⟩, below⟩
  ext number
  rw [Finset.mem_filter, mem_allNumbers, mem_allNumbers]
  constructor
  · intro listed
    rcases listed with ⟨other, member, own⟩
    refine ⟨⟨other, List.mem_append_left _ member, own⟩, ?_⟩
    rw [key_of_mem own, ← UInt64.lt_iff_toNat_lt]
    exact below other.key (List.mem_map_of_mem member) mark.key List.mem_cons_self
  · intro listed
    rcases listed with ⟨⟨other, member, own⟩, under⟩
    rw [key_of_mem own, ← UInt64.lt_iff_toNat_lt] at under
    rcases List.mem_append.mp member with inFirst | inRest
    · exact ⟨other, inFirst, own⟩
    · rcases List.mem_cons.mp inRest with here | beyond
      · exact absurd (here ▸ under) (UInt64.lt_irrefl _)
      · exact absurd (UInt64.lt_trans under (above other.key (List.mem_map_of_mem beyond)))
          (UInt64.lt_irrefl _)

end Mark

namespace TupleSet

variable {set : TupleSet} {numbers : Finset Nat} {width : Nat} {tuples : Finset TupleId}
  {block : UInt32} {offsets ascending : List UInt16}

/-! ## Where an addition stops -/

/-- An addition of marks that stopped: at a mark whose key was not there, after all the marks
before it, and for as long as nothing else happens. -/
structure Stopped (set : TupleSet) (numbers : Finset Nat) (marks : List Mark)
    (error : InsertError) (first : List Mark) (mark : Mark) (rest : List Mark) : Prop where
  split : marks = first ++ mark :: rest
  missed : set.tree.get? mark.key = none
  stores : (set.markedAll marks).state.Stores (numbers ∪ Mark.allNumbers first)
  width : (set.markedAll marks).state.offsetBits = set.offsetBits
  again : ∃ events, (set.markedAll marks).state.markedAll marks =
    ⟨(set.markedAll marks).state, .error error, events⟩

/-- A mark is refused where its word is not there, and leaves the set as it was. -/
private theorem markedWithin_of_refused (stores : set.Stores numbers) {mark : Mark}
    {after : TupleSet} {error : InsertError} {events : List Event}
    (does : set.markedWithin none mark = ⟨after, .error error, events⟩) :
    after = set ∧ set.tree.get? mark.key = none := by
  by_cases old : set.word mark.key ||| mark.bits = set.word mark.key
  · rw [markedWithin_of_old mark old] at does
    cases does
  · cases result : (set.tree.insert mark.key (set.word mark.key ||| mark.bits)).result with
    | ok present =>
        rw [markedWithin_of_ok stores mark old result] at does
        cases does
    | error shortage =>
        rcases Tree.unchanged_of_insert_error result with ⟨same, missed⟩
        rw [markedWithin_of_error mark old result, same] at does
        cases does
        exact ⟨rfl, missed⟩

/-- A key that is not there after a mark was set was not there before. -/
private theorem missed_of_markedWithin (stores : set.Stores numbers) {mark : Mark}
    {after : TupleSet} {fresh : Nat} {events : List Event}
    (does : set.markedWithin none mark = ⟨after, .ok fresh, events⟩) {key : Key}
    (missed : after.tree.get? key = none) : set.tree.get? key = none := by
  by_cases old : set.word mark.key ||| mark.bits = set.word mark.key
  · rw [markedWithin_of_old mark old] at does
    cases does
    exact missed
  · rcases Tree.bound_or_refused stores.sound none mark.key (set.word mark.key ||| mark.bits) with
      ⟨present, result, changed⟩ | ⟨shortage, result, _⟩
    · rw [markedWithin_of_ok stores mark old result] at does
      cases does
      have looked := (changed key).symm.trans missed
      split at looked
      · cases looked
      · exact looked
    · rw [markedWithin_of_error mark old result] at does
      cases does

/-- A mark that is set before an addition that stops is one more of those that are set. -/
private theorem Stopped.cons (stores : set.Stores numbers) {mark stop : Mark} {after : TupleSet}
    {fresh : Nat} {events : List Event}
    (does : set.markedWithin none mark = ⟨after, .ok fresh, events⟩)
    (width : after.offsetBits = set.offsetBits) {rest first others : List Mark} {error : InsertError}
    (stopped : Stopped after (numbers ∪ mark.numbers) rest error first stop others) :
    Stopped set numbers (mark :: rest) error (mark :: first) stop others := by
  have goesOn : (set.markedAll (mark :: rest)).state = (after.markedAll rest).state := by
    rw [markedAll_of_ok does]
  have old : (after.markedAll rest).state.word mark.key ||| mark.bits =
      (after.markedAll rest).state.word mark.key := by
    rw [word_or_eq_iff stopped.stores]
    exact Finset.subset_union_right.trans Finset.subset_union_left
  refine ⟨?_, missed_of_markedWithin stores does stopped.missed, ?_, ?_, ?_⟩
  · rw [stopped.split, List.cons_append]
  · rw [goesOn, Mark.allNumbers_cons, ← Finset.union_assoc]
    exact stopped.stores
  · rw [goesOn]
    exact stopped.width.trans width
  · rw [goesOn, markedAll_of_old mark old]
    exact stopped.again

theorem exists_stopped (stores : set.Stores numbers) {marks : List Mark} {error : InsertError}
    (failed : (set.markedAll marks).result = .error error) :
    ∃ first mark rest, Stopped set numbers marks error first mark rest := by
  induction marks generalizing set numbers with
  | nil => cases failed
  | cons mark rest inductionHypothesis =>
      have marked := marked_markedWithin stores none mark
      cases does : set.markedWithin none mark with
      | mk after result events =>
          rw [does] at marked
          cases marked with
          | refused storesAfter width =>
              rcases markedWithin_of_refused stores does with ⟨rfl, missed⟩
              have stops := markedAll_of_error does rest
              rw [stops] at failed
              cases failed
              refine ⟨[], mark, rest, rfl, missed, ?_, ?_, events, ?_⟩
              · rw [stops]
                exact (Finset.union_empty numbers).symm ▸ stores
              · rw [stops]
              · rw [stops, stops]
          | set storesAfter width =>
              have failedLater : (after.markedAll rest).result = .error error := by
                rw [markedAll_of_ok does] at failed
                cases result : (after.markedAll rest).result with
                | error other =>
                    rw [result] at failed
                    exact failed
                | ok count =>
                    rw [result] at failed
                    cases failed
              rcases inductionHypothesis storesAfter failedLater with ⟨first, stop, others, stopped⟩
              exact ⟨mark :: first, stop, others, stopped.cons stores does width⟩

/-! ## The tuples that were added -/

/-- The marks of ascending offsets have ascending keys. -/
private theorem keys_ascending (fits : ∀ offset ∈ ascending, (TupleId.mk block offset).Fits set.offsetBits)
    (ordered : ascending.Pairwise (· ≤ ·)) :
    ((ascending.map (set.markOf block)).map Mark.key).Pairwise (· ≤ ·) := by
  rw [List.map_map, List.pairwise_map]
  refine ordered.imp_of_mem ?_
  intro first second mem memToo below
  simp only [Function.comp_apply, markOf]
  rw [UInt64.le_iff_toNat_le, Mark.toNat_key_ofPacked, Mark.toNat_key_ofPacked,
    TupleId.toNat_packed set.offsetBits_le ⟨block, first⟩,
    TupleId.toNat_packed set.offsetBits_le ⟨block, second⟩, TupleId.packed_eq (fits first mem),
    TupleId.packed_eq (fits second memToo)]
  exact Nat.div_le_div_right (Nat.add_le_add_left (UInt16.le_iff_toNat_le.mp below) _)

private theorem allNumbers_map_markOf (same : ascending.Perm offsets) :
    Mark.allNumbers (ascending.map (set.markOf block)) =
      packedAll (listed block offsets) set.offsetBits := by
  ext number
  simp only [Mark.mem_allNumbers, List.mem_map, exists_exists_and_eq_and, numbers_markOf,
    Finset.mem_singleton, packedAll, listed, Finset.mem_image, List.mem_toFinset, same.mem_iff]
  simp only [eq_comm]

/-- The given tuples whose words come before the one under a key. -/
def under (block : UInt32) (offsets : List UInt16) (offsetBits : Nat) (key : Key) :
    Finset TupleId :=
  (listed block offsets).filter fun tuple => tuple.packed offsetBits >>> 6 < key.toNat

private theorem packedAll_under (key : Key) :
    packedAll (under block offsets width key) width =
      (packedAll (listed block offsets) width).filter fun number => number / 64 < key.toNat := by
  rw [packedAll, packedAll, Finset.filter_image, under]
  simp only [Nat.shiftRight_eq_div_pow]

/-- A set has some tuples and counts them. -/
structure Marks (set : TupleSet) (tuples : Finset TupleId) : Prop where
  contains : forall tuple, set.contains tuple = decide (tuple ∈ tuples)
  counted : set.size = tuples.card

theorem Holds.marks (holds : set.Holds width tuples) : set.Marks tuples where
  contains := holds.contains
  counted := holds.packs.counted

/-- What becomes of an addition that is not carried out. -/
structure FailsInOrder (set : TupleSet) : Prop where
  /-- The first offset that does not fit is named, and nothing is added. -/
  outOfRange : forall block offsets offset,
    (offsets.find? fun offset => !decide ((TupleId.mk block offset).Fits set.offsetBits)) =
        some offset ->
      set.insertMany block offsets = ⟨set, .error (.offsetOutOfRange offset set.offsetBits), []⟩
  /-- When room runs out, it does so at a key that was not there.  The tuples under lower keys are
  added, and the same addition made again stops at once and changes nothing. -/
  outOfMemory : forall block offsets shortage,
    (set.insertMany block offsets).result = .error (.outOfMemory shortage) ->
      ∃ key tuples, set.tree.get? key = none ∧ set.Marks tuples ∧
        (set.insertMany block offsets).state.Marks
          (tuples ∪ under block offsets set.offsetBits key) ∧
        ((set.insertMany block offsets).state.insertMany block offsets).state =
          (set.insertMany block offsets).state ∧
        ((set.insertMany block offsets).state.insertMany block offsets).result =
          .error (.outOfMemory shortage)

theorem marks_of_find? {offset : UInt16}
    (found : (offsets.find? fun offset =>
      !decide ((TupleId.mk block offset).Fits set.offsetBits)) = some offset) :
    set.marks block offsets = .error (.offsetOutOfRange offset set.offsetBits) := by
  induction offsets with
  | nil => cases found
  | cons next rest inductionHypothesis =>
      by_cases fits : (TupleId.mk block next).Fits set.offsetBits
      · rw [List.find?_cons_of_neg (by simp [fits])] at found
        simp only [TupleSet.marks, mark?_eq_markOf fits, inductionHypothesis found, Except.map]
      · rw [List.find?_cons_of_pos (by simp [fits])] at found
        cases found
        simp only [TupleSet.marks, TupleId.mark?_of_not_fits fits]

private theorem insertMany_of_find? {offset : UInt16}
    (found : (offsets.find? fun offset =>
      !decide ((TupleId.mk block offset).Fits set.offsetBits)) = some offset) :
    set.insertMany block offsets = ⟨set, .error (.offsetOutOfRange offset set.offsetBits), []⟩ := by
  simp only [insertMany, insertManyWithin, marks_of_find? found]

/-- The set that an addition leaves when it stops at a key. -/
private theorem holds_stopped (holds : set.Holds width tuples)
    (fits : ∀ offset ∈ offsets, (TupleId.mk block offset).Fits set.offsetBits)
    (same : ascending.Perm offsets) (ordered : ascending.Pairwise (· ≤ ·)) {error : InsertError}
    {first rest : List Mark} {mark : Mark}
    (stopped : Stopped set (packedAll tuples width)
      (Mark.joined (ascending.map (set.markOf block))) error first mark rest) :
    (set.markedAll (Mark.joined (ascending.map (set.markOf block)))).state.Holds width
      (tuples ∪ under block offsets width mark.key) := by
  have fitsToo : ∀ offset ∈ ascending, (TupleId.mk block offset).Fits set.offsetBits :=
    fun offset mem => fits offset (same.subset mem)
  have keys := Mark.keys_joined_ascending (keys_ascending fitsToo ordered)
  rw [stopped.split] at keys
  have added : Mark.allNumbers first = packedAll (under block offsets width mark.key) width := by
    rw [Mark.allNumbers_of_ascending keys, ← stopped.split, Mark.allNumbers_joined,
      allNumbers_map_markOf same, holds.same, packedAll_under]
  refine ⟨stopped.width.trans holds.same, ?_, ?_⟩
  · intro tuple member
    rcases Finset.mem_union.mp member with old | new
    · exact holds.fits tuple old
    · rcases List.mem_map.mp (List.mem_toFinset.mp (Finset.mem_filter.mp new).1) with
        ⟨offset, mem, rfl⟩
      exact holds.same ▸ fits offset mem
  · rw [packedAll_union, ← added]
    exact stopped.stores

theorem Holds.failsInOrder (holds : set.Holds width tuples) : set.FailsInOrder where
  outOfRange block offsets offset found := insertMany_of_find? found
  outOfMemory block offsets shortage failed := by
    have fits : ∀ offset ∈ offsets, (TupleId.mk block offset).Fits set.offsetBits := by
      cases found : offsets.find? fun offset =>
          !decide ((TupleId.mk block offset).Fits set.offsetBits) with
      | some offset =>
          rw [insertMany_of_find? found] at failed
          cases failed
      | none =>
          intro offset mem
          simpa using List.find?_eq_none.mp found offset mem
    have same := offsets.mergeSort_perm fun first second => decide (first ≤ second)
    have ordered := pairwise_mergeSort_offsets offsets
    have does := insertMany_of_fits fits same ordered
    rw [does] at failed
    rcases exists_stopped holds.stores failed with ⟨first, mark, rest, stopped⟩
    have width := stopped.width
    have marks : (set.insertMany block offsets).state.markOf block = set.markOf block := by
      funext offset
      rw [does, markOf, markOf, width]
    have fitsAfter : ∀ offset ∈ offsets,
        (TupleId.mk block offset).Fits (set.insertMany block offsets).state.offsetBits := by
      rw [does, width]
      exact fits
    have again := insertMany_of_fits fitsAfter same ordered
    rcases stopped.again with ⟨events, repeated⟩
    rw [marks, does, repeated] at again
    rw [does, again, holds.same]
    exact ⟨mark.key, tuples, stopped.missed, holds.marks,
      (holds_stopped holds fits same ordered stopped).marks, rfl, rfl⟩

/-- Over every tree without keys, whatever its limit and its past, every set that calls lead to
fails in order. -/
theorem failsInOrder_after (limit? : Option Nat) (history : List AdaptiveRadix.Request)
    (offsetBits : Nat) {start : TupleSet}
    (made : ofTree ((Tree.empty limit?).after history) offsetBits = .ok start)
    (requests : List Request) : (start.after requests).FailsInOrder := by
  rcases exists_holds_after made requests with ⟨tuples, holds⟩
  exact holds.failsInOrder

/-- The first of two words fits under the limit and the second does not, because the leaf that
holds the first would have to grow. -/
theorem failsInOrder_after_one_word :
    ∃ start, ofTree ((Tree.empty (some 50)).after []) 9 = .ok start ∧
      (start.after []).FailsInOrder ∧
      ((start.after []).insertMany 0 [70, 1]).result = .error (.outOfMemory ⟨56, 18⟩) := by
  have made : ofTree ((Tree.empty (some 50)).after []) 9 =
      .ok ⟨Tree.empty (some 50), 9, 0, by decide⟩ := rfl
  refine ⟨_, made, failsInOrder_after (some 50) [] 9 made [], ?_⟩
  have same : [1, 70].Perm ([70, 1] : List UInt16) := by decide
  rw [after, List.foldl_nil, insertMany_of_fits (by simp [TupleId.Fits]) same (by decide)]
  decide +kernel

end TupleSet
end AdaptiveRadix
