import AdaptiveRadix.Proofs.TupleSet.Contents
import AdaptiveRadix.TupleSet.Request

namespace AdaptiveRadix
namespace TupleSet

/-!
# A set of tuples is a finite set

The reference is a finite set of tuples.  `Packs` reads it off the tree of bitmaps and the
count; `Conforms` says what a call answers and what it does to the set; `Refines` puts the
two together along a run.  An addition of tuples that fit fails only where the tree below
refuses a word, and that refusal has its cause in the tree.
-/

variable {set : TupleSet} {tuple : TupleId} {tuples given : Finset TupleId} {width : Nat}

/-- The tuples of one block at some offsets. -/
def listed (block : UInt32) (offsets : List UInt16) : Finset TupleId :=
  (offsets.map (TupleId.mk block)).toFinset

/-- The numbers of some tuples. -/
def packedAll (tuples : Finset TupleId) (width : Nat) : Finset Nat :=
  tuples.image fun tuple => tuple.packed width

/-- The words of the tree are the tuples packed into bits, and the count is theirs. -/
structure Packs (set : TupleSet) (tuples : Finset TupleId) : Prop where
  counted : set.size = tuples.card
  fits : ∀ tuple ∈ tuples, tuple.Fits set.offsetBits
  /-- A key is in the tree when some tuple lies under it. -/
  keys : forall key, key ∈ set.tree.toList.map Prod.fst ↔
    ∃ tuple ∈ tuples, tuple.packed set.offsetBits >>> 6 = key.toNat
  bits : ∀ binding ∈ set.tree.toList, ∀ place < 64, binding.2.toNat.testBit place = true ↔
    ∃ tuple ∈ tuples, tuple.packed set.offsetBits = 64 * binding.1.toNat + place
  nonzero : ∀ binding ∈ set.tree.toList, binding.2 ≠ 0
  /-- No bit stands for two tuples. -/
  distinct : ∀ first ∈ tuples, ∀ second ∈ tuples,
    first.packed set.offsetBits = second.packed set.offsetBits -> first = second

/-- The state after some calls. -/
def after (set : TupleSet) (requests : List Request) : TupleSet :=
  requests.foldl (fun set request => (set.perform request).1) set

/-- The answers to a call, with the state and the tuples that it leaves. -/
inductive Conforms (set : TupleSet) (tuples : Finset TupleId) :
    Request -> Answer -> TupleSet -> Finset TupleId -> Prop
  | new {tuple : TupleId} {allowance : Allowance} {after : TupleSet}
      (fits : tuple.Fits set.offsetBits) (absent : tuple ∉ tuples) :
      Conforms set tuples (.insert tuple allowance) (.inserted (.ok true)) after (tuples ∪ {tuple})
  | old {tuple : TupleId} {allowance : Allowance} {after : TupleSet} (present : tuple ∈ tuples) :
      Conforms set tuples (.insert tuple allowance) (.inserted (.ok false)) after tuples
  /-- The tree refuses the word of the tuple. -/
  | refused {tuple : TupleId} {allowance : Allowance} {after : TupleSet} {mark : Mark}
      {shortage : OutOfMemory} (fits : tuple.Fits set.offsetBits) (absent : tuple ∉ tuples)
      (same : after.tree.toList = set.tree.toList) (marked : tuple.mark? set.offsetBits = some mark)
      (unmarked : set.Unmarked after allowance mark shortage) :
      Conforms set tuples (.insert tuple allowance) (.inserted (.error (.outOfMemory shortage)))
        after tuples
  | outOfRange {tuple : TupleId} {allowance : Allowance} (wide : ¬ tuple.Fits set.offsetBits) :
      Conforms set tuples (.insert tuple allowance)
        (.inserted (.error (.offsetOutOfRange tuple.offset set.offsetBits))) set tuples
  | addedAll {block : UInt32} {offsets : List UInt16} {allowed : Key -> Allowance}
      {after : TupleSet} (fits : ∀ tuple ∈ listed block offsets, tuple.Fits set.offsetBits) :
      Conforms set tuples (.insertMany block offsets allowed)
        (.added (.ok (listed block offsets \ tuples).card)) after (tuples ∪ listed block offsets)
  /-- The words of the tuples are set in turn, and the tree refuses one that has new ones. -/
  | addedSome {block : UInt32} {offsets : List UInt16} {allowed : Key -> Allowance}
      {after middle : TupleSet} {shortage : OutOfMemory} {kept : Finset TupleId}
      {marks : List Mark} {mark : Mark}
      (fits : ∀ tuple ∈ listed block offsets, tuple.Fits set.offsetBits)
      (least : tuples ⊆ kept) (most : kept ⊆ tuples ∪ listed block offsets)
      (words : Mark.allNumbers marks = packedAll (listed block offsets) set.offsetBits)
      (stops : set.StopsAt after allowed marks middle mark shortage) (before : middle.Packs kept)
      (new : ∃ tuple ∈ listed block offsets,
        tuple ∉ kept ∧ tuple.packed set.offsetBits ∈ mark.numbers) :
      Conforms set tuples (.insertMany block offsets allowed)
        (.added (.error (.outOfMemory shortage))) after kept
  /-- The first offset that does not fit is named, and nothing is added. -/
  | someOutOfRange {block : UInt32} {first rest : List UInt16} {offset : UInt16}
      {allowed : Key -> Allowance} (fits : ∀ tuple ∈ listed block first, tuple.Fits set.offsetBits)
      (wide : ¬ (TupleId.mk block offset).Fits set.offsetBits) :
      Conforms set tuples (.insertMany block (first ++ offset :: rest) allowed)
        (.added (.error (.offsetOutOfRange offset set.offsetBits))) set tuples
  | tested {tuple : TupleId} :
      Conforms set tuples (.contains tuple) (.flag (decide (tuple ∈ tuples))) set tuples
  | erased {tuple : TupleId} {after : TupleSet}
      (givenBack : Pools.GivenBack set.tree.pools after.tree.pools) :
      Conforms set tuples (.erase tuple) (.flag (decide (tuple ∈ tuples))) after (tuples.erase tuple)

/-- At every point of a run the set packs its tuples, and every answer conforms. -/
inductive Refines : TupleSet -> Finset TupleId -> List Request -> Prop
  | done {set : TupleSet} {tuples : Finset TupleId} (packs : set.Packs tuples) :
      Refines set tuples []
  | step {set : TupleSet} {tuples next : Finset TupleId} {request : Request}
      {requests : List Request} (packs : set.Packs tuples)
      (conforms : Conforms set tuples request (set.perform request).2 (set.perform request).1 next)
      (rest : Refines (set.perform request).1 next requests) : Refines set tuples (request :: requests)

/-! ## Tuples as their numbers -/

theorem mem_packedAll (fits : ∀ tuple ∈ tuples, tuple.Fits width) (own : tuple.Fits width) :
    tuple.packed width ∈ packedAll tuples width ↔ tuple ∈ tuples := by
  rw [packedAll, Finset.mem_image]
  constructor
  · intro listed
    rcases listed with ⟨other, member, same⟩
    exact (TupleId.packed_inj (fits other member) own).mp same ▸ member
  · exact fun member => ⟨tuple, member, rfl⟩

theorem packedAll_union (tuples given : Finset TupleId) (width : Nat) :
    packedAll (tuples ∪ given) width = packedAll tuples width ∪ packedAll given width :=
  Finset.image_union tuples given

theorem packedAll_singleton (tuple : TupleId) (width : Nat) :
    packedAll {tuple} width = {tuple.packed width} :=
  Finset.image_singleton _ tuple

theorem packedAll_erase (fits : ∀ tuple ∈ tuples, tuple.Fits width) (own : tuple.Fits width) :
    packedAll (tuples.erase tuple) width = (packedAll tuples width).erase (tuple.packed width) := by
  ext number
  simp only [packedAll, Finset.mem_image, Finset.mem_erase]
  constructor
  · intro listed
    rcases listed with ⟨other, ⟨different, member⟩, rfl⟩
    exact ⟨fun same => different ((TupleId.packed_inj (fits other member) own).mp same),
      other, member, rfl⟩
  · intro listed
    rcases listed with ⟨different, other, member, rfl⟩
    exact ⟨other, ⟨fun same => different (by rw [same]), member⟩, rfl⟩

theorem card_packedAll (fits : ∀ tuple ∈ tuples, tuple.Fits width) :
    (packedAll tuples width).card = tuples.card :=
  Finset.card_image_of_injOn fun first member second memberToo same =>
    (TupleId.packed_inj (fits first member) (fits second memberToo)).mp same

/-- New tuples have new numbers. -/
theorem card_packedAll_sdiff (fits : ∀ tuple ∈ tuples, tuple.Fits width)
    (fitsToo : ∀ tuple ∈ given, tuple.Fits width) :
    (packedAll given width \ packedAll tuples width).card = (given \ tuples).card := by
  have new : packedAll given width \ packedAll tuples width = packedAll (given \ tuples) width := by
    ext number
    rw [Finset.mem_sdiff]
    constructor
    · intro listed
      rcases listed with ⟨inGiven, unlisted⟩
      rcases Finset.mem_image.mp inGiven with ⟨tuple, member, rfl⟩
      rw [mem_packedAll fits (fitsToo tuple member)] at unlisted
      exact Finset.mem_image.mpr ⟨tuple, Finset.mem_sdiff.mpr ⟨member, unlisted⟩, rfl⟩
    · intro listed
      rcases Finset.mem_image.mp listed with ⟨tuple, member, rfl⟩
      rcases Finset.mem_sdiff.mp member with ⟨inGiven, absent⟩
      rw [mem_packedAll fits (fitsToo tuple inGiven)]
      exact ⟨Finset.mem_image.mpr ⟨tuple, inGiven, rfl⟩, absent⟩
  rw [new, card_packedAll fun tuple member => fitsToo tuple (Finset.mem_sdiff.mp member).1]

/-- Numbers between those of some tuples and those of more are the numbers of tuples. -/
theorem exists_packedAll_eq {kept : Finset Nat} (least : packedAll tuples width ⊆ kept)
    (most : kept ⊆ packedAll (tuples ∪ given) width) :
    ∃ between, tuples ⊆ between ∧ between ⊆ tuples ∪ given ∧ packedAll between width = kept := by
  let between := (tuples ∪ given).filter fun tuple => tuple.packed width ∈ kept
  refine ⟨between, ?_, Finset.filter_subset _ _, ?_⟩
  · intro tuple member
    exact Finset.mem_filter.mpr ⟨Finset.mem_union_left _ member,
      least (Finset.mem_image.mpr ⟨tuple, member, rfl⟩)⟩
  · ext number
    constructor
    · intro listed
      rcases Finset.mem_image.mp listed with ⟨tuple, member, rfl⟩
      exact (Finset.mem_filter.mp member).2
    · intro listed
      rcases Finset.mem_image.mp (most listed) with ⟨tuple, member, rfl⟩
      exact Finset.mem_image.mpr ⟨tuple, Finset.mem_filter.mpr ⟨member, listed⟩, rfl⟩

/-! ## What a set holds -/

/-- The set has offsets of this width and stores the numbers of these tuples. -/
structure Holds (set : TupleSet) (width : Nat) (tuples : Finset TupleId) : Prop where
  same : set.offsetBits = width
  fits : ∀ tuple ∈ tuples, tuple.Fits width
  stores : set.Stores (packedAll tuples width)

namespace Holds

theorem narrow (holds : set.Holds width tuples) : width ≤ 16 :=
  holds.same ▸ set.offsetBits_le

/-- The numbers under a key are those of the tuples that are packed there. -/
private theorem mem_word_iff (holds : set.Holds width tuples) {key : Key} {number : Nat} :
    number ∈ (⟨key, set.word key⟩ : Mark).numbers ↔
      (∃ tuple ∈ tuples, tuple.packed width = number) ∧ number / 64 = key.toNat := by
  rw [holds.stores.words, Finset.mem_filter, packedAll, Finset.mem_image]

private theorem mem_keys_iff (holds : set.Holds width tuples) (key : Key) :
    key ∈ set.tree.toList.map Prod.fst ↔ ∃ tuple ∈ tuples, tuple.packed width >>> 6 = key.toNat := by
  have listing := Tree.listing holds.stores.sound.toRooted
  have shifted : forall number : Nat, number >>> 6 = number / 64 := fun number =>
    Nat.shiftRight_eq_div_pow number 6
  rw [listing.mem_keys_iff, Option.isSome_iff_exists]
  simp only [shifted]
  constructor
  · intro found
    rcases found with ⟨value, bound⟩
    have word : set.word key = value := by rw [word, bound, Option.getD_some]
    have occupied : (⟨key, set.word key⟩ : Mark).numbers ≠ ∅ := by
      intro empty
      rw [← Mark.numbers_zero, ← Mark.bits_eq_iff, word] at empty
      exact holds.stores.nonzero key (empty ▸ bound)
    rcases Finset.nonempty_iff_ne_empty.mpr occupied with ⟨number, member⟩
    rcases holds.mem_word_iff.mp member with ⟨⟨tuple, marked, rfl⟩, under⟩
    exact ⟨tuple, marked, under⟩
  · intro marked
    rcases marked with ⟨tuple, member, under⟩
    have bit := holds.mem_word_iff.mpr ⟨⟨tuple, member, rfl⟩, under⟩
    refine ⟨set.word key, Stores.get?_eq_of_word_ne_zero fun zero => ?_⟩
    rw [zero, Mark.numbers_zero] at bit
    exact Finset.notMem_empty _ bit

private theorem testBit_iff (holds : set.Holds width tuples) {key : Key} {value : UInt64}
    (bound : set.tree.get? key = some value) {place : Nat} (inside : place < 64) :
    value.toNat.testBit place = true ↔
      ∃ tuple ∈ tuples, tuple.packed width = 64 * key.toNat + place := by
  have word : set.word key = value := by rw [word, bound, Option.getD_some]
  have top : (64 * key.toNat + place) / 64 = key.toNat := by omega
  have low : (64 * key.toNat + place) % 64 = place := by omega
  have listed : 64 * key.toNat + place ∈ (⟨key, set.word key⟩ : Mark).numbers ↔ _ :=
    holds.mem_word_iff
  simp only [Mark.mem_numbers, word, top, low, true_and, and_true] at listed
  exact listed

/-- What is stored is the tuples packed into words. -/
theorem packs (holds : set.Holds width tuples) : set.Packs tuples := by
  have listing := Tree.listing holds.stores.sound.toRooted
  have same := holds.same
  refine ⟨?_, same ▸ holds.fits, same ▸ holds.mem_keys_iff, ?_, ?_, ?_⟩
  · rw [holds.stores.counted, card_packedAll holds.fits]
  · intro binding member place inside
    rw [same]
    exact holds.testBit_iff (listing.mem_iff.mp member) inside
  · intro binding member zero
    exact holds.stores.nonzero binding.1 (zero ▸ listing.mem_iff.mp member)
  · intro first member second memberToo packed
    rw [same] at packed
    exact (TupleId.packed_inj (holds.fits first member) (holds.fits second memberToo)).mp packed

/-! ## Calls -/

/-- A tuple that fits is in the set when its number is stored. -/
private theorem numbers_subset_iff (holds : set.Holds width tuples) (fits : tuple.Fits width)
    {mark : Mark} (single : mark.numbers = {tuple.packed width}) :
    mark.numbers ⊆ packedAll tuples width ↔ tuple ∈ tuples := by
  rw [single, Finset.singleton_subset_iff, mem_packedAll holds.fits fits]

/-- The number of a tuple is new or it is not. -/
private theorem card_new (holds : set.Holds width tuples) (fits : tuple.Fits width) {mark : Mark}
    (single : mark.numbers = {tuple.packed width}) :
    ((mark.numbers \ packedAll tuples width).card != 0) = decide (tuple ∉ tuples) := by
  have inside := holds.numbers_subset_iff fits single
  rw [← Finset.sdiff_eq_empty_iff_subset, ← Finset.card_eq_zero] at inside
  rw [Bool.eq_iff_iff, bne_iff_ne, decide_eq_true_iff, ne_eq, inside]

theorem insertWithin (holds : set.Holds width tuples) (allowance : Allowance) (tuple : TupleId) :
    ∃ next, Conforms set tuples (.insert tuple allowance)
        (.inserted (set.insertWithin allowance tuple).result)
        (set.insertWithin allowance tuple).state next ∧
      (set.insertWithin allowance tuple).state.Holds width next := by
  have same := holds.same
  rw [TupleSet.insertWithin, same]
  by_cases fits : tuple.Fits width
  · have fitsToo : tuple.Fits set.offsetBits := same.symm ▸ fits
    rcases TupleId.mark?_of_fits holds.narrow fits with ⟨mark, found, single⟩
    have marked := marked_markedWithin holds.stores allowance mark
    have answer := holds.card_new fits single
    simp only [found]
    generalize set.markedWithin allowance mark = outcome at marked ⊢
    cases marked with
    | @set after events stores offsets =>
        rw [single, ← packedAll_singleton, ← packedAll_union] at stores
        have unit : ∀ other ∈ tuples ∪ {tuple}, other.Fits width := by
          intro other member
          rcases Finset.mem_union.mp member with old | own
          · exact holds.fits other old
          · exact Finset.mem_singleton.mp own ▸ fits
        have after : after.Holds width (tuples ∪ {tuple}) := ⟨offsets.trans same, unit, stores⟩
        simp only [Except.map, answer]
        by_cases present : tuple ∈ tuples
        · have together : tuples ∪ {tuple} = tuples :=
            Finset.union_eq_left.mpr (Finset.singleton_subset_iff.mpr present)
          rw [decide_eq_false (not_not.mpr present)]
          exact ⟨tuples, .old present, together ▸ after⟩
        · rw [decide_eq_true present]
          exact ⟨_, .new fitsToo present, after⟩
    | refused stores offsets new unchanged unmarked =>
        have absent : tuple ∉ tuples := fun present =>
          new ((holds.numbers_subset_iff fits single).mpr present)
        have markedSo : tuple.mark? set.offsetBits = some mark := same.symm ▸ found
        exact ⟨tuples, .refused fitsToo absent unchanged markedSo unmarked, offsets.trans same,
          holds.fits, stores⟩
  · rw [TupleId.mark?_of_not_fits fits, ← same]
    exact ⟨tuples, .outOfRange (same.symm ▸ fits), same ▸ holds⟩

/-- A mark of given tuples that is not all stored has the number of one that is not there. -/
private theorem exists_new {kept : Finset TupleId} {mark : Mark}
    (own : mark.numbers ⊆ packedAll given width) (new : ¬ mark.numbers ⊆ packedAll kept width) :
    ∃ tuple ∈ given, tuple ∉ kept ∧ tuple.packed width ∈ mark.numbers := by
  rcases Finset.not_subset.mp new with ⟨number, listed, unstored⟩
  rcases Finset.mem_image.mp (own listed) with ⟨tuple, member, rfl⟩
  refine ⟨tuple, member, ?_, listed⟩
  intro present
  exact unstored (Finset.mem_image.mpr ⟨tuple, present, rfl⟩)

/-- The marks of offsets that all fit stand for the tuples, and else the first that does not
is named. -/
theorem marks_cases (set : TupleSet) (block : UInt32) (offsets : List UInt16) :
    (∃ marks, set.marks block offsets = .ok marks ∧
        (∀ tuple ∈ listed block offsets, tuple.Fits set.offsetBits) ∧
        Mark.allNumbers marks = packedAll (listed block offsets) set.offsetBits) ∨
      ∃ first offset rest, offsets = first ++ offset :: rest ∧
        (∀ tuple ∈ listed block first, tuple.Fits set.offsetBits) ∧
        ¬ (TupleId.mk block offset).Fits set.offsetBits ∧
        set.marks block offsets = .error (.offsetOutOfRange offset set.offsetBits) := by
  have cons : forall offset rest, listed block (offset :: rest) = {⟨block, offset⟩} ∪ listed block rest := by
    intro offset rest
    rw [listed, List.map_cons, List.toFinset_cons]
    rfl
  induction offsets with
  | nil => exact Or.inl ⟨[], rfl, by simp [listed], rfl⟩
  | cons offset rest inductionHypothesis =>
      by_cases fits : (TupleId.mk block offset).Fits set.offsetBits
      · rcases TupleId.mark?_of_fits set.offsetBits_le fits with ⟨mark, found, single⟩
        have both : forall others, (∀ tuple ∈ listed block others, tuple.Fits set.offsetBits) ->
            ∀ tuple ∈ listed block (offset :: others), tuple.Fits set.offsetBits := by
          intro others fitToo tuple member
          rw [cons] at member
          rcases Finset.mem_union.mp member with own | other
          · exact Finset.mem_singleton.mp own ▸ fits
          · exact fitToo tuple other
        rcases inductionHypothesis with
          ⟨marks, found', fitToo, numbers⟩ | ⟨first, wide, more, split, fitToo, notFits, failed⟩
        · refine Or.inl ⟨mark :: marks, ?_, both rest fitToo, ?_⟩
          · simp only [TupleSet.marks, found, found', Except.map]
          · rw [cons, packedAll_union, packedAll_singleton, ← numbers, ← single]
            rfl
        · refine Or.inr ⟨offset :: first, wide, more, ?_, both first fitToo, notFits, ?_⟩
          · rw [split, List.cons_append]
          · simp only [TupleSet.marks, found, failed, Except.map]
      · refine Or.inr ⟨[], offset, rest, rfl, by simp [listed], fits, ?_⟩
        simp only [TupleSet.marks, TupleId.mark?_of_not_fits fits]

theorem insertManyWithin (holds : set.Holds width tuples) (block : UInt32) (offsets : List UInt16)
    (allowed : Key -> Allowance) :
    ∃ next, Conforms set tuples (.insertMany block offsets allowed)
        (.added (set.insertManyWithin allowed block offsets).result)
        (set.insertManyWithin allowed block offsets).state next ∧
      (set.insertManyWithin allowed block offsets).state.Holds width next := by
  have same := holds.same
  rw [TupleSet.insertManyWithin]
  rcases marks_cases set block offsets with
    ⟨marks, found, fits, numbers⟩ | ⟨first, offset, rest, split, fits, wide, failed⟩
  · have words : Mark.allNumbers (Mark.joined (marks.mergeSort Mark.precedes)) =
        packedAll (listed block offsets) width := by
      rw [Mark.allNumbers_joined, Mark.allNumbers_perm (marks.mergeSort_perm _), numbers, same]
    have added := added_markedAllWithin allowed (Mark.joined (marks.mergeSort Mark.precedes))
      holds.stores
    rw [words] at added
    simp only [found]
    generalize Mark.joined (marks.mergeSort Mark.precedes) = joined at words added ⊢
    generalize set.markedAllWithin allowed joined = outcome at added ⊢
    have fitsToo : ∀ tuple ∈ listed block offsets, tuple.Fits width := same ▸ fits
    have both : ∀ tuple ∈ tuples ∪ listed block offsets, tuple.Fits width := by
      intro tuple member
      rcases Finset.mem_union.mp member with old | given
      · exact holds.fits tuple old
      · exact fitsToo tuple given
    cases added with
    | all stores unchanged =>
        rw [← packedAll_union] at stores
        rw [card_packedAll_sdiff holds.fits fitsToo]
        exact ⟨_, .addedAll fits, unchanged.trans same, both, stores⟩
    | @some after middle events mark shortage kept stores unchanged least most before new stops =>
        rw [← packedAll_union] at most
        rcases exists_packedAll_eq least most with ⟨between, more, few, rfl⟩
        have fitsKept : ∀ tuple ∈ between, tuple.Fits width :=
          fun tuple member => both tuple (few member)
        have middleHolds : middle.Holds width between := by
          have left := congrArg TupleSet.offsetBits stops.unmarked.left
          exact ⟨left.symm.trans (unchanged.trans same), fitsKept, before⟩
        have newToo := exists_new (words ▸ stops.numbers_subset) new
        exact ⟨between, .addedSome fits more few (same.symm ▸ words) stops middleHolds.packs
          (same.symm ▸ newToo), unchanged.trans same, fitsKept, stores⟩
  · rw [failed]
    subst offsets
    exact ⟨tuples, .someOutOfRange fits wide, holds⟩

theorem erase (holds : set.Holds width tuples) (tuple : TupleId) :
    Conforms set tuples (.erase tuple) (.flag (set.erase tuple).result) (set.erase tuple).state
        (tuples.erase tuple) ∧
      (set.erase tuple).state.Holds width (tuples.erase tuple) := by
  have same := holds.same
  have fewer : ∀ other ∈ tuples.erase tuple, other.Fits width :=
    fun other member => holds.fits other (Finset.mem_of_mem_erase member)
  by_cases fits : tuple.Fits width
  · rcases TupleId.mark?_of_fits holds.narrow fits with ⟨mark, found, single⟩
    have erased := erased_erase holds.stores (same.symm ▸ found) single
    have answer := erased.result
    have stores := erased.stores
    simp only [mem_packedAll holds.fits fits] at answer
    rw [← packedAll_erase holds.fits fits] at stores
    rw [answer]
    exact ⟨.erased erased.givenBack, erased.width.trans same, fewer, stores⟩
  · have absent : tuple ∉ tuples := fun present => fits (holds.fits tuple present)
    have unmarked := TupleId.mark?_of_not_fits fits
    rw [← same] at unmarked
    have unchanged : set.erase tuple = ⟨set, false, []⟩ := by rw [TupleSet.erase, unmarked]
    rw [unchanged, ← decide_eq_false absent]
    refine ⟨.erased (Pools.givenBack_of_released []), same, fewer, ?_⟩
    rw [Finset.erase_eq_of_notMem absent]
    exact holds.stores

theorem contains (holds : set.Holds width tuples) (tuple : TupleId) :
    set.contains tuple = decide (tuple ∈ tuples) := by
  have same := holds.same
  by_cases fits : tuple.Fits width
  · rcases TupleId.mark?_of_fits holds.narrow fits with ⟨mark, found, single⟩
    have answer := contains_eq holds.stores (same.symm ▸ found) single
    simpa only [mem_packedAll holds.fits fits] using answer
  · have absent : tuple ∉ tuples := fun present => fits (holds.fits tuple present)
    have unmarked := TupleId.mark?_of_not_fits fits
    rw [← same] at unmarked
    rw [TupleSet.contains, unmarked, decide_eq_false absent]

/-- A call leaves a set that holds what the answer conforms to. -/
theorem perform (holds : set.Holds width tuples) (request : Request) :
    ∃ next, Conforms set tuples request (set.perform request).2 (set.perform request).1 next ∧
      (set.perform request).1.Holds width next := by
  cases request with
  | insert tuple allowance => exact holds.insertWithin allowance tuple
  | insertMany block offsets allowed => exact holds.insertManyWithin block offsets allowed
  | contains tuple =>
      refine ⟨tuples, ?_, holds⟩
      rw [TupleSet.perform, holds.contains]
      exact .tested
  | erase tuple => exact ⟨_, holds.erase tuple⟩

theorem refines (holds : set.Holds width tuples) (requests : List Request) :
    Refines set tuples requests := by
  induction requests generalizing set tuples with
  | nil => exact .done holds.packs
  | cons request rest inductionHypothesis =>
      rcases holds.perform request with ⟨next, conforms, stillHolds⟩
      exact .step holds.packs conforms (inductionHypothesis stillHolds)

theorem after (holds : set.Holds width tuples) (requests : List Request) :
    ∃ last, (set.after requests).Holds width last := by
  induction requests generalizing set tuples with
  | nil => exact ⟨tuples, holds⟩
  | cons request rest inductionHypothesis =>
      rcases holds.perform request with ⟨next, _, stillHolds⟩
      exact inductionHypothesis stillHolds

/-- A set over a tree without keys holds nothing. -/
theorem empty {tree : Tree} (sound : tree.Sound) (blank : tree.isEmpty = true)
    (narrow : width ≤ 16) : Holds ⟨tree, width, 0, narrow⟩ width ∅ where
  same := rfl
  fits _ impossible := (Finset.notMem_empty _ impossible).elim
  stores := by
    have missed := Tree.get?_of_none (Option.isNone_iff_eq_none.mp blank)
    refine ⟨sound, ?_, ?_, rfl⟩
    · intro key
      rw [word, missed, Option.getD_none, Mark.numbers_zero]
      rfl
    · intro key
      rw [missed]
      exact (Option.some_ne_none 0).symm

end Holds

/-- Every set that calls lead to holds some tuples. -/
theorem exists_holds_after {limit? : Option Nat} {history : List AdaptiveRadix.Request}
    {start : TupleSet} (made : ofTree ((Tree.empty limit?).after history) width = .ok start)
    (requests : List Request) : ∃ tuples, (start.after requests).Holds width tuples := by
  rw [ofTree] at made
  split at made
  · rename_i blank
    split at made
    · rename_i narrow
      cases made
      exact (Holds.empty (Tree.sound_after (Tree.sound_empty limit?) history) blank narrow).after
        requests
    · cases made
  · cases made

/-- Over every tree without keys, whatever its limit and its past, there is a set for every
width of offsets up to 16, and every run of it refines a finite set that begins empty. -/
theorem refines_ofTree (limit? : Option Nat) (history : List AdaptiveRadix.Request)
    (blank : ((Tree.empty limit?).after history).isEmpty = true) (offsetBits : Nat)
    (narrow : offsetBits ≤ 16) (requests : List Request) :
    ∃ set, ofTree ((Tree.empty limit?).after history) offsetBits = .ok set ∧
      set.offsetBits = offsetBits ∧ Refines set ∅ requests := by
  have sound := Tree.sound_after (Tree.sound_empty limit?) history
  refine ⟨⟨(Tree.empty limit?).after history, offsetBits, 0, narrow⟩, ?_, rfl, ?_⟩
  · rw [ofTree, if_pos blank, dif_pos narrow]
  · exact (Holds.empty sound blank narrow).refines requests

/-- Two blocks share a word, and the system has no room for a second one. -/
theorem refines_ofTree_narrow :
    ((Tree.empty (some 100)).after [.insert 256 7 none, .erase 256]).isEmpty = true ∧
      ∃ set, ofTree ((Tree.empty (some 100)).after [.insert 256 7 none, .erase 256]) 3 = .ok set ∧
        set.offsetBits = 3 ∧ Refines set ∅
          [.insert ⟨0, 7⟩ none, .insert ⟨1, 0⟩ none, .insertMany 9 [1, 2, 1] fun _ => some 0,
            .erase ⟨0, 7⟩, .contains ⟨1, 0⟩] := by
  have blank : ((Tree.empty (some 100)).after [.insert 256 7 none, .erase 256]).isEmpty = true := by
    decide +kernel
  exact ⟨blank, refines_ofTree (some 100) _ blank 3 (by decide) _⟩

end TupleSet
end AdaptiveRadix
