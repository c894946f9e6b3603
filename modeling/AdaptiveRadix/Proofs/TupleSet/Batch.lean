import AdaptiveRadix.Proofs.TupleSet.Refinement
import AdaptiveRadix.Proofs.Tree.Overwrite

namespace AdaptiveRadix

/-!
# Adding tuples together or one by one

Tuples of one block that are added together are set word by word; added one by one, in
ascending order, they are set bit by bit.  The words come in the same order as the
bits, and the bits of one word come together.  So it is enough that two marks under
one key, set in turn, leave what their joined mark leaves: the first makes room for the
word or fails for both, and the second is written in its place.
-/

namespace TupleSet

variable {set : TupleSet} {key : Key} {first second : UInt64} {numbers : Finset Nat}

/-! ## Two marks under one key -/

theorem markedWithin_of_old (mark : Mark) (old : set.word mark.key ||| mark.bits = set.word mark.key)
    (allowance : Allowance) : set.markedWithin allowance mark = ⟨set, .ok 0, []⟩ := by
  rw [markedWithin]
  exact if_pos old

/-- New bits are written with those that are there, where the tree accepts the word. -/
theorem markedWithin_of_ok (stores : set.Stores numbers) (mark : Mark)
    (new : set.word mark.key ||| mark.bits ≠ set.word mark.key) {present : Bool}
    (accepted : (set.tree.insert mark.key (set.word mark.key ||| mark.bits)).result = .ok present) :
    set.markedWithin none mark =
      ⟨{ set with
          tree := (set.tree.insert mark.key (set.word mark.key ||| mark.bits)).state
          size := set.size + (mark.numbers \ numbers).card },
        .ok (mark.numbers \ numbers).card,
        (set.tree.insert mark.key (set.word mark.key ||| mark.bits)).events⟩ := by
  rw [Tree.insert] at accepted
  rw [markedWithin]
  simp only [if_neg new, accepted, card_fresh stores mark, Tree.insert]

theorem markedWithin_of_error (mark : Mark)
    (new : set.word mark.key ||| mark.bits ≠ set.word mark.key) {shortage : OutOfMemory}
    (refused :
      (set.tree.insert mark.key (set.word mark.key ||| mark.bits)).result = .error shortage) :
    set.markedWithin none mark =
      ⟨{ set with tree := (set.tree.insert mark.key (set.word mark.key ||| mark.bits)).state },
        .error (.outOfMemory shortage),
        (set.tree.insert mark.key (set.word mark.key ||| mark.bits)).events⟩ := by
  rw [Tree.insert] at refused
  rw [markedWithin]
  simp only [if_neg new, refused, Tree.insert]

/-- Set the bits of marks in turn while the system grants every request for room. -/
def markedAll (set : TupleSet) (marks : List Mark) : Outcome TupleSet (Except InsertError Nat) :=
  set.markedAllWithin (fun _ => none) marks

theorem markedAll_of_ok {mark : Mark} {after : TupleSet} {fresh : Nat} {events : List Event}
    (does : set.markedWithin none mark = ⟨after, .ok fresh, events⟩) (rest : List Mark) :
    set.markedAll (mark :: rest) =
      ⟨(after.markedAll rest).state, (after.markedAll rest).result.map (fresh + ·),
        events ++ (after.markedAll rest).events⟩ := by
  simp only [markedAll, markedAllWithin, does]

theorem markedAll_of_error {mark : Mark} {after : TupleSet} {error : InsertError}
    {events : List Event} (does : set.markedWithin none mark = ⟨after, .error error, events⟩)
    (rest : List Mark) : set.markedAll (mark :: rest) = ⟨after, .error error, events⟩ := by
  simp only [markedAll, markedAllWithin, does]

/-- A mark of which nothing is new is as good as not given. -/
theorem markedAll_of_old (mark : Mark) (old : set.word mark.key ||| mark.bits = set.word mark.key)
    (rest : List Mark) : set.markedAll (mark :: rest) = set.markedAll rest := by
  rw [markedAll_of_ok (markedWithin_of_old mark old none)]
  simp only [List.nil_append, Nat.zero_add]
  rcases set.markedAll rest with ⟨after, _ | count, events⟩ <;> rfl

/-- After a first mark was set, a second one under its key is set in the word that is there.
The tree is then the one that both together leave. -/
private theorem markedWithin_second (stores : set.Stores numbers)
    (new : set.word key ||| first ≠ set.word key) {present : Bool}
    (accepted : (set.tree.insert key (set.word key ||| first)).result = .ok present)
    (second : UInt64) :
    (set.markedWithin none ⟨key, first⟩).state.markedWithin none ⟨key, second⟩ =
      ⟨{ set with
          tree := (set.tree.insert key (set.word key ||| (first ||| second))).state
          size := set.size + ((⟨key, first ||| second⟩ : Mark).numbers \ numbers).card },
        .ok ((⟨key, second⟩ : Mark).numbers \ (numbers ∪ (⟨key, first⟩ : Mark).numbers)).card, []⟩ := by
  have written := Tree.insert_of_ok stores.sound accepted (set.word key ||| (first ||| second))
  have found := Tree.get?_of_insert_ok stores.sound accepted
  have marked := marked_markedWithin stores none ⟨key, first⟩
  rw [markedWithin_of_ok stores ⟨key, first⟩ new accepted] at marked ⊢
  rw [Mark.numbers_or, card_new_union]
  simp only
  generalize after : ({ set with
    tree := (set.tree.insert key (set.word key ||| first)).state
    size := set.size + ((⟨key, first⟩ : Mark).numbers \ numbers).card } : TupleSet) = once at marked ⊢
  cases marked with
  | set storesAfter width =>
      have tree : once.tree = (set.tree.insert key (set.word key ||| first)).state := after ▸ rfl
      have word : once.word key = set.word key ||| first := by
        rw [TupleSet.word, tree, found, Option.getD_some]
      by_cases old : once.word key ||| second = once.word key
      · have none := (word_or_eq_iff storesAfter ⟨key, second⟩).mp old
        rw [markedWithin_of_old ⟨key, second⟩ old, Finset.sdiff_eq_empty_iff_subset.mpr none,
          Finset.card_empty, ← UInt64.or_assoc, ← word, old, word, ← after]
        rfl
      · rw [← tree, ← word] at found
        have replaced := Tree.insert_of_found found (once.word key ||| second)
        rw [markedWithin_of_ok storesAfter ⟨key, second⟩ old (congrArg Outcome.result replaced),
          replaced, written, tree, word, ← UInt64.or_assoc, ← after, Nat.add_assoc]

/-- Two marks under one key, one after the other, do what they do joined. -/
theorem markedAll_join (stores : set.Stores numbers) (key : Key) (first second : UInt64)
    (rest : List Mark) :
    set.markedAll (⟨key, first⟩ :: ⟨key, second⟩ :: rest) =
      set.markedAll (⟨key, first ||| second⟩ :: rest) := by
  by_cases old : set.word key ||| first = set.word key
  · have same : set.markedWithin none ⟨key, first ||| second⟩ = set.markedWithin none ⟨key, second⟩ := by
      simp only [markedWithin, ← UInt64.or_assoc, old]
    rw [markedAll_of_old ⟨key, first⟩ old]
    simp only [markedAll, markedAllWithin, same]
  · have new : set.word key ||| (first ||| second) ≠ set.word key := by
      rw [word_or_eq_iff stores ⟨key, first⟩] at old
      rw [ne_eq, word_or_eq_iff stores ⟨key, first ||| second⟩, Mark.numbers_or]
      exact fun inside => old (Finset.subset_union_left.trans inside)
    cases result : (set.tree.insert key (set.word key ||| first)).result with
    | error shortage =>
        have same := Tree.insert_of_error result (set.word key ||| (first ||| second))
        have resultToo := (congrArg Outcome.result same).trans result
        rw [markedAll_of_error (markedWithin_of_error ⟨key, first⟩ old result),
          markedAll_of_error (markedWithin_of_error ⟨key, first ||| second⟩ new resultToo), same]
    | ok present =>
        have alone := markedWithin_of_ok stores ⟨key, first⟩ old result
        have secondly := markedWithin_second stores old result second
        have written := Tree.insert_of_ok stores.sound result (set.word key ||| (first ||| second))
        have both := markedWithin_of_ok stores ⟨key, first ||| second⟩ new
          (congrArg Outcome.result written)
        rw [alone] at secondly
        rw [markedAll_of_ok alone, markedAll_of_ok secondly, markedAll_of_ok both,
          congrArg Outcome.events written, Mark.numbers_or, card_new_union]
        simp only [List.nil_append]
        generalize TupleSet.markedAll _ rest = others
        rcases others with ⟨last, _ | count, later⟩
        · rfl
        · simp only [Except.map, Nat.add_assoc]

/-- Lists of marks that do the same in every set do the same after a mark. -/
private theorem markedAll_cons_congr (stores : set.Stores numbers) (mark : Mark)
    {rest others : List Mark}
    (same : forall {after : TupleSet} {numbers : Finset Nat}, after.Stores numbers ->
      after.markedAll rest = after.markedAll others) :
    set.markedAll (mark :: rest) = set.markedAll (mark :: others) := by
  have marked := marked_markedWithin stores none mark
  cases does : set.markedWithin none mark with
  | mk after result events =>
      rw [does] at marked
      cases marked with
      | set storesAfter => rw [markedAll_of_ok does, markedAll_of_ok does, same storesAfter]
      | refused => rw [markedAll_of_error does, markedAll_of_error does]

/-- Joining neighbouring marks changes nothing of what they do. -/
theorem markedAll_joined (stores : set.Stores numbers) (marks : List Mark) :
    set.markedAll (Mark.joined marks) = set.markedAll marks := by
  induction marks generalizing set numbers with
  | nil => rfl
  | cons mark rest inductionHypothesis =>
      rw [← markedAll_cons_congr stores mark fun storesAfter => inductionHypothesis storesAfter,
        Mark.joined]
      rcases Mark.joined rest with _ | ⟨next, others⟩
      · rfl
      · by_cases same : next.key = mark.key
        · rcases mark with ⟨key, bits⟩
          rcases next with ⟨nextKey, nextBits⟩
          cases same
          simp only [if_pos]
          exact (markedAll_join stores _ bits nextBits others).symm
        · simp only [if_neg same]

/-! ## One by one -/

/-- Add tuples of one block one after the other, up to the first that is refused.  The answer
is the number of those that were new. -/
def insertEach (set : TupleSet) (block : UInt32) :
    List UInt16 -> Outcome TupleSet (Except InsertError Nat)
  | [] => ⟨set, .ok 0, []⟩
  | offset :: rest =>
      let first := set.insert ⟨block, offset⟩
      match first.result with
      | .error error => ⟨first.state, .error error, first.events⟩
      | .ok new =>
          let others := first.state.insertEach block rest
          ⟨others.state, others.result.map (new.toNat + ·), first.events ++ others.events⟩

/-- The mark of a tuple that fits. -/
def markOf (set : TupleSet) (block : UInt32) (offset : UInt16) : Mark :=
  Mark.ofPacked (block.toUInt64 <<< set.offsetBits.toUInt64 ||| offset.toUInt64)

theorem mark?_eq_markOf {block : UInt32} {offset : UInt16}
    (fits : (TupleId.mk block offset).Fits set.offsetBits) :
    (TupleId.mk block offset).mark? set.offsetBits = some (set.markOf block offset) :=
  if_pos (by rwa [Nat.one_shiftLeft])

theorem numbers_markOf (set : TupleSet) (block : UInt32) (offset : UInt16) :
    (set.markOf block offset).numbers = {(TupleId.mk block offset).packed set.offsetBits} := by
  rw [markOf, Mark.numbers_ofPacked, TupleId.toNat_packed set.offsetBits_le ⟨block, offset⟩]

/-- A mark of one number has one new number or none. -/
private theorem toNat_card_fresh (set : TupleSet) (numbers : Finset Nat) (block : UInt32)
    (offset : UInt16) :
    (((set.markOf block offset).numbers \ numbers).card != 0).toNat =
      ((set.markOf block offset).numbers \ numbers).card := by
  have few := Finset.card_le_card
    (Finset.sdiff_subset (s := (set.markOf block offset).numbers) (t := numbers))
  nth_rewrite 2 [numbers_markOf] at few
  rw [Finset.card_singleton] at few
  generalize ((set.markOf block offset).numbers \ numbers).card = fresh at few ⊢
  interval_cases fresh <;> rfl

theorem marks_of_fits {block : UInt32} {offsets : List UInt16}
    (fits : ∀ offset ∈ offsets, (TupleId.mk block offset).Fits set.offsetBits) :
    set.marks block offsets = .ok (offsets.map (set.markOf block)) := by
  induction offsets with
  | nil => rfl
  | cons offset rest inductionHypothesis =>
      have later := inductionHypothesis fun other mem => fits other (List.mem_cons_of_mem offset mem)
      simp only [marks, mark?_eq_markOf (fits offset List.mem_cons_self), later, Except.map,
        List.map_cons]

/-- Tuples added one by one are marks that are set in turn. -/
theorem insertEach_eq_markedAll (stores : set.Stores numbers) {block : UInt32}
    {offsets : List UInt16}
    (fits : ∀ offset ∈ offsets, (TupleId.mk block offset).Fits set.offsetBits) :
    set.insertEach block offsets = set.markedAll (offsets.map (set.markOf block)) := by
  induction offsets generalizing set numbers with
  | nil => rfl
  | cons offset rest inductionHypothesis =>
      have found := mark?_eq_markOf (fits offset List.mem_cons_self)
      have marked := marked_markedWithin stores none (set.markOf block offset)
      rw [List.map_cons]
      cases does : set.markedWithin none (set.markOf block offset) with
      | mk after result events =>
          rw [does] at marked
          cases marked with
          | refused =>
              rw [markedAll_of_error does]
              simp only [insertEach, insert, insertWithin, found, does, Except.map]
          | set storesAfter width =>
              have counted := toNat_card_fresh set numbers block offset
              rw [← width] at fits
              have later := inductionHypothesis storesAfter fun other mem =>
                fits other (List.mem_cons_of_mem offset mem)
              have marks : after.markOf block = set.markOf block := by
                funext other
                rw [markOf, markOf, width]
              rw [markedAll_of_ok does, ← marks, ← later]
              simp only [insertEach, insert, insertWithin, found, does, Except.map, counted, marks]

end TupleSet

/-! ## In ascending order -/

/-- Marks of packed numbers are ordered as the numbers are. -/
theorem Mark.precedes_ofPacked (first second : UInt64) :
    (Mark.ofPacked first).precedes (Mark.ofPacked second) = decide (first ≤ second) := by
  have keys : (ofPacked first).key = (ofPacked second).key ↔
      first.toNat / 64 = second.toNat / 64 := by
    rw [← UInt64.toNat_inj, toNat_key_ofPacked, toNat_key_ofPacked]
  have bits : (ofPacked first).bits ≤ (ofPacked second).bits ↔
      first.toNat % 64 ≤ second.toNat % 64 := by
    rw [UInt64.le_iff_toNat_le, toNat_bits_ofPacked, toNat_bits_ofPacked]
    exact Nat.pow_le_pow_iff_right (by decide)
  rw [Bool.eq_iff_iff, precedes, Bool.or_eq_true, Bool.and_eq_true, decide_eq_true_iff,
    decide_eq_true_iff, decide_eq_true_iff, beq_iff_eq, keys, bits, UInt64.lt_iff_toNat_lt,
    toNat_key_ofPacked, toNat_key_ofPacked, UInt64.le_iff_toNat_le]
  omega

namespace TupleSet

variable {set : TupleSet} {numbers : Finset Nat} {block : UInt32} {offsets ascending : List UInt16}

theorem precedes_markOf {first second : UInt16}
    (fits : (TupleId.mk block first).Fits set.offsetBits)
    (fitsToo : (TupleId.mk block second).Fits set.offsetBits) :
    (set.markOf block first).precedes (set.markOf block second) = decide (first ≤ second) := by
  rw [markOf, markOf, Mark.precedes_ofPacked, decide_eq_decide, UInt64.le_iff_toNat_le,
    TupleId.toNat_packed set.offsetBits_le ⟨block, first⟩,
    TupleId.toNat_packed set.offsetBits_le ⟨block, second⟩, TupleId.packed_eq fits,
    TupleId.packed_eq fitsToo, UInt16.le_iff_toNat_le]
  exact Nat.add_le_add_iff_left

/-- Sorting puts offsets in ascending order. -/
theorem pairwise_mergeSort_offsets (offsets : List UInt16) :
    (offsets.mergeSort fun first second => decide (first ≤ second)).Pairwise (· ≤ ·) := by
  have order : (offsets.mergeSort fun first second => decide (first ≤ second)).Pairwise
      fun first second => decide (first ≤ second) = true := by
    apply List.pairwise_mergeSort
    · intro first second third below above
      simp only [decide_eq_true_eq] at below above ⊢
      exact UInt16.le_trans below above
    · intro first second
      simp only [Bool.or_eq_true, decide_eq_true_eq]
      exact UInt16.le_total first second
  simpa only [decide_eq_true_eq] using order

/-- The marks of some offsets, sorted, are the marks of the sorted offsets. -/
theorem mergeSort_map_markOf
    (fits : ∀ offset ∈ offsets, (TupleId.mk block offset).Fits set.offsetBits)
    (same : ascending.Perm offsets) (ordered : ascending.Pairwise (· ≤ ·)) :
    (offsets.map (set.markOf block)).mergeSort Mark.precedes = ascending.map (set.markOf block) := by
  have sorted : offsets.mergeSort (fun first second => decide (first ≤ second)) = ascending :=
    List.Perm.eq_of_pairwise (fun _ _ _ _ below above => UInt16.le_antisymm below above)
      (pairwise_mergeSort_offsets offsets) ordered ((offsets.mergeSort_perm _).trans same.symm)
  rw [← sorted]
  refine (List.map_mergeSort fun first mem second memToo => ?_).symm
  exact (precedes_markOf (fits first mem) (fits second memToo)).symm

/-- What is added together is set word by word in ascending order. -/
theorem insertMany_of_fits
    (fits : ∀ offset ∈ offsets, (TupleId.mk block offset).Fits set.offsetBits)
    (same : ascending.Perm offsets) (ordered : ascending.Pairwise (· ≤ ·)) :
    set.insertMany block offsets =
      set.markedAll (Mark.joined (ascending.map (set.markOf block))) := by
  simp only [insertMany, insertManyWithin, marks_of_fits fits,
    mergeSort_map_markOf fits same ordered, markedAll]

theorem insertMany_eq_insertEach (stores : set.Stores numbers)
    (fits : ∀ offset ∈ offsets, (TupleId.mk block offset).Fits set.offsetBits)
    (same : ascending.Perm offsets) (ordered : ascending.Pairwise (· ≤ ·)) :
    set.insertMany block offsets = set.insertEach block ascending := by
  have fitsToo : ∀ offset ∈ ascending, (TupleId.mk block offset).Fits set.offsetBits :=
    fun offset mem => fits offset (same.subset mem)
  rw [insertMany_of_fits fits same ordered, markedAll_joined stores,
    insertEach_eq_markedAll stores fitsToo]

/-- Tuples of one block leave the same set, with the same answer, whether they are added together
or one by one in ascending order. -/
def Batched (set : TupleSet) : Prop :=
  forall (block : UInt32) (offsets ascending : List UInt16),
    (∀ offset ∈ offsets, (TupleId.mk block offset).Fits set.offsetBits) ->
    ascending.Perm offsets -> ascending.Pairwise (· ≤ ·) ->
      set.insertMany block offsets = set.insertEach block ascending

/-- Every set that calls lead to is batched, whatever its limit and the past of its tree. -/
theorem batched_after (limit? : Option Nat) (history : List AdaptiveRadix.Request)
    (offsetBits : Nat) {start : TupleSet}
    (made : ofTree ((Tree.empty limit?).after history) offsetBits = .ok start)
    (requests : List Request) : (start.after requests).Batched := by
  rcases exists_holds_after made requests with ⟨tuples, holds⟩
  intro block offsets ascending fits same ordered
  exact insertMany_eq_insertEach holds.stores fits same ordered

/-- Offsets out of order, one of them twice, that reach over two words of which one is there. -/
theorem batched_after_two_words :
    ∃ start, ofTree ((Tree.empty (some 100)).after []) 9 = .ok start ∧
      (start.after [.insert ⟨0, 7⟩ none]).insertMany 0 [70, 1, 70] =
        (start.after [.insert ⟨0, 7⟩ none]).insertEach 0 [1, 70, 70] := by
  have made : ofTree ((Tree.empty (some 100)).after []) 9 =
      .ok ⟨Tree.empty (some 100), 9, 0, by decide⟩ := rfl
  have batched := batched_after (some 100) [] 9 made [.insert ⟨0, 7⟩ none]
  refine ⟨_, made, ?_⟩
  have width : (after ⟨Tree.empty (some 100), 9, 0, by decide⟩ [.insert ⟨0, 7⟩ none]).offsetBits = 9 := by
    decide +kernel
  refine batched 0 [70, 1, 70] [1, 70, 70] ?_ (by decide) (by decide)
  simp [width, TupleId.Fits]

end TupleSet
end AdaptiveRadix
