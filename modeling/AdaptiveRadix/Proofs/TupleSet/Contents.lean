import AdaptiveRadix.Proofs.Tree.Retry
import AdaptiveRadix.Proofs.TupleSet.Packing
import AdaptiveRadix.TupleSet.Basic

namespace AdaptiveRadix

/-!
# The numbers of a set of tuples

`TupleSet.Stores` says which numbers a set of tuples has in its words, and that its count
is their number.  Setting the bits of marks adds their numbers, in one way whether a word
was there or not, and a refusal leaves the numbers as they were.  Removal takes one number
away, with its word when it was the last one there.
-/

namespace TupleSet

variable {set after : TupleSet} {key : Key} {mark : Mark} {number : Nat}
  {numbers others given : Finset Nat}

/-- The words of the set, each under its key, have these numbers; none of them is zero, and
the count is right. -/
structure Stores (set : TupleSet) (numbers : Finset Nat) : Prop where
  sound : set.tree.Sound
  words : forall key,
    (⟨key, set.word key⟩ : Mark).numbers = numbers.filter fun number => number / 64 = key.toNat
  nonzero : forall key, set.tree.get? key ≠ some 0
  counted : set.size = numbers.card

namespace Stores

theorem get?_eq_of_word_ne_zero (nonzero : set.word key ≠ 0) :
    set.tree.get? key = some (set.word key) := by
  rw [word] at nonzero ⊢
  cases found : set.tree.get? key with
  | none =>
      rw [found] at nonzero
      exact absurd rfl nonzero
  | some value => rfl

/-- A change of one word changes the numbers under its key, and no others. -/
private theorem change (stores : set.Stores numbers) (sound : after.tree.Sound)
    {result : Option UInt64} (changed : Tree.Changed set.tree after.tree key result)
    (nonzero : result ≠ some 0)
    (here : (⟨key, result.getD 0⟩ : Mark).numbers =
      others.filter fun number => number / 64 = key.toNat)
    (elsewhere : forall number, number / 64 ≠ key.toNat -> (number ∈ others ↔ number ∈ numbers))
    (counted : after.size = others.card) : after.Stores others where
  sound := sound
  counted := counted
  nonzero := by
    intro other
    rw [changed other]
    split
    · exact nonzero
    · exact stores.nonzero other
  words := by
    refine Mark.Spells.change stores.words (fun other => ?_) here elsewhere
    rw [word, changed other]
    split <;> rfl

/-- A mark of one number shares a bit with its word when the number is stored. -/
theorem word_and_eq_zero_iff (stores : set.Stores numbers) (single : mark.numbers = {number}) :
    set.word mark.key &&& mark.bits = 0 ↔ number ∉ numbers :=
  Mark.Spells.and_eq_zero_iff stores.words single

end Stores

/-! ## Setting bits -/

/-- A mark that is not set because its key is not in the tree and the tree refuses it.  The set
is then over the tree that the refusal leaves. -/
structure Unmarked (set after : TupleSet) (allowance : Allowance) (mark : Mark)
    (shortage : OutOfMemory) : Prop where
  missed : set.tree.get? mark.key = none
  failed : (set.tree.insertWithin allowance mark.key (set.word mark.key ||| mark.bits)).result =
    .error shortage
  cause : set.tree.Refuses allowance mark.key (set.word mark.key ||| mark.bits) shortage
  left : after = { set with
    tree := (set.tree.insertWithin allowance mark.key (set.word mark.key ||| mark.bits)).state }

/-- What becomes of a mark that is set. -/
inductive Marked (set : TupleSet) (numbers : Finset Nat) (allowance : Allowance) (mark : Mark) :
    Outcome TupleSet (Except InsertError Nat) -> Prop
  | set {after : TupleSet} {events : List Event} (stores : after.Stores (numbers ∪ mark.numbers))
      (width : after.offsetBits = set.offsetBits) :
      Marked set numbers allowance mark ⟨after, .ok (mark.numbers \ numbers).card, events⟩
  /-- Some of its numbers are new, and there is no room for them. -/
  | refused {after : TupleSet} {events : List Event} {shortage : OutOfMemory}
      (stores : after.Stores numbers) (width : after.offsetBits = set.offsetBits)
      (new : ¬ mark.numbers ⊆ numbers) (same : after.tree.toList = set.tree.toList)
      (unmarked : set.Unmarked after allowance mark shortage) :
      Marked set numbers allowance mark ⟨after, .error (.outOfMemory shortage), events⟩

/-- The old bits and the new ones are the same word when nothing is new. -/
theorem word_or_eq_iff (stores : set.Stores numbers) (mark : Mark) :
    set.word mark.key ||| mark.bits = set.word mark.key ↔ mark.numbers ⊆ numbers := by
  rw [Mark.bits_eq_iff, Mark.numbers_or, Finset.union_eq_left, stores.words]
  constructor
  · exact fun inside => inside.trans (Finset.filter_subset _ numbers)
  · exact fun inside number listed =>
      Finset.mem_filter.mpr ⟨inside listed, Mark.key_of_mem listed⟩

theorem card_fresh (stores : set.Stores numbers) (mark : Mark) :
    ((set.word mark.key ||| mark.bits) ^^^ set.word mark.key).toBitVec.cpop.toNat =
      (mark.numbers \ numbers).card := by
  have counted := Mark.card_numbers
    ⟨mark.key, (set.word mark.key ||| mark.bits) ^^^ set.word mark.key⟩
  rw [← counted, Mark.numbers_xor_or, stores.words]
  congr 1
  ext number
  simp only [Finset.mem_sdiff, Finset.mem_filter, and_congr_right_iff]
  intro listed
  simp only [Mark.key_of_mem listed, and_true]

theorem marked_markedWithin (stores : set.Stores numbers) (allowance : Allowance) (mark : Mark) :
    Marked set numbers allowance mark (set.markedWithin allowance mark) := by
  have fresh := card_fresh stores mark
  have here := Mark.Spells.or stores.words mark
  rw [markedWithin]
  by_cases old : set.word mark.key ||| mark.bits = set.word mark.key
  · have inside := (word_or_eq_iff stores mark).mp old
    have together : numbers ∪ mark.numbers = numbers := Finset.union_eq_left.mpr inside
    have none : (mark.numbers \ numbers).card = 0 := by
      rw [Finset.sdiff_eq_empty_iff_subset.mpr inside, Finset.card_empty]
    rw [if_pos old, ← none]
    exact .set (together.symm ▸ stores) rfl
  · have new : ¬ mark.numbers ⊆ numbers := fun inside => old ((word_or_eq_iff stores mark).mpr inside)
    have nonzero : set.word mark.key ||| mark.bits ≠ 0 := by
      rcases Finset.not_subset.mp new with ⟨number, listed, _⟩
      exact Mark.Spells.or_ne_zero stores.words listed
    have sound := Tree.sound_insertWithin stores.sound allowance mark.key
      (set.word mark.key ||| mark.bits)
    rw [if_neg old]
    rcases Tree.bound_or_refused stores.sound allowance mark.key (set.word mark.key ||| mark.bits) with
      ⟨present, result, changed⟩ | ⟨shortage, result, looked, same⟩
    · simp only [result, fresh]
      refine .set (stores.change sound changed (fun zero => nonzero (Option.some.inj zero)) here
        (fun _ away => Mark.mem_union_elsewhere away) ?_) rfl
      rw [stores.counted, Nat.add_comm, Finset.card_sdiff_add_card, Finset.union_comm]
    · simp only [result]
      have cause := (Tree.error_iff_refuses set.tree allowance mark.key _ shortage).mp result
      refine .refused ⟨sound, ?_, ?_, stores.counted⟩ rfl new same ⟨cause.missed, result, cause, rfl⟩
      · intro key
        rw [word, looked]
        exact stores.words key
      · intro key
        rw [looked]
        exact stores.nonzero key

/-- An addition of marks in turn that stops: the marks before one that is not set are set. -/
structure StopsAt (set after : TupleSet) (allowed : Key -> Allowance) (marks : List Mark)
    (middle : TupleSet) (mark : Mark) (shortage : OutOfMemory) : Prop where
  reached : ∃ first rest fresh events, marks = first ++ mark :: rest ∧
    set.markedAllWithin allowed first = ⟨middle, .ok fresh, events⟩
  unmarked : middle.Unmarked after (allowed mark.key) mark shortage

/-- The mark where an addition stops is one of those that were given. -/
theorem StopsAt.numbers_subset {allowed : Key -> Allowance} {marks : List Mark} {middle : TupleSet}
    {shortage : OutOfMemory} (stops : set.StopsAt after allowed marks middle mark shortage) :
    mark.numbers ⊆ Mark.allNumbers marks := by
  rcases stops.reached with ⟨first, rest, fresh, events, split, _⟩
  intro number listed
  rw [split, Mark.mem_allNumbers]
  exact ⟨mark, List.mem_append_right first List.mem_cons_self, listed⟩

/-- What becomes of marks that are set in turn. -/
inductive Added (set : TupleSet) (numbers given : Finset Nat) (allowed : Key -> Allowance)
    (marks : List Mark) : Outcome TupleSet (Except InsertError Nat) -> Prop
  | all {after : TupleSet} {events : List Event} (stores : after.Stores (numbers ∪ given))
      (width : after.offsetBits = set.offsetBits) :
      Added set numbers given allowed marks ⟨after, .ok (given \ numbers).card, events⟩
  /-- There was room for some of their numbers only, up to a mark that has others. -/
  | some {after middle : TupleSet} {events : List Event} {mark : Mark} {shortage : OutOfMemory}
      {kept : Finset Nat} (stores : after.Stores kept) (width : after.offsetBits = set.offsetBits)
      (least : numbers ⊆ kept) (most : kept ⊆ numbers ∪ given) (before : middle.Stores kept)
      (new : ¬ mark.numbers ⊆ kept) (stops : set.StopsAt after allowed marks middle mark shortage) :
      Added set numbers given allowed marks ⟨after, .error (.outOfMemory shortage), events⟩

/-- New numbers of two parts: those of the first, and those of the second that neither were
there nor came with the first. -/
theorem card_new_union (numbers first rest : Finset Nat) :
    ((first ∪ rest) \ numbers).card = (first \ numbers).card + (rest \ (numbers ∪ first)).card := by
  have parts : (first ∪ rest) \ numbers = first \ numbers ∪ rest \ (numbers ∪ first) := by
    ext number
    simp only [Finset.mem_sdiff, Finset.mem_union]
    tauto
  rw [parts]
  apply Finset.card_union_of_disjoint
  apply Finset.disjoint_left.mpr
  intro number inFirst inRest
  exact (Finset.mem_sdiff.mp inRest).2 (Finset.mem_union_right _ (Finset.mem_sdiff.mp inFirst).1)

/-- A mark that is set before others stop is one more of those that are set. -/
private theorem StopsAt.cons {middle last : TupleSet} {stop : Mark} {allowed : Key -> Allowance}
    {fresh : Nat} {events : List Event} {marks : List Mark} {shortage : OutOfMemory}
    (does : set.markedWithin (allowed mark.key) mark = ⟨after, .ok fresh, events⟩)
    (stops : after.StopsAt last allowed marks middle stop shortage) :
    set.StopsAt last allowed (mark :: marks) middle stop shortage := by
  rcases stops with ⟨⟨first, rest, count, later, split, reached⟩, unmarked⟩
  refine ⟨⟨mark :: first, rest, fresh + count, events ++ later, ?_, ?_⟩, unmarked⟩
  · rw [split, List.cons_append]
  · simp only [markedAllWithin, does, reached, Except.map]

/-- Marks that are set in turn add their numbers, and each new number is counted once. -/
theorem added_markedAllWithin (allowed : Key -> Allowance) (marks : List Mark)
    (stores : set.Stores numbers) :
    Added set numbers (Mark.allNumbers marks) allowed marks (set.markedAllWithin allowed marks) := by
  induction marks generalizing set numbers with
  | nil =>
      have none : (Mark.allNumbers [] \ numbers).card = 0 := by
        rw [Mark.allNumbers, List.foldr_nil, Finset.empty_sdiff, Finset.card_empty]
      have together : numbers ∪ Mark.allNumbers [] = numbers := Finset.union_empty numbers
      rw [markedAllWithin, ← none]
      exact .all (together.symm ▸ stores) rfl
  | cons mark rest inductionHypothesis =>
      have first := marked_markedWithin stores (allowed mark.key) mark
      rw [markedAllWithin, Mark.allNumbers_cons]
      cases does : set.markedWithin (allowed mark.key) mark with
      | mk after result events =>
          rw [does] at first
          cases first with
          | refused storesAfter width new same unmarked =>
              exact .some storesAfter width (Finset.Subset.refl _) Finset.subset_union_left stores
                new ⟨⟨[], rest, 0, [], rfl, rfl⟩, unmarked⟩
          | set storesAfter width =>
              have others := inductionHypothesis storesAfter
              simp only
              generalize after.markedAllWithin allowed rest = outcome at others ⊢
              cases others with
              | all storesLast widthLast =>
                  rw [Finset.union_assoc] at storesLast
                  simp only [Except.map, ← card_new_union]
                  exact .all storesLast (widthLast.trans width)
              | some storesLast widthLast least most before new stops =>
                  rw [Finset.union_assoc] at most
                  exact .some storesLast (widthLast.trans width)
                    (Finset.subset_union_left.trans least) most before new (stops.cons does)

/-! ## Clearing a bit -/

variable {tuple : TupleId}

/-- A stored number has a word, which is in the tree. -/
private theorem word_found (stores : set.Stores numbers) (single : mark.numbers = {number})
    (stored : number ∈ numbers) : set.tree.get? mark.key = some (set.word mark.key) := by
  apply Stores.get?_eq_of_word_ne_zero
  intro zero
  refine (stores.word_and_eq_zero_iff single).mp ?_ stored
  rw [zero, UInt64.zero_and]

private theorem under_key (single : mark.numbers = {number}) : number / 64 = mark.key.toNat :=
  Mark.key_of_mem (single ▸ Finset.mem_singleton_self number)

/-- Taking one number away changes nothing under other keys. -/
private theorem mem_erase_elsewhere (single : mark.numbers = {number}) (other : Nat)
    (away : other / 64 ≠ mark.key.toNat) : other ∈ numbers.erase number ↔ other ∈ numbers := by
  have different : other ≠ number := fun same => away (same ▸ under_key single)
  simp only [Finset.mem_erase, different, ne_eq, not_false_eq_true, true_and]

/-- The last number under a key goes with its word. -/
private theorem erase_last (stores : set.Stores numbers) (single : mark.numbers = {number})
    (stored : number ∈ numbers) (last : set.word mark.key = mark.bits) :
    Stores { set with tree := (set.tree.erase mark.key).state, size := set.size - 1 }
        (numbers.erase number) ∧
      Pools.GivenBack set.tree.pools (set.tree.erase mark.key).state.pools := by
  have found := word_found stores single stored
  rcases Tree.erase_keeps stores.sound found with ⟨sound, changed⟩
  have words := stores.words mark.key
  rw [last] at words
  refine ⟨stores.change sound changed (by simp) ?_ (mem_erase_elsewhere single) ?_, ?_⟩
  · rw [Option.getD_none, Mark.numbers_zero]
    refine (Finset.filter_eq_empty_iff.mpr fun other listed under => ?_).symm
    rcases Finset.mem_erase.mp listed with ⟨different, member⟩
    have alone : other ∈ mark.numbers := words.symm ▸ Finset.mem_filter.mpr ⟨member, under⟩
    exact different (Finset.mem_singleton.mp (single ▸ alone))
  · rw [Finset.card_erase_of_mem stored, stores.counted]
  · exact Tree.givenBack_erase set.tree mark.key

/-- A number that is not the last under its key goes from its word. -/
private theorem update_word (stores : set.Stores numbers) (single : mark.numbers = {number})
    (stored : number ∈ numbers) (more : set.word mark.key ≠ mark.bits) :
    Stores { set with
          tree := (set.tree.update mark.key (set.word mark.key &&& ~~~mark.bits)).1
          size := set.size - 1 }
        (numbers.erase number) ∧
      Pools.GivenBack set.tree.pools
        (set.tree.update mark.key (set.word mark.key &&& ~~~mark.bits)).1.pools := by
  have found := word_found stores single stored
  have rest : (⟨mark.key, set.word mark.key &&& ~~~mark.bits⟩ : Mark).numbers =
      (numbers.erase number).filter fun other => other / 64 = mark.key.toNat := by
    rw [Mark.numbers_and_not, stores.words, single, Finset.sdiff_singleton_eq_erase,
      Finset.filter_erase]
  have nonzero : some (set.word mark.key &&& ~~~mark.bits) ≠ some 0 := by
    intro zero
    have none : (⟨mark.key, set.word mark.key⟩ : Mark).numbers \ mark.numbers = ∅ := by
      rw [← Mark.numbers_and_not, Option.some.inj zero, Mark.numbers_zero]
    have here : number ∈ (⟨mark.key, set.word mark.key⟩ : Mark).numbers := by
      rw [stores.words]
      exact Finset.mem_filter.mpr ⟨stored, under_key single⟩
    have same : (⟨mark.key, set.word mark.key⟩ : Mark).numbers = mark.numbers := by
      apply Finset.Subset.antisymm (Finset.sdiff_eq_empty_iff_subset.mp none)
      rw [single]
      exact Finset.singleton_subset_iff.mpr here
    exact more (Mark.bits_eq_iff.mpr same)
  have updated : (set.tree.update mark.key (set.word mark.key &&& ~~~mark.bits)).1 =
      set.tree.replace mark.key (set.word mark.key &&& ~~~mark.bits) := by
    rw [Tree.update, found]
  rcases Tree.replace_keeps stores.sound found (set.word mark.key &&& ~~~mark.bits) with
    ⟨sound, changed⟩
  rw [updated]
  refine ⟨stores.change sound changed nonzero rest (mem_erase_elsewhere single) ?_, ?_⟩
  · rw [Finset.card_erase_of_mem stored, stores.counted]
  · exact Pools.givenBack_of_released []

/-- What becomes of a number that is taken away. -/
structure Erased (set : TupleSet) (numbers : Finset Nat) (number : Nat)
    (outcome : Outcome TupleSet Bool) : Prop where
  result : outcome.result = decide (number ∈ numbers)
  stores : outcome.state.Stores (numbers.erase number)
  width : outcome.state.offsetBits = set.offsetBits
  givenBack : Pools.GivenBack set.tree.pools outcome.state.tree.pools

theorem erased_erase (stores : set.Stores numbers) (marked : tuple.mark? set.offsetBits = some mark)
    (single : mark.numbers = {number}) : Erased set numbers number (set.erase tuple) := by
  have shared := stores.word_and_eq_zero_iff single
  rw [erase, marked]
  by_cases stored : number ∈ numbers
  · have bit : set.word mark.key &&& mark.bits ≠ 0 := fun zero => shared.mp zero stored
    simp only [if_neg bit]
    by_cases last : set.word mark.key = mark.bits
    · rcases erase_last stores single stored last with ⟨rest, released⟩
      rw [if_pos last]
      exact ⟨(decide_eq_true stored).symm, rest, rfl, released⟩
    · rcases update_word stores single stored last with ⟨rest, released⟩
      rw [if_neg last]
      exact ⟨(decide_eq_true stored).symm, rest, rfl, released⟩
  · simp only [if_pos (shared.mpr stored)]
    exact ⟨(decide_eq_false stored).symm, (Finset.erase_eq_of_notMem stored).symm ▸ stores, rfl,
      Pools.givenBack_of_released []⟩

theorem contains_eq (stores : set.Stores numbers) (marked : tuple.mark? set.offsetBits = some mark)
    (single : mark.numbers = {number}) : set.contains tuple = decide (number ∈ numbers) := by
  have shared := stores.word_and_eq_zero_iff single
  rw [contains, marked, Bool.eq_iff_iff, decide_eq_true_iff]
  simp only [bne_iff_ne, ne_eq, shared, not_not]

end TupleSet
end AdaptiveRadix
