import AdaptiveRadix.Proofs.Checked.Request
import AdaptiveRadix.Proofs.TupleSet.Refinement

namespace AdaptiveRadix

/-!
# Checked sets of tuples

A set of tuples shifts the block of a tuple by the width of an offset and a bit by its
place in a word, and it counts its tuples.  Everything else it leaves to its tree, to
which it does nothing but make requests; so the tree stays solvent, and names that
suffice in the end sufficed all along.
-/

open Pools

namespace TupleId

/-- The block and the bit are shifted by less than a word. -/
def checkedMark? (tuple : TupleId) (offsetBits : Nat) : Checked (Option Mark) := do
  ensure (offsetBits < 64) .shiftTooFar
  if tuple.offset.toNat < 1 <<< offsetBits then do
    let packed := tuple.block.toUInt64 <<< offsetBits.toUInt64 ||| tuple.offset.toUInt64
    ensure ((packed &&& 63).toNat < 64) .shiftTooFar
    return some (Mark.ofPacked packed)
  else return none

theorem checkedMark?_of_narrow {offsetBits : Nat} (narrow : offsetBits ≤ 16) (tuple : TupleId) :
    tuple.checkedMark? offsetBits = .ok (tuple.mark? offsetBits) := by
  have inside : forall packed : UInt64, (packed &&& 63).toNat < 64 := by
    intro packed
    rw [UInt64.toNat_and]
    exact Nat.lt_succ_of_le Nat.and_le_right
  rw [checkedMark?, ensure_bind (narrow.trans_lt (by decide)), mark?]
  split
  · exact ensure_bind (inside _) .shiftTooFar _
  · rfl

end TupleId

namespace TupleSet

def checkedWord (set : TupleSet) (key : Key) : Checked UInt64 := do
  let found ← set.tree.checkedGet? key
  return found.getD 0

def checkedContains (set : TupleSet) (tuple : TupleId) : Checked Bool := do
  match ← tuple.checkedMark? set.offsetBits with
  | some mark => do
      let word ← set.checkedWord mark.key
      return word &&& mark.bits != 0
  | none => return false

def checkedMarkedWithin (set : TupleSet) (allowance : Allowance) (mark : Mark) :
    Checked (Outcome TupleSet (Except InsertError Nat)) := do
  let old ← set.checkedWord mark.key
  let new := old ||| mark.bits
  if new = old then return ⟨set, .ok 0, []⟩
  else do
    let bound ← set.tree.checkedInsertWithin allowance mark.key new
    match bound.result with
    | .error shortage =>
        return ⟨{ set with tree := bound.state }, .error (.outOfMemory shortage), bound.events⟩
    | .ok _ => do
        let fresh := (new ^^^ old).toBitVec.cpop.toNat
        ensure (set.size + fresh < 2 ^ 64) .countOverflow
        return ⟨{ set with tree := bound.state, size := set.size + fresh }, .ok fresh, bound.events⟩

/-- The new tuples are counted as they are added. -/
def checkedMarkedAllWithin (set : TupleSet) (allowed : Key -> Allowance) (added : Nat) :
    List Mark -> Checked (Outcome TupleSet (Except InsertError Nat))
  | [] => return ⟨set, .ok added, []⟩
  | mark :: rest => do
      let first ← set.checkedMarkedWithin (allowed mark.key) mark
      match first.result with
      | .error error => return ⟨first.state, .error error, first.events⟩
      | .ok fresh => do
          ensure (added + fresh < 2 ^ 64) .countOverflow
          let others ← first.state.checkedMarkedAllWithin allowed (added + fresh) rest
          return ⟨others.state, others.result, first.events ++ others.events⟩

def checkedMarks (set : TupleSet) (block : UInt32) :
    List UInt16 -> Checked (Except InsertError (List Mark))
  | [] => return .ok []
  | offset :: rest => do
      match ← TupleId.checkedMark? ⟨block, offset⟩ set.offsetBits with
      | some mark => do
          let others ← set.checkedMarks block rest
          return others.map (mark :: ·)
      | none => return .error (.offsetOutOfRange offset set.offsetBits)

def checkedInsertWithin (set : TupleSet) (allowance : Allowance) (tuple : TupleId) :
    Checked (Outcome TupleSet (Except InsertError Bool)) := do
  match ← tuple.checkedMark? set.offsetBits with
  | none => return ⟨set, .error (.offsetOutOfRange tuple.offset set.offsetBits), []⟩
  | some mark => do
      let added ← set.checkedMarkedWithin allowance mark
      return ⟨added.state, added.result.map (· != 0), added.events⟩

def checkedInsertManyWithin (set : TupleSet) (allowed : Key -> Allowance) (block : UInt32)
    (offsets : List UInt16) : Checked (Outcome TupleSet (Except InsertError Nat)) := do
  match ← set.checkedMarks block offsets with
  | .error error => return ⟨set, .error error, []⟩
  | .ok marks =>
      set.checkedMarkedAllWithin allowed 0 (Mark.joined (marks.mergeSort Mark.precedes))

def checkedErase (set : TupleSet) (tuple : TupleId) : Checked (Outcome TupleSet Bool) := do
  match ← tuple.checkedMark? set.offsetBits with
  | none => return ⟨set, false, []⟩
  | some mark => do
      let old ← set.checkedWord mark.key
      if old &&& mark.bits = 0 then return ⟨set, false, []⟩
      else do
        ensure (0 < set.size) .countUnderflow
        if old = mark.bits then do
          let rest ← set.tree.checkedErase mark.key
          return ⟨{ set with tree := rest.state, size := set.size - 1 }, true, rest.events⟩
        else do
          let rest ← set.tree.checkedUpdate mark.key (old &&& ~~~mark.bits)
          return ⟨{ set with tree := rest.1, size := set.size - 1 }, true, []⟩

def checkedPerform (set : TupleSet) : Request -> Checked (TupleSet × Answer)
  | .insert tuple allowance => do
      let outcome ← set.checkedInsertWithin allowance tuple
      return (outcome.state, .inserted outcome.result)
  | .insertMany block offsets allowed => do
      let outcome ← set.checkedInsertManyWithin allowed block offsets
      return (outcome.state, .added outcome.result)
  | .contains tuple => do
      let stored ← set.checkedContains tuple
      return (set, .flag stored)
  | .erase tuple => do
      let outcome ← set.checkedErase tuple
      return (outcome.state, .flag outcome.result)

end TupleSet

/-! ## What a set does to its tree -/

namespace TupleSet

variable {set : TupleSet} {numbers : Finset Nat}

theorem leads_markedWithin (set : TupleSet) (allowance : Allowance) (mark : Mark) :
    Tree.Leads set.tree (set.markedWithin allowance mark).state.tree := by
  rw [markedWithin]
  split
  · exact .refl set.tree
  · have single := Tree.Leads.single set.tree
      (.insert mark.key (set.word mark.key ||| mark.bits) allowance)
    dsimp only
    split <;> exact single

theorem leads_markedAllWithin (set : TupleSet) (allowed : Key -> Allowance) (marks : List Mark) :
    Tree.Leads set.tree (set.markedAllWithin allowed marks).state.tree := by
  induction marks generalizing set with
  | nil => exact .refl set.tree
  | cons mark rest inductionHypothesis =>
      have first := set.leads_markedWithin (allowed mark.key) mark
      rw [markedAllWithin]
      split
      · exact first
      · exact first.trans (inductionHypothesis _)

theorem leads_erase (set : TupleSet) (tuple : TupleId) :
    Tree.Leads set.tree (set.erase tuple).state.tree := by
  rw [erase]
  split
  · exact .refl set.tree
  · rename_i mark _
    dsimp only
    split
    · exact .refl set.tree
    · split
      · exact .single set.tree (.erase mark.key)
      · exact .single set.tree (.update mark.key (set.word mark.key &&& ~~~mark.bits))

theorem leads_perform (set : TupleSet) (request : Request) :
    Tree.Leads set.tree (set.perform request).1.tree := by
  cases request with
  | insert tuple allowance =>
      rw [perform, insertWithin]
      split
      · exact .refl set.tree
      · exact set.leads_markedWithin allowance _
  | insertMany block offsets allowed =>
      rw [perform, insertManyWithin]
      split
      · exact .refl set.tree
      · exact set.leads_markedAllWithin allowed _
  | contains tuple => exact .refl set.tree
  | erase tuple => exact set.leads_erase tuple

/-! ## The number of tuples -/

/-- Numbers into which tuples are packed. -/
def Packable (numbers : Finset Nat) : Prop :=
  ∀ number ∈ numbers, number < 2 ^ 48

theorem Packable.card_le (packable : Packable numbers) : numbers.card ≤ 2 ^ 48 := by
  have inside : numbers ⊆ Finset.range (2 ^ 48) :=
    fun number listed => Finset.mem_range.mpr (packable number listed)
  exact (Finset.card_le_card inside).trans_eq (Finset.card_range _)

theorem Packable.union {others : Finset Nat} (packable : Packable numbers)
    (packableToo : Packable others) : Packable (numbers ∪ others) := by
  intro number listed
  rcases Finset.mem_union.mp listed with old | new
  · exact packable number old
  · exact packableToo number new

theorem Packable.mono {others : Finset Nat} (packable : Packable numbers)
    (fewer : others ⊆ numbers) : Packable others :=
  fun number listed => packable number (fewer listed)

theorem packable_packedAll {tuples : Finset TupleId} {width : Nat} (narrow : width ≤ 16)
    (fits : ∀ tuple ∈ tuples, tuple.Fits width) : Packable (packedAll tuples width) := by
  intro number listed
  rcases Finset.mem_image.mp listed with ⟨tuple, member, rfl⟩
  have offset := fits tuple member
  have block := tuple.block.toNat_lt
  rw [TupleId.Fits] at offset
  calc tuple.packed width
      = 2 ^ width * tuple.block.toNat + tuple.offset.toNat := TupleId.packed_eq (fits tuple member)
    _ < 2 ^ width * (tuple.block.toNat + 1) := by rw [Nat.mul_succ]; omega
    _ ≤ 2 ^ 16 * 2 ^ 32 :=
        Nat.mul_le_mul (Nat.pow_le_pow_right (by decide) narrow) (Nat.succ_le_of_lt block)
    _ = 2 ^ 48 := by decide

theorem Stores.size_le (stores : set.Stores numbers) (packable : Packable numbers) :
    set.size ≤ 2 ^ 48 :=
  stores.counted.trans_le packable.card_le

/-! ## Single operations -/

theorem checkedWord_of_sound (sound : set.tree.Sound) (key : Key) :
    set.checkedWord key = .ok (set.word key) := by
  rw [checkedWord, Tree.checkedGet?_of_sound sound, ok_bind]
  rfl

theorem checkedContains_of_sound (sound : set.tree.Sound) (tuple : TupleId) :
    set.checkedContains tuple = .ok (set.contains tuple) := by
  rw [checkedContains, TupleId.checkedMark?_of_narrow set.offsetBits_le, ok_bind, contains]
  cases tuple.mark? set.offsetBits with
  | none => rfl
  | some mark =>
      simp only [checkedWord_of_sound sound, ok_bind]
      rfl

theorem size_markedWithin_le (stores : set.Stores numbers) (allowance : Allowance) {mark : Mark}
    (packable : Packable (numbers ∪ mark.numbers)) :
    (set.markedWithin allowance mark).state.size ≤ 2 ^ 48 := by
  have marked := marked_markedWithin stores allowance mark
  generalize set.markedWithin allowance mark = outcome at marked ⊢
  cases marked with
  | set storesAfter => exact storesAfter.size_le packable
  | refused storesAfter => exact storesAfter.size_le (packable.mono Finset.subset_union_left)

theorem checkedMarkedWithin_of_stores (solvent : set.tree.Solvent) (stores : set.Stores numbers)
    (allowance : Allowance) {mark : Mark} (packable : Packable (numbers ∪ mark.numbers))
    (named : (set.markedWithin allowance mark).state.tree.pools.Named) :
    set.checkedMarkedWithin allowance mark = .ok (set.markedWithin allowance mark) := by
  have most := size_markedWithin_le stores allowance packable
  rw [checkedMarkedWithin, checkedWord_of_sound solvent.sound, ok_bind]
  rw [markedWithin] at named most ⊢
  by_cases old : set.word mark.key ||| mark.bits = set.word mark.key
  · simp only [if_pos old]
    rfl
  · simp only [if_neg old] at named most ⊢
    have inserted := Tree.checkedInsertWithin_of_solvent solvent allowance mark.key
      (set.word mark.key ||| mark.bits)
    cases result : (set.tree.insertWithin allowance mark.key
        (set.word mark.key ||| mark.bits)).result with
    | error shortage =>
        rw [result] at named
        simp only [inserted named, ok_bind, result]
        rfl
    | ok present =>
        rw [result] at named most
        simp only [inserted named, ok_bind, result]
        exact ensure_bind (most.trans_lt (by decide)) .countOverflow _

/-- Marks that are set in turn add up to the tuples that are new. -/
theorem checkedMarkedAllWithin_of_stores (solvent : set.tree.Solvent) (stores : set.Stores numbers)
    (allowed : Key -> Allowance) {marks : List Mark}
    (packable : Packable (numbers ∪ Mark.allNumbers marks))
    (named : (set.markedAllWithin allowed marks).state.tree.pools.Named) {added : Nat}
    (counted : added ≤ set.size) :
    set.checkedMarkedAllWithin allowed added marks =
      .ok { set.markedAllWithin allowed marks with
        result := (set.markedAllWithin allowed marks).result.map (added + ·) } := by
  induction marks generalizing set numbers added with
  | nil => rfl
  | cons mark rest inductionHypothesis =>
      rw [Mark.allNumbers_cons, ← Finset.union_assoc] at packable
      have leads := set.leads_markedWithin (allowed mark.key) mark
      have marked := marked_markedWithin stores (allowed mark.key) mark
      have first := checkedMarkedWithin_of_stores solvent stores (allowed mark.key)
        (packable.mono Finset.subset_union_left)
      rw [checkedMarkedAllWithin]
      rw [markedAllWithin] at named ⊢
      generalize set.markedWithin (allowed mark.key) mark = outcome at named leads marked first ⊢
      cases marked with
      | refused storesAfter =>
          rw [first named, ok_bind]
          rfl
      | @set after events storesAfter width =>
          have before := (after.leads_markedAllWithin allowed rest).named named
          have total : after.size = set.size + (mark.numbers \ numbers).card := by
            rw [storesAfter.counted, stores.counted, Nat.add_comm, Finset.card_sdiff_add_card,
              Finset.union_comm]
          have more : added + (mark.numbers \ numbers).card ≤ after.size := by omega
          have most := storesAfter.size_le (packable.mono Finset.subset_union_left)
          have few : added + (mark.numbers \ numbers).card < 2 ^ 64 := by omega
          have others := inductionHypothesis (leads.solvent solvent) storesAfter packable named more
          simp only [first before, ok_bind, ensure_bind few, others]
          cases (after.markedAllWithin allowed rest).result with
          | error error => rfl
          | ok fresh =>
              simp only [Except.map, Nat.add_assoc]
              rfl

theorem checkedMarks_eq (set : TupleSet) (block : UInt32) (offsets : List UInt16) :
    set.checkedMarks block offsets = .ok (set.marks block offsets) := by
  induction offsets with
  | nil => rfl
  | cons offset rest inductionHypothesis =>
      rw [checkedMarks, TupleId.checkedMark?_of_narrow set.offsetBits_le, ok_bind, marks]
      cases TupleId.mark? ⟨block, offset⟩ set.offsetBits with
      | none => rfl
      | some mark =>
          simp only [inductionHypothesis, ok_bind]
          rfl

variable {width : Nat} {tuples : Finset TupleId}

theorem checkedInsertWithin_of_holds (solvent : set.tree.Solvent) (holds : set.Holds width tuples)
    (allowance : Allowance) (tuple : TupleId)
    (named : (set.insertWithin allowance tuple).state.tree.pools.Named) :
    set.checkedInsertWithin allowance tuple = .ok (set.insertWithin allowance tuple) := by
  rw [checkedInsertWithin, TupleId.checkedMark?_of_narrow set.offsetBits_le, ok_bind]
  rw [insertWithin] at named ⊢
  by_cases fits : tuple.Fits set.offsetBits
  · rcases TupleId.mark?_of_fits set.offsetBits_le fits with ⟨mark, found, single⟩
    have packable : Packable (packedAll tuples width ∪ mark.numbers) := by
      refine (packable_packedAll holds.narrow holds.fits).union ?_
      rw [single, ← packedAll_singleton]
      exact packable_packedAll set.offsetBits_le fun other member =>
        Finset.mem_singleton.mp member ▸ fits
    rw [found] at named
    have marked := checkedMarkedWithin_of_stores solvent holds.stores allowance packable named
    simp only [found, marked, ok_bind]
    rfl
  · simp only [TupleId.mark?_of_not_fits fits]
    rfl

theorem checkedInsertManyWithin_of_holds (solvent : set.tree.Solvent)
    (holds : set.Holds width tuples) (allowed : Key -> Allowance) (block : UInt32)
    (offsets : List UInt16)
    (named : (set.insertManyWithin allowed block offsets).state.tree.pools.Named) :
    set.checkedInsertManyWithin allowed block offsets =
      .ok (set.insertManyWithin allowed block offsets) := by
  rw [checkedInsertManyWithin, checkedMarks_eq, ok_bind]
  rw [insertManyWithin] at named ⊢
  rcases Holds.marks_cases set block offsets with
    ⟨marks, found, fits, numbers⟩ | ⟨_, offset, _, _, _, _, failed⟩
  · have packable : Packable (packedAll tuples width ∪
        Mark.allNumbers (Mark.joined (marks.mergeSort Mark.precedes))) := by
      refine (packable_packedAll holds.narrow holds.fits).union ?_
      rw [Mark.allNumbers_joined, Mark.allNumbers_perm (marks.mergeSort_perm _), numbers]
      exact packable_packedAll set.offsetBits_le fits
    rw [found] at named
    have marked := checkedMarkedAllWithin_of_stores solvent holds.stores allowed packable named
      (Nat.zero_le _)
    simp only [found, marked]
    generalize set.markedAllWithin allowed (Mark.joined (marks.mergeSort Mark.precedes)) = outcome
    rcases outcome with ⟨after, _ | fresh, events⟩
    · rfl
    · simp only [Except.map, Nat.zero_add]
  · simp only [failed]
    rfl

theorem checkedErase_of_stores (sound : set.tree.Sound) (stores : set.Stores numbers)
    (tuple : TupleId) : set.checkedErase tuple = .ok (set.erase tuple) := by
  rw [checkedErase, TupleId.checkedMark?_of_narrow set.offsetBits_le, ok_bind, erase]
  cases tuple.mark? set.offsetBits with
  | none => rfl
  | some mark =>
      simp only [checkedWord_of_sound sound, ok_bind]
      by_cases missing : set.word mark.key &&& mark.bits = 0
      · simp only [if_pos missing]
        rfl
      · have shared : numbers ∩ mark.numbers ≠ ∅ := by
          rw [← Mark.Spells.and stores.words, ← Mark.numbers_zero]
          exact fun same => missing (Mark.bits_eq_iff.mpr same)
        have positive : 0 < set.size := by
          rw [stores.counted]
          exact Finset.card_pos.mpr
            ((Finset.nonempty_iff_ne_empty.mpr shared).mono Finset.inter_subset_left)
        simp only [if_neg missing, ensure_bind positive, Tree.checkedErase_of_sound sound,
          Tree.checkedUpdate_of_sound sound, ok_bind]
        split <;> rfl

theorem checkedPerform_of_holds (solvent : set.tree.Solvent) (holds : set.Holds width tuples)
    (request : Request) (named : (set.perform request).1.tree.pools.Named) :
    set.checkedPerform request = .ok (set.perform request) := by
  cases request with
  | insert tuple allowance =>
      rw [checkedPerform, checkedInsertWithin_of_holds solvent holds allowance tuple named, ok_bind]
      rfl
  | insertMany block offsets allowed =>
      rw [checkedPerform, checkedInsertManyWithin_of_holds solvent holds allowed block offsets named,
        ok_bind]
      rfl
  | contains tuple =>
      rw [checkedPerform, checkedContains_of_sound solvent.sound, ok_bind]
      rfl
  | erase tuple =>
      rw [checkedPerform, checkedErase_of_stores solvent.sound holds.stores, ok_bind]
      rfl

/-! ## Runs -/

/-- What a run of requests keeps. -/
def Orderly (set : TupleSet) : Prop :=
  set.tree.Solvent ∧ ∃ width tuples, set.Holds width tuples

theorem Orderly.perform (orderly : set.Orderly) (request : Request) :
    (set.perform request).1.Orderly := by
  rcases orderly with ⟨solvent, width, tuples, holds⟩
  rcases holds.perform request with ⟨next, _, stillHolds⟩
  exact ⟨(set.leads_perform request).solvent solvent, width, next, stillHolds⟩

theorem Orderly.served (orderly : set.Orderly) (requests : List Request) :
    (served TupleSet.perform set requests).1.Orderly := by
  induction requests generalizing set with
  | nil => exact orderly
  | cons request rest inductionHypothesis => exact inductionHypothesis (orderly.perform request)

theorem checkedServed_of_orderly (orderly : set.Orderly) (requests : List Request)
    (named : (served perform set requests).1.tree.pools.Named) :
    checkedServed checkedPerform set requests = .ok (served perform set requests) :=
  checkedServed_of_steps Orderly (fun set => set.tree.pools.Named)
    (fun _ request orderly => orderly.perform request)
    (fun set request named => (set.leads_perform request).named named)
    (fun _ request orderly named =>
      let ⟨solvent, _, _, holds⟩ := orderly
      checkedPerform_of_holds solvent holds request named) orderly named

/-- A new set is orderly. -/
theorem orderly_ofTree {tree : Tree} (solvent : tree.Solvent) {offsetBits : Nat}
    (made : ofTree tree offsetBits = .ok set) : set.Orderly := by
  rw [ofTree] at made
  split at made
  · rename_i blank
    split at made
    · rename_i narrow
      cases made
      exact ⟨solvent, offsetBits, ∅, Holds.empty solvent.sound blank narrow⟩
    · cases made
  · cases made

end TupleSet

namespace Tree

/-- No request to a tree meets a fault, and whatever is read off the tree afterwards is read
off without one.  The same goes for a set of tuples over a tree without keys, whatever the
tree has been through.  All that it takes is a name for each slot of the final pools. -/
theorem faultless_after (limit? : Option Nat) (requests : List Request)
    (named : ((empty limit?).after requests).pools.Named) :
    checkedServed checkedPerform (empty limit?) requests =
        .ok (served perform (empty limit?) requests) ∧
      ((empty limit?).after requests).Legible ∧
      forall offsetBits set, TupleSet.ofTree ((empty limit?).after requests) offsetBits = .ok set ->
        forall calls : List TupleSet.Request,
          (served TupleSet.perform set calls).1.tree.pools.Named ->
            checkedServed TupleSet.checkedPerform set calls =
                .ok (served TupleSet.perform set calls) ∧
              (served TupleSet.perform set calls).1.tree.Legible := by
  have start := solvent_empty limit?
  have solvent := solvent_after start requests
  refine ⟨checkedServed_of_solvent start requests named, solvent.sound.legible named, ?_⟩
  intro offsetBits set made calls enough
  have orderly := TupleSet.orderly_ofTree solvent made
  have final := orderly.served calls
  exact ⟨TupleSet.checkedServed_of_orderly orderly calls enough, final.1.sound.legible enough⟩

/-- A set over a tree that lost its only key, and in which two tuples share a word. -/
theorem faultless_after_emptied :
    ((empty (some 100)).after [.insert 256 7 none, .erase 256]).pools.Named ∧
      ∃ set, TupleSet.ofTree ((empty (some 100)).after [.insert 256 7 none, .erase 256]) 3 = .ok set ∧
        (served TupleSet.perform set
          [.insert ⟨0, 7⟩ none, .insert ⟨1, 0⟩ none, .erase ⟨0, 7⟩]).1.tree.pools.Named ∧
        checkedServed TupleSet.checkedPerform set
            [.insert ⟨0, 7⟩ none, .insert ⟨1, 0⟩ none, .erase ⟨0, 7⟩] =
          .ok (served TupleSet.perform set
            [.insert ⟨0, 7⟩ none, .insert ⟨1, 0⟩ none, .erase ⟨0, 7⟩]) := by
  have named : ((empty (some 100)).after [.insert 256 7 none, .erase 256]).pools.Named := by
    intro pool
    rcases pool with ⟨family, sizeClass⟩
    cases family <;> cases sizeClass <;> decide +kernel
  have blank : ((empty (some 100)).after [.insert 256 7 none, .erase 256]).isEmpty = true := by
    decide +kernel
  let set : TupleSet := ⟨(empty (some 100)).after [.insert 256 7 none, .erase 256], 3, 0, by decide⟩
  have made : TupleSet.ofTree set.tree 3 = .ok set := by
    rw [TupleSet.ofTree, if_pos blank, dif_pos]
  have enough : (served TupleSet.perform set
      [.insert ⟨0, 7⟩ none, .insert ⟨1, 0⟩ none, .erase ⟨0, 7⟩]).1.tree.pools.Named := by
    intro pool
    rcases pool with ⟨family, sizeClass⟩
    cases family <;> cases sizeClass <;> decide +kernel
  have faultless := (faultless_after (some 100) _ named).2.2 3 set made _ enough
  exact ⟨named, set, made, enough, faultless.1⟩

end Tree
end AdaptiveRadix
