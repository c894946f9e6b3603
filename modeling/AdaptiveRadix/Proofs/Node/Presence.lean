import AdaptiveRadix.Proofs.Bits
import AdaptiveRadix.Proofs.Node.Refinement

namespace AdaptiveRadix

/-!
# The bits of a direct table

Above its layout a node with 256 slots is a finite map like any other node.  This module
says what its four words look like meanwhile: they have one bit for each binding of the
map, and a call turns over the bit of its own chunk or none at all.  Presence is never
read off a value, so a value that looks like nothing is a value nevertheless.

A traversal does not rely on any of this.  Whatever the words are, clearing the lowest bit
ends after as many turns as there are bits, and the slots that it comes by are those of the
set bits in their order, across the words.
-/

variable {α : Type}

namespace Direct

variable {table : Direct α} {chunk : Chunk}

/-! ## The walk over a word -/

/-- What a traversal goes on with after the lowest set bit of a word. -/
def cleared (word : UInt64) : UInt64 :=
  word &&& (word - 1)

theorem setBits_eq_filter (word : UInt64) :
    setBits word = (List.range 64).filter (word.toBitVec.getLsbD ·) := by
  apply (setBits_ascending word).eq_of_mem_iff (List.pairwise_lt_range.filter _)
  intro place
  rw [mem_setBits, List.mem_filter, List.mem_range]
  exact ⟨fun set => ⟨BitVec.lt_of_getLsbD set, set⟩, And.right⟩

theorem length_setBits (word : UInt64) : (setBits word).length = word.toBitVec.cpop.toNat := by
  rw [setBits_eq_filter, ← List.countP_eq_length_filter, toNat_cpop, Nat.count]
  simp only [Bool.decide_eq_true]

theorem setBits_of_ne_zero {word : UInt64} (nonzero : word ≠ 0) :
    setBits word = word.toBitVec.ctz.toNat :: setBits (cleared word) := by
  rw [setBits, if_neg nonzero, cleared]

/-- Each turn takes one bit away, so the turns end with the last bit. -/
theorem iterate_cleared_eq_zero_iff {word : UInt64} {turns : Nat} :
    cleared^[turns] word = 0 ↔ (setBits word).length ≤ turns := by
  induction turns generalizing word with
  | zero =>
      rw [Function.iterate_zero, id, Nat.le_zero, List.length_eq_zero_iff]
      by_cases zero : word = 0
      · simp [zero, setBits]
      · simp [zero, setBits_of_ne_zero zero]
  | succ turns inductionHypothesis =>
      rw [Function.iterate_succ_apply, inductionHypothesis]
      by_cases zero : word = 0
      · simp [zero, setBits, cleared]
      · rw [setBits_of_ne_zero zero, List.length_cons, Nat.succ_le_succ_iff]

/-! ## Traversal -/

/-- The slots whose bit is set, from the first to the last. -/
def places (table : Direct α) : List (Fin 256) :=
  (List.finRange 256).filter fun place => table.contains (UInt8.ofNat place.val)

/-- The entry of a chunk in the slot of the same number. -/
def entryAt (table : Direct α) (place : Fin 256) : Entry α :=
  ⟨place.val, UInt8.ofNat place.val, table.slots[place]⟩

private theorem toNat_ofNat_place (place : Fin 256) : (UInt8.ofNat place.val).toNat = place.val :=
  UInt8.toNat_ofNat'.trans (Nat.mod_eq_of_lt place.isLt)

theorem mem_map_entryAt {entry : Entry α} : entry ∈ table.places.map table.entryAt ↔
    entry.position = entry.chunk.toNat ∧ table.get? entry.chunk = some entry.value := by
  rw [List.mem_map]
  constructor
  · intro met
    rcases met with ⟨place, listed, rfl⟩
    have present := (List.mem_filter.mp listed).2
    refine ⟨(toNat_ofNat_place place).symm, ?_⟩
    have number : (UInt8.ofNat place.val).toFin = place := Fin.ext (toNat_ofNat_place place)
    rw [get?, entryAt, if_pos present]
    exact congrArg (fun spot : Fin 256 => some table.slots[spot]) number
  · intro found
    rcases entry with ⟨position, chunk, value⟩
    rcases found with ⟨number, held⟩
    have number : position = chunk.toNat := number
    subst number
    have present := contains_of_get? held
    rw [get?, if_pos present] at held
    refine ⟨⟨chunk.toNat, chunk.toNat_lt⟩, ?_, ?_⟩
    · rw [places, List.mem_filter, UInt8.ofNat_toNat]
      exact ⟨List.mem_finRange _, present⟩
    · rw [entryAt, UInt8.ofNat_toNat]
      exact congrArg (Entry.mk chunk.toNat chunk) (Option.some.inj held)

theorem ascending_map_entryAt (table : Direct α) :
    ((table.places.map table.entryAt).map Entry.chunk).Pairwise (· < ·) := by
  rw [List.map_map, List.pairwise_map]
  apply ((List.pairwise_lt_finRange 256).filter _).imp
  intro low high less
  apply UInt8.lt_iff_toNat_lt.mpr
  simpa only [Function.comp_apply, entryAt, toNat_ofNat_place, Fin.lt_def] using less

/-- A walk over the four words is a walk over the slots that are in use. -/
theorem entries_eq_map (table : Direct α) : table.entries = table.places.map table.entryAt := by
  have ascending := table.entries_ascending
  have ascendingToo := table.ascending_map_entryAt
  have same : table.entries.Perm (table.places.map table.entryAt) := by
    apply (List.perm_ext_iff_of_nodup ascending.nodup.of_map ascendingToo.nodup.of_map).mpr
    intro entry
    rw [mem_entries_iff, mem_map_entryAt]
  apply same.eq_of_pairwise _ (List.pairwise_map.mp ascending) (List.pairwise_map.mp ascendingToo)
  intro low high _ _ less more
  exact absurd more (Std.Asymm.asymm _ _ less)

/-- What a traversal makes of four words and the slots behind them. -/
structure Traversed (table : Direct α) : Prop where
  /-- No slot is looked for beyond the last. -/
  passes : table.checkedEntries = .ok table.entries
  entries_eq : table.entries = table.places.map table.entryAt
  ascending : (table.entries.map Entry.chunk).Pairwise (· < ·)
  setBits_eq : forall index,
    setBits (table.wordAt index) = (List.range 64).filter ((table.wordAt index).toBitVec.getLsbD ·)
  /-- The loop over a word makes as many turns as the word has bits. -/
  ends_iff : forall index turns,
    cleared^[turns] (table.wordAt index) = 0 ↔ (table.wordAt index).toBitVec.cpop.toNat ≤ turns

theorem traversed (table : Direct α) : Traversed table where
  passes := table.checkedEntries_eq
  entries_eq := table.entries_eq_map
  ascending := table.entries_ascending
  setBits_eq index := setBits_eq_filter (table.wordAt index)
  ends_iff index turns := by
    rw [← length_setBits]
    exact iterate_cleared_eq_zero_iff

/-- The words have as many bits as a traversal finds entries. -/
theorem length_entries (table : Direct α) :
    table.entries.length = ∑ index, (table.wordAt index).toBitVec.cpop.toNat := by
  have perWord : ∀ index : Fin 4,
      ((setBits (table.wordAt index)).filterMap fun bit =>
        table.slots[index.val * 64 + bit]?.map fun value =>
          (⟨index.val * 64 + bit, UInt8.ofNat (index.val * 64 + bit), value⟩ : Entry α)).length =
        (table.wordAt index).toBitVec.cpop.toNat := by
    intro index
    rw [← length_setBits]
    apply List.filterMap_length_eq_length.mpr
    intro bit met
    simp [(place_of_bit met).1]
  rw [entries, List.length_flatMap, Fin.sum_univ_def]
  exact congrArg List.sum (List.map_congr_left fun index _ => perWord index)

/-! ## One bit for a call -/

/-- The words of two tables differ in one bit, which is that of a chunk. -/
def Turned (before after : Direct α) (chunk : Chunk) : Prop :=
  ∀ index place, place < 64 ->
    (after.wordAt index).toBitVec.getLsbD place =
      ((before.wordAt index).toBitVec.getLsbD place ^^ decide (index.val * 64 + place = chunk.toNat))

/-- A word and a bit in it make up the place of a chunk among all 256 bits. -/
private theorem decide_place {index : Fin 4} {place : Nat} (inside : place < 64) :
    decide (index.val * 64 + place = chunk.toNat) =
      (decide (word chunk = index) && decide (chunk.toNat % 64 = place)) := by
  rw [← Bool.decide_and, decide_eq_decide, Fin.ext_iff]
  simp only [word]
  omega

theorem turned_insert (missed : table.contains chunk = false) (value : α) :
    Turned table (table.insert chunk value) chunk := by
  rw [contains_eq] at missed
  intro index place inside
  rw [wordAt_insert, decide_place inside]
  by_cases here : word chunk = index
  · subst index
    rw [if_pos rfl, UInt64.toBitVec_or, BitVec.getLsbD_or, getLsbD_bit]
    by_cases same : chunk.toNat % 64 = place
    · subst place
      simp [missed]
    · simp [same]
  · simp [here]

theorem turned_erase (present : table.contains chunk = true) :
    Turned table (table.erase chunk) chunk := by
  intro index place inside
  rw [wordAt_erase present, decide_place inside]
  rw [contains_eq] at present
  by_cases here : word chunk = index
  · subst index
    rw [if_pos rfl, UInt64.toBitVec_and, UInt64.toBitVec_not, BitVec.getLsbD_and,
      BitVec.getLsbD_not, getLsbD_bit]
    by_cases same : chunk.toNat % 64 = place
    · subst place
      simp [present]
    · simp [same, inside]
  · simp [here]

theorem wordAt_replace (table : Direct α) (chunk : Chunk) (value : α) :
    (table.replace chunk value).wordAt = table.wordAt := by
  funext index
  unfold replace
  split <;> rfl

end Direct

namespace Node

/-- A node of the class with 256 slots has a direct table. -/
theorem exists_direct {node : Node α} (sizeClass : node.sizeClass = .c256) :
    ∃ table, node.layout = .direct table := by
  rcases node with ⟨slot, count, layout⟩
  cases layout with
  | sorted width run => cases width <;> cases sizeClass
  | indexed table => cases sizeClass
  | direct table => exact ⟨table, rfl⟩

/-! ## Insertions of chunks that have no entry -/

/-- A call that inserts no chunk a second time. -/
def Fresh (map : Reference α) : Request α -> Prop
  | .insert chunk _ => chunk ∉ map
  | .replace .. | .erase _ | .lookup _ | .forEach => True

/-- Calls that insert no chunk a second time, each in its turn. -/
def AllFresh : Reference α -> List (Request α) -> Prop
  | _, [] => True
  | map, request :: rest => Fresh map request ∧ AllFresh (following map request) rest

instance Fresh.decidable (map : Reference α) : (request : Request α) -> Decidable (Fresh map request)
  | .insert chunk _ => inferInstanceAs (Decidable (chunk ∉ map))
  | .replace .. | .erase _ | .lookup _ | .forEach => inferInstanceAs (Decidable True)

instance AllFresh.decidable :
    (map : Reference α) -> (requests : List (Request α)) -> Decidable (AllFresh map requests)
  | _, [] => inferInstanceAs (Decidable True)
  | map, request :: rest =>
      have := AllFresh.decidable (following map request) rest
      inferInstanceAs (Decidable (Fresh map request ∧ AllFresh _ rest))

/-- A chunk without an entry leaves room among 256 slots. -/
theorem Fresh.allowed {map : Reference α} {request : Request α} (fresh : Fresh map request) :
    Allowed 256 map request := by
  cases request with
  | insert chunk value =>
      have missed : map[chunk]? = none := Std.ExtTreeMap.getElem?_eq_none fresh
      have few := (listing_toList map).length_lt_of_missed missed
      exact ⟨fresh, (Std.ExtTreeMap.length_toList (t := map)).symm.trans_lt few⟩
  | replace chunk value | erase chunk | lookup chunk | forEach => trivial

theorem AllFresh.orderly {map : Reference α} {requests : List (Request α)}
    (fresh : AllFresh map requests) : Orderly 256 map requests := by
  induction requests generalizing map with
  | nil => trivial
  | cons request rest inductionHypothesis => exact ⟨fresh.1.allowed, inductionHypothesis fresh.2⟩

/-! ## Runs -/

/-- The words after a call: one bit of another kind for an insertion or the removal of an
entry, and otherwise the same ones. -/
def Marked (map : Reference α) (before after : Direct α) : Request α -> Prop
  | .insert chunk _ => Direct.Turned before after chunk
  | .erase chunk => if chunk ∈ map then Direct.Turned before after chunk else after = before
  | .replace .. => after.wordAt = before.wordAt
  | .lookup _ | .forEach => after = before

/-- A node whose words have a bit for each chunk of a map, and that calls keep so bit by bit. -/
structure Marks (node : Node α) (map : Reference α) (table : Direct α) : Prop where
  layout_eq : node.layout = .direct table
  contains_iff : forall {chunk}, table.contains chunk = true ↔ chunk ∈ map
  get?_eq : forall chunk, node.get? chunk = map[chunk]?
  count_eq : node.count = ∑ index, (table.wordAt index).toBitVec.cpop.toNat
  marked : forall request, Fresh map request ->
    ∃ after, (node.perform request).1.layout = .direct after ∧ Marked map table after request

theorem Agrees.marks {node : Node α} {map : Reference α} (agrees : Agrees node map)
    {table : Direct α} (direct : node.layout = .direct table) : Marks node map table := by
  rcases node with ⟨slot, count, layout⟩
  cases direct
  have present : forall {chunk}, table.contains chunk = true ↔ chunk ∈ map := by
    intro chunk
    have slotOf : (Node.mk slot count (.direct table)).get? chunk = table.get? chunk := rfl
    rw [agrees.mem_iff, slotOf, Direct.get?]
    cases table.contains chunk <;> simp
  refine ⟨rfl, present, agrees.same, agrees.valid.counted.symm.trans table.length_entries, ?_⟩
  intro request fresh
  cases request with
  | insert chunk value =>
      have missed : table.contains chunk = false :=
        Bool.eq_false_iff.mpr fun held => fresh (present.mp held)
      exact ⟨_, rfl, Direct.turned_insert missed value⟩
  | replace chunk value => exact ⟨_, rfl, table.wordAt_replace chunk value⟩
  | erase chunk =>
      by_cases bound : chunk ∈ map
      · rcases Option.isSome_iff_exists.mp (agrees.mem_iff.mp bound) with ⟨value, found⟩
        refine ⟨table.erase chunk, ?_, ?_⟩
        · rw [Node.perform, found]
          rfl
        · rw [Marked, if_pos bound]
          exact Direct.turned_erase (present.mpr bound)
      · refine ⟨table, ?_, ?_⟩
        · rw [Node.perform, agrees.missed bound]
        · rw [Marked, if_neg bound]
  | lookup chunk | forEach => exact ⟨table, rfl, rfl⟩

/-- A new node with 256 slots is a finite map as long as no chunk is inserted twice, and no
check fails on the way.  After any number of the calls it has the bits of that map, and its
traversal would meet the set bits of any words at all. -/
theorem marks_after [Inhabited α] (slot : Nat) {requests : List (Request α)}
    (fresh : AllFresh ∅ requests) :
    Follows (vacant .c256 slot) ∅ requests ∧
      (∀ early, early <+: requests ->
        ∃ table, Marks (served perform (vacant .c256 slot) early).1 (followingAll ∅ early) table) ∧
      forall table : Direct α, Direct.Traversed table := by
  refine ⟨follows_vacant .c256 slot fresh.orderly, fun early first => ?_, Direct.traversed⟩
  rcases first with ⟨late, rfl⟩
  have agrees := (follows_vacant .c256 slot fresh.orderly.early).agrees
  have kept := sizeClass_served (vacant .c256 slot : Node α) early
  rcases exists_direct kept with ⟨table, direct⟩
  exact ⟨table, agrees.marks direct⟩

/-- Entries on both sides of the end of a word, one of them with nothing but a zero. -/
def acrossWords : List (Request Nat) :=
  [.insert 64 0, .insert 63 5, .insert 255 9, .forEach, .erase 64, .lookup 64, .erase 64,
    .insert 64 7, .insert 0 0, .lookup 0, .erase 255, .forEach]

theorem marks_after_acrossWords :
    AllFresh ∅ acrossWords ∧
      Follows (vacant .c256 3) ∅ acrossWords ∧
        (∀ early, early <+: acrossWords ->
          ∃ table,
            Marks (served perform (vacant .c256 3) early).1 (followingAll ∅ early) table) ∧
        forall table : Direct Nat, Direct.Traversed table := by
  have fresh : AllFresh ∅ acrossWords := by decide +kernel
  exact ⟨fresh, marks_after 3 fresh⟩

end Node
end AdaptiveRadix
