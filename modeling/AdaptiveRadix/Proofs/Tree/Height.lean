import AdaptiveRadix.Proofs.Tree.Run

namespace AdaptiveRadix
namespace Tree

/-!
# What the height of a tree remembers

The height says something about the past of a tree: it is what was needed for the keys that
came into it since it was last empty, also for those that have left it again.  An insertion
makes a tree as tall as its key needs and no taller, a removal of the last key takes all
levels at once, and nothing else changes the height.  The height after a run follows from
that, with the list of those keys kept beside the run.
-/

variable {tree : Tree} {key : Key}

/-- The key that a request has brought in, as its answer tells. -/
def newcomer? : Request -> Answer -> Option Key
  | .insert key _ _, .inserted (.ok false) => some key
  | _, _ => none

/-- The keys that have come into a tree since it was last empty, after one more request. -/
def arrivedAfter (tree : Tree) (arrived : List Key) (request : Request) : List Key :=
  if (tree.perform request).1.isEmpty then []
  else (newcomer? request (tree.perform request).2).toList ++ arrived

/-- The keys that have come into a tree since it was last empty, latest first, after a run. -/
def arrivals (tree : Tree) (arrived : List Key) : List Request -> List Key
  | [] => arrived
  | request :: rest =>
      (tree.perform request).1.arrivals (tree.arrivedAfter arrived request) rest

/-- The levels that a tree needs to take some keys. -/
def levelsFor (keys : List Key) : Nat :=
  keys.foldr (fun key levels => max levels (key.topLevel + 1)) 0

theorem levelsFor_cons (key : Key) (keys : List Key) :
    levelsFor (key :: keys) = max (levelsFor keys) (key.topLevel + 1) :=
  rfl

theorem topLevel_lt_levelsFor {keys : List Key} : ∀ key ∈ keys, key.topLevel < levelsFor keys := by
  induction keys with
  | nil => exact fun _ impossible => (List.not_mem_nil impossible).elim
  | cons first rest inductionHypothesis =>
      intro key listed
      rw [levelsFor_cons]
      rcases List.mem_cons.mp listed with rfl | later
      · exact Nat.lt_of_lt_of_le (Nat.lt_succ_self _) (Nat.le_max_right _ _)
      · exact Nat.lt_of_lt_of_le (inductionHypothesis key later) (Nat.le_max_left _ _)

/-- Some levels are needed for one of the keys. -/
theorem exists_levelsFor_eq {keys : List Key} (positive : 0 < levelsFor keys) :
    ∃ key ∈ keys, levelsFor keys = 1 + key.topLevel := by
  induction keys with
  | nil => cases positive
  | cons first rest inductionHypothesis =>
      rw [levelsFor_cons]
      by_cases lower : levelsFor rest ≤ first.topLevel + 1
      · exact ⟨first, List.mem_cons_self, by omega⟩
      · rcases inductionHypothesis (by omega) with ⟨key, listed, levels⟩
        exact ⟨key, List.mem_cons_of_mem first listed, by omega⟩

/-! ## The height after one operation -/

theorem height_of_none (held : tree.root? = none) : tree.height = 0 := by
  rw [height, held]

theorem height_of_root {root : Root} (held : tree.root? = some root) :
    tree.height = root.level + 1 := by
  rw [height, held]

theorem isEmpty_iff_height (tree : Tree) : tree.isEmpty = true ↔ tree.height = 0 := by
  cases held : tree.root? with
  | none => simp [isEmpty, held, height_of_none held]
  | some root => simp [isEmpty, held, height_of_root held]

/-- The largest key that fits is the largest of its height. -/
theorem maxKey?_of_height (rooted : tree.Rooted) (positive : 0 < tree.height) :
    tree.maxKey? = some (Key.bound (tree.height - 1)) := by
  cases held : tree.root? with
  | none =>
      rw [height_of_none held] at positive
      cases positive
  | some root =>
      rw [maxKey?, rooted.ceiling, height_of_root held, held]
      rfl

theorem height_replace (tree : Tree) (key : Key) (value : UInt64) :
    (tree.replace key value).height = tree.height := by
  rw [height, height, replace]
  cases tree.root? <;> rfl

/-- A tree that takes a key becomes as tall as the key needs, unless it is taller. -/
theorem height_added (rooted : tree.Rooted) (key : Key) (value : UInt64) :
    (tree.added key value).1.height = max tree.height (key.topLevel + 1) := by
  cases held : tree.root? with
  | none =>
      rw [added_of_none held, height_of_none held, Nat.zero_max]
      rfl
  | some root =>
      rw [added_of_root held, height_of_root held]
      change (tree.raisedFor root key).1.level + 1 = _
      rw [level_raisedFor rooted held key]
      by_cases tooLow : tree.ceiling < key
      · have lower := level_lt_topLevel rooted held tooLow
        rw [if_pos tooLow]
        omega
      · have fits := topLevel_le_level rooted held tooLow
        rw [if_neg tooLow]
        omega

/-- What an insertion does to the height is seen from its answer. -/
inductive Climbs (tree : Tree) (key : Key) : Outcome Tree (Except OutOfMemory Bool) -> Prop
  | stays {outcome : Outcome Tree (Except OutOfMemory Bool)}
      (other : outcome.result ≠ .ok false) (same : outcome.state.height = tree.height) :
      Climbs tree key outcome
  | rises {outcome : Outcome Tree (Except OutOfMemory Bool)} (bound : outcome.result = .ok false)
      (taller : outcome.state.height = max tree.height (key.topLevel + 1)) : Climbs tree key outcome

theorem Climbs.height_eq {outcome : Outcome Tree (Except OutOfMemory Bool)}
    (climbs : Climbs tree key outcome) (other : outcome.result ≠ .ok false) :
    outcome.state.height = tree.height := by
  cases climbs with
  | stays _ same => exact same
  | rises bound => exact absurd bound other

theorem climbs_insertWithin (sound : tree.Sound) (allowance : Allowance) (key : Key)
    (value : UInt64) : Climbs tree key (tree.insertWithin allowance key value) := by
  have inserted := Tree.inserted tree allowance key value
  generalize tree.insertWithin allowance key value = outcome at inserted ⊢
  cases inserted with
  | rebound => exact .stays (by simp) (height_replace tree key value)
  | bound _ gained => exact .rises rfl (height_added (sound.roomier gained).toRooted key value)
  | overLimit => exact .stays (by simp) rfl
  | refused => exact .stays (by simp) rfl

/-- A key below the largest that fits leaves the height as it is. -/
theorem height_insertWithin_of_le (sound : tree.Sound) (allowance : Allowance) {largest : Key}
    (limit : tree.maxKey? = some largest) (fits : key ≤ largest) (value : UInt64) :
    (tree.insertWithin allowance key value).state.height = tree.height := by
  cases climbs_insertWithin sound allowance key value with
  | stays _ same => exact same
  | rises _ taller =>
      cases held : tree.root? with
      | none =>
          rw [maxKey?, held] at limit
          cases limit
      | some root =>
          rw [maxKey?, held, Option.map_some, ceiling_of_root sound.toRooted held] at limit
          have enough := (Key.le_bound_iff (sound.sound root held).low).mp
            (Option.some.inj limit ▸ fits)
          rw [taller, height_of_root held]
          omega

theorem height_erase (sound : tree.Sound) (key : Key) :
    (tree.erase key).state.height = 0 ∨ (tree.erase key).state.height = tree.height := by
  cases found : tree.get? key with
  | none =>
      apply Or.inr
      rw [erase_of_get?_none found]
  | some old =>
      rcases exists_root sound.toRooted found with ⟨root, held, _⟩
      rw [(erase_of_root held found).2, height_of_root held]
      cases left : (root.top.erase key tree.pools).1 with
      | none => exact Or.inl (by simp [height])
      | some smaller => exact Or.inr (by simp [height])

theorem height_update (tree : Tree) (key : Key) (value : UInt64) :
    (tree.update key value).1.height = tree.height := by
  rw [update]
  cases tree.get? key with
  | none => rfl
  | some old => exact height_replace tree key value

/-! ## The height after a run -/

/-- The height of a tree is what its arrivals need. -/
theorem height_perform (sound : tree.Sound) {arrived : List Key}
    (levels : tree.height = levelsFor arrived) (request : Request) :
    (tree.perform request).1.height = levelsFor (tree.arrivedAfter arrived request) := by
  cases empty : (tree.perform request).1.isEmpty with
  | true =>
      rw [arrivedAfter, empty, if_pos rfl]
      exact (isEmpty_iff_height _).mp empty
  | false =>
      rw [arrivedAfter, empty, if_neg Bool.false_ne_true]
      have positive : (tree.perform request).1.height ≠ 0 := by
        intro none
        rw [(isEmpty_iff_height _).mpr none] at empty
        cases empty
      cases request with
      | insert key value allowance =>
          have climbs := climbs_insertWithin sound allowance key value
          rw [perform] at positive ⊢
          generalize tree.insertWithin allowance key value = outcome at *
          rcases outcome with ⟨state, result, events⟩
          cases climbs with
          | rises bound taller =>
              cases bound
              exact taller.trans (congrArg (max · (key.topLevel + 1)) levels)
          | stays other same =>
              rcases result with _ | _ | _
              · exact same.trans levels
              · exact absurd rfl other
              · exact same.trans levels
      | update key value => exact (height_update tree key value).trans levels
      | erase key => exact ((height_erase sound key).resolve_left positive).trans levels
      | lookup | size | isEmpty | forEach | toList => exact levels

theorem height_after (sound : tree.Sound) {arrived : List Key}
    (levels : tree.height = levelsFor arrived) (requests : List Request) :
    (tree.after requests).height = levelsFor (tree.arrivals arrived requests) := by
  induction requests generalizing tree arrived with
  | nil => exact levels
  | cons request rest inductionHypothesis =>
      exact inductionHypothesis (sound_perform sound request) (height_perform sound levels request)

/-- The height of a tree against the keys that came into it since it was last empty, and
what the next request can do to it. -/
structure Remembers (tree : Tree) (arrived : List Key) : Prop where
  empty : tree.isEmpty = true -> tree.height = 0 ∧ tree.maxKey? = none
  /-- As tall as the arrival needs that needs most, whether or not it is still there. -/
  tallest : tree.isEmpty = false -> ∃ key ∈ arrived,
    (∀ other ∈ arrived, other.topLevel ≤ key.topLevel) ∧ tree.height = 1 + key.topLevel
  maxKey? : tree.isEmpty = false -> tree.maxKey? = some (Key.bound (tree.height - 1))
  refused : forall key value allowance shortage,
    (tree.insertWithin allowance key value).result = .error shortage ->
      (tree.insertWithin allowance key value).state.height = tree.height
  rebound : forall key value allowance,
    (tree.insertWithin allowance key value).result = .ok true ->
      (tree.insertWithin allowance key value).state.height = tree.height
  within : forall key value allowance, ∀ largest ∈ tree.maxKey?, key ≤ largest ->
    (tree.insertWithin allowance key value).state.height = tree.height
  erased : forall key, (tree.erase key).state.isEmpty = false ->
    (tree.erase key).state.height = tree.height
  /-- No request makes a tree lower but by making it empty. -/
  risen : forall request, (tree.perform request).1.isEmpty = false ->
    tree.height ≤ (tree.perform request).1.height

theorem Sound.remembers (sound : tree.Sound) {arrived : List Key}
    (levels : tree.height = levelsFor arrived) : tree.Remembers arrived := by
  have positive : forall {other : Tree}, other.isEmpty = false -> 0 < other.height := by
    intro other occupied
    apply Nat.pos_of_ne_zero
    intro none
    rw [(isEmpty_iff_height other).mpr none] at occupied
    cases occupied
  have kept : forall key, (tree.erase key).state.isEmpty = false ->
      (tree.erase key).state.height = tree.height :=
    fun key occupied => (height_erase sound key).resolve_left (positive occupied).ne'
  have climbs := fun key value allowance => climbs_insertWithin sound allowance key value
  refine ⟨?_, ?_, ?_, ?_, ?_, ?_, kept, ?_⟩
  · intro empty
    refine ⟨(isEmpty_iff_height tree).mp empty, ?_⟩
    rw [isEmpty, Option.isNone_iff_eq_none] at empty
    rw [Tree.maxKey?, empty, Option.map_none]
  · intro occupied
    rcases exists_levelsFor_eq (levels ▸ positive occupied) with ⟨key, listed, most⟩
    refine ⟨key, listed, ?_, levels.trans most⟩
    intro other otherListed
    have less := topLevel_lt_levelsFor other otherListed
    omega
  · exact fun occupied => maxKey?_of_height sound.toRooted (positive occupied)
  · intro key value allowance shortage failed
    exact (climbs key value allowance).height_eq (by simp [failed])
  · intro key value allowance present
    exact (climbs key value allowance).height_eq (by simp [present])
  · intro key value allowance largest limit fits
    exact height_insertWithin_of_le sound allowance limit fits value
  · intro request occupied
    cases request with
    | insert key value allowance =>
        cases climbs key value allowance with
        | stays _ same => exact same.ge
        | rises _ taller => exact (Nat.le_max_left _ _).trans_eq taller.symm
    | update key value => exact (height_update tree key value).ge
    | erase key => exact (kept key occupied).ge
    | lookup | size | isEmpty | forEach | toList => exact Nat.le_refl _

/-- After every run of a new tree its height is that of the tallest key that came into it
since it was last empty. -/
theorem remembers_after (limit? : Option Nat) (requests : List Request) :
    ((empty limit?).after requests).Remembers ((empty limit?).arrivals [] requests) :=
  (sound_after (sound_empty limit?) requests).remembers (height_after (sound_empty limit?) rfl requests)

end Tree
end AdaptiveRadix
