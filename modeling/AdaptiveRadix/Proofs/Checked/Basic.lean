namespace AdaptiveRadix

/-!
# Checked operations

The operations of this library are total: where what they take for granted fails, they
still answer something.  A checked operation goes through the same steps, but tests
before each of them what the step takes for granted, and stops with a `Fault` at the
first test that fails.  For each operation a lemma says that on a sound argument no test
fails, so that the checked operation answers exactly what the plain one answers.
-/

/-- What a step can find amiss. -/
inductive Fault where
  /-- A number for a place outside its array, or a range past its end. -/
  | outOfRange
  /-- An entry for a node that has no room. -/
  | fullNode
  /-- An entry for a chunk that has one. -/
  | chunkTaken
  /-- An entry that is found after it was taken out. -/
  | entryLeft
  /-- A bitmap that does not mark as many slots as there are entries. -/
  | usedMismatch
  /-- An indexed table all of whose slots are marked. -/
  | noFreeSlot
  /-- A counter past the largest number it can hold. -/
  | countOverflow
  /-- A counter below zero. -/
  | countUnderflow
  /-- A full node of the largest class that has to grow. -/
  | noLargerClass
  /-- A node moved to a class that is not larger. -/
  | notLarger
  /-- A moved node with another number of entries. -/
  | entriesLost
  /-- A handle to a slot that is vacant. -/
  | dangling
  /-- A vacant slot given back. -/
  | doubleFree
  /-- A slot in use at the head of the free list. -/
  | liveOnFreeList
  /-- A pool without a name for another slot. -/
  | poolExhausted
  /-- A new slot for which no room was made. -/
  | noRoom
  /-- More children than the buffer for them takes. -/
  | tooManyChildren
  /-- A node whose pool does not record the edge that leads to it. -/
  | strayEdge
  /-- A shift above the highest one. -/
  | shiftOutOfRange
  /-- A word shifted by as many bits as it has. -/
  | shiftTooFar
  /-- A root to be raised to a level that is not higher. -/
  | notHigher
  /-- Keys counted in a tree that has become empty. -/
  | entriesLeft
deriving DecidableEq, Repr

/-- The outcome of a checked operation. -/
abbrev Checked (α : Type) := Except Fault α

/-- Stop unless a condition holds. -/
def ensure (condition : Prop) [Decidable condition] (fault : Fault) : Checked Unit :=
  if condition then .ok () else .error fault

variable {α β σ ρ : Type}

theorem ensure_of {condition : Prop} [Decidable condition] (holds : condition) (fault : Fault) :
    ensure condition fault = .ok () :=
  if_pos holds

/-- A step that succeeds hands its value on. -/
theorem ok_bind (value : α) (next : α -> Checked β) :
    ((Except.ok value : Checked α) >>= next) = next value :=
  rfl

/-- A test that holds changes nothing. -/
theorem ensure_bind {condition : Prop} [Decidable condition] (holds : condition) (fault : Fault)
    (next : Unit -> Checked β) : (ensure condition fault >>= next) = next () := by
  rw [ensure_of holds, ok_bind]

/-- Steps that all succeed give the list of their values. -/
theorem mapM_of_ok {step : α -> Checked β} {value : α -> β} {items : List α}
    (each : ∀ item ∈ items, step item = .ok (value item)) :
    items.mapM step = .ok (items.map value) := by
  induction items with
  | nil => rfl
  | cons item rest inductionHypothesis =>
      have later := inductionHypothesis fun other listed => each other (List.mem_cons_of_mem item listed)
      rw [List.mapM_cons, each item List.mem_cons_self, ok_bind, later, ok_bind]
      rfl

/-! ## Runs -/

/-- The state after some requests, and their answers. -/
def served (step : σ -> ρ -> σ × α) (state : σ) : List ρ -> σ × List α
  | [] => (state, [])
  | request :: rest =>
      let later := served step (step state request).1 rest
      (later.1, (step state request).2 :: later.2)

/-- The same for checked steps, up to the first fault. -/
def checkedServed (step : σ -> ρ -> Checked (σ × α)) (state : σ) : List ρ -> Checked (σ × List α)
  | [] => return (state, [])
  | request :: rest => do
      let next ← step state request
      let later ← checkedServed step next.1 rest
      return (later.1, next.2 :: later.2)

section

variable {step : σ -> ρ -> σ × α} {checkedStep : σ -> ρ -> Checked (σ × α)} (Sound Named : σ -> Prop)
  (keeps : forall state request, Sound state -> Sound (step state request).1)
  (earlier : forall state request, Named (step state request).1 -> Named state)

include earlier in
/-- Names that suffice in the end sufficed in the beginning. -/
theorem named_of_served {state : σ} {requests : List ρ} (named : Named (served step state requests).1) :
    Named state := by
  induction requests generalizing state with
  | nil => exact named
  | cons request rest inductionHypothesis => exact earlier state request (inductionHypothesis named)

include keeps earlier in
/-- A run with names enough in the end goes through if each of its steps does. -/
theorem checkedServed_of_steps
    (passes : forall state request, Sound state -> Named (step state request).1 ->
      checkedStep state request = .ok (step state request))
    {state : σ} (sound : Sound state) {requests : List ρ}
    (named : Named (served step state requests).1) :
    checkedServed checkedStep state requests = .ok (served step state requests) := by
  induction requests generalizing state with
  | nil => rfl
  | cons request rest inductionHypothesis =>
      have next : Named (step state request).1 := named_of_served Named earlier named
      have later := inductionHypothesis (keeps state request sound) named
      rw [checkedServed, passes state request sound next, ok_bind, later, ok_bind]
      rfl

end

end AdaptiveRadix
