import AdaptiveRadix.Proofs.Checked.Node

namespace AdaptiveRadix
namespace Node

/-!
# A node answers as a finite map does

The reference is an ordered map of the standard library from chunks to values.  Calls are
orderly when every insertion is of a chunk that the reference does not bind, into a
reference that is smaller than the capacity: this is all that the callers of a node have
to see to, and it is said without looking at the node.  Under orderly calls nothing goes
wrong inside a node of any class, and its answers are those of the reference.
-/

/-- A finite map from chunks to values. -/
abbrev Reference (α : Type) :=
  Std.ExtTreeMap Chunk α compare

variable {α : Type}

/-- What a call makes of a reference. -/
def following (map : Reference α) : Request α -> Reference α
  | .insert chunk value => map.insert chunk value
  | .replace chunk value => if chunk ∈ map then map.insert chunk value else map
  | .erase chunk => map.erase chunk
  | .lookup _ | .forEach => map

/-- The reference after some calls. -/
def followingAll (map : Reference α) (requests : List (Request α)) : Reference α :=
  requests.foldl following map

/-- The answers that a reference admits to a call. -/
inductive Conforms (map : Reference α) : Request α -> Answer α -> Prop
  | inserted {chunk : Chunk} {value : α} : Conforms map (.insert chunk value) .done
  | replaced {chunk : Chunk} {value : α} :
      Conforms map (.replace chunk value) (.value map[chunk]?)
  | erased {chunk : Chunk} : Conforms map (.erase chunk) (.value map[chunk]?)
  | lookedUp {chunk : Chunk} : Conforms map (.lookup chunk) (.value map[chunk]?)
  | visited {entries : List (Entry α)}
      (listing : Listing (entries.map Entry.binding) fun chunk => map[chunk]?) :
      Conforms map .forEach (.entries entries)

/-- Answers that conform to their calls one after another. -/
inductive Conforming : Reference α -> List (Request α) -> List (Answer α) -> Prop
  | done (map : Reference α) : Conforming map [] []
  | step {map : Reference α} {request : Request α} {answer : Answer α}
      {requests : List (Request α)} {answers : List (Answer α)} (first : Conforms map request answer)
      (rest : Conforming (following map request) requests answers) :
      Conforming map (request :: requests) (answer :: answers)

/-- A call that a reference with a capacity allows. -/
def Allowed (capacity : Nat) (map : Reference α) : Request α -> Prop
  | .insert chunk _ => chunk ∉ map ∧ map.size < capacity
  | .replace .. | .erase _ | .lookup _ | .forEach => True

/-- Calls each of which is allowed when its turn comes. -/
def Orderly (capacity : Nat) : Reference α -> List (Request α) -> Prop
  | _, [] => True
  | map, request :: rest =>
      Allowed capacity map request ∧ Orderly capacity (following map request) rest

instance Allowed.decidable (capacity : Nat) (map : Reference α) :
    (request : Request α) -> Decidable (Allowed capacity map request)
  | .insert chunk _ => inferInstanceAs (Decidable (chunk ∉ map ∧ map.size < capacity))
  | .replace .. | .erase _ | .lookup _ | .forEach => inferInstanceAs (Decidable True)

instance Orderly.decidable (capacity : Nat) :
    (map : Reference α) -> (requests : List (Request α)) -> Decidable (Orderly capacity map requests)
  | _, [] => inferInstanceAs (Decidable True)
  | map, request :: rest =>
      have := Orderly.decidable capacity (following map request) rest
      inferInstanceAs (Decidable (Allowed capacity map request ∧ Orderly capacity _ rest))

/-- Orderly calls are orderly up to any of them. -/
theorem Orderly.early {capacity : Nat} {map : Reference α} {early late : List (Request α)}
    (orderly : Orderly capacity map (early ++ late)) : Orderly capacity map early := by
  induction early generalizing map with
  | nil => trivial
  | cons request rest inductionHypothesis => exact ⟨orderly.1, inductionHypothesis orderly.2⟩

/-- A valid node and a reference with the same values. -/
structure Agrees (node : Node α) (map : Reference α) : Prop where
  valid : node.Valid
  same : forall chunk, node.get? chunk = map[chunk]?

namespace Agrees

variable {node : Node α} {map : Reference α} {chunk : Chunk}

theorem vacant [Inhabited α] (sizeClass : SizeClass) (slot : Nat) :
    Agrees (Node.vacant sizeClass slot : Node α) ∅ where
  valid := valid_vacant sizeClass slot
  same chunk := (get?_vacant sizeClass slot chunk).trans Std.ExtTreeMap.getElem?_empty.symm

theorem mem_iff (agrees : Agrees node map) : chunk ∈ map ↔ (node.get? chunk).isSome = true := by
  rw [Std.ExtTreeMap.mem_iff_isSome_getElem?, agrees.same]

theorem mem (agrees : Agrees node map) {value : α} (found : node.get? chunk = some value) :
    chunk ∈ map := by
  rw [agrees.mem_iff, found, Option.isSome_some]

theorem not_mem (agrees : Agrees node map) (missed : node.get? chunk = none) : chunk ∉ map := by
  rw [agrees.mem_iff, missed]
  exact Bool.false_ne_true

theorem missed (agrees : Agrees node map) (unbound : chunk ∉ map) : node.get? chunk = none :=
  Option.not_isSome_iff_eq_none.mp fun found => unbound (agrees.mem_iff.mpr found)

/-- The traversal of the node lists the reference. -/
theorem listing (agrees : Agrees node map) : Listing node.bindings fun chunk => map[chunk]? :=
  funext agrees.same ▸ Node.listing agrees.valid

theorem count_eq (agrees : Agrees node map) : node.count = map.size := by
  rw [← agrees.valid.counted, ← length_bindings, agrees.listing.eq (listing_toList map),
    Std.ExtTreeMap.length_toList]

theorem grants (agrees : Agrees node map) {request : Request α}
    (allowed : Allowed node.sizeClass.capacity map request) : node.Grants request := by
  cases request with
  | insert chunk value =>
      refine ⟨?_, agrees.missed allowed.1⟩
      rw [isFull, beq_eq_false_iff_ne, agrees.count_eq]
      exact Nat.ne_of_lt allowed.2
  | replace chunk value | erase chunk | lookup chunk | forEach => trivial

theorem conforms (agrees : Agrees node map) (request : Request α) :
    Conforms map request (node.perform request).2 := by
  cases request with
  | insert chunk value => exact .inserted
  | replace chunk value =>
      rw [perform, agrees.same]
      exact .replaced
  | erase chunk =>
      have answer : (node.perform (.erase chunk)).2 = .value map[chunk]? := by
        rw [perform, ← agrees.same]
        cases node.get? chunk <;> rfl
      rw [answer]
      exact .erased
  | lookup chunk =>
      rw [perform, agrees.same]
      exact .lookedUp
  | forEach => exact .visited agrees.listing

/-- An allowed call keeps a node and a reference in agreement. -/
theorem perform (agrees : Agrees node map) {request : Request α}
    (allowed : Allowed node.sizeClass.capacity map request) :
    Agrees (node.perform request).1 (following map request) := by
  have grants := agrees.grants allowed
  refine ⟨valid_perform agrees.valid grants, fun other => ?_⟩
  cases request with
  | insert chunk value =>
      rw [following, lookup_insert, ← agrees.same]
      exact get?_insert agrees.valid grants.1 grants.2 value other
  | replace chunk value =>
      rw [following, Node.perform]
      cases found : node.get? chunk with
      | none =>
          rw [replace_of_get?_none agrees.valid found, if_neg (agrees.not_mem found), agrees.same]
      | some old =>
          rw [if_pos (agrees.mem found), lookup_insert, ← agrees.same]
          exact get?_replace agrees.valid found value other
  | erase chunk =>
      rw [following, Node.perform, lookup_erase, ← agrees.same]
      cases found : node.get? chunk with
      | none =>
          by_cases same : other = chunk
          · rw [if_pos same, same, found]
          · rw [if_neg same]
      | some old => exact get?_erase agrees.valid found other
  | lookup chunk | forEach => exact agrees.same other

end Agrees

theorem sizeClass_perform (node : Node α) (request : Request α) :
    (node.perform request).1.sizeClass = node.sizeClass := by
  cases request with
  | insert chunk value => exact sizeClass_insert node chunk value
  | replace chunk value => exact sizeClass_replace node chunk value
  | erase chunk =>
      rw [perform]
      split
      · exact sizeClass_erase node chunk
      · rfl
  | lookup chunk | forEach => rfl

theorem Agrees.grantsAll {node : Node α} {map : Reference α} (agrees : Agrees node map)
    {requests : List (Request α)} (orderly : Orderly node.sizeClass.capacity map requests) :
    node.GrantsAll requests := by
  induction requests generalizing node map with
  | nil => trivial
  | cons request rest inductionHypothesis =>
      have kept := sizeClass_perform node request
      exact ⟨agrees.grants orderly.1,
        inductionHypothesis (agrees.perform orderly.1) (kept ▸ orderly.2)⟩

theorem sizeClass_served (node : Node α) (requests : List (Request α)) :
    (served perform node requests).1.sizeClass = node.sizeClass := by
  induction requests generalizing node with
  | nil => rfl
  | cons request rest inductionHypothesis =>
      exact (inductionHypothesis (node.perform request).1).trans (sizeClass_perform node request)

theorem Agrees.served {node : Node α} {map : Reference α} (agrees : Agrees node map)
    {requests : List (Request α)} (orderly : Orderly node.sizeClass.capacity map requests) :
    Conforming map requests (served Node.perform node requests).2 ∧
      Agrees (served Node.perform node requests).1 (followingAll map requests) := by
  induction requests generalizing node map with
  | nil => exact ⟨.done map, agrees⟩
  | cons request rest inductionHypothesis =>
      have kept := sizeClass_perform node request
      rcases inductionHypothesis (agrees.perform orderly.1) (kept ▸ orderly.2) with ⟨answers, last⟩
      exact ⟨.step (agrees.conforms request) answers, last⟩

/-- What a run of calls on a node has to come to. -/
structure Follows (node : Node α) (map : Reference α) (requests : List (Request α)) : Prop where
  passes : checkedServed checkedPerform node requests = .ok (served perform node requests)
  conforming : Conforming map requests (served perform node requests).2
  agrees : Agrees (served perform node requests).1 (followingAll map requests)

/-- Orderly calls are answered as by a finite map, and no check fails on the way. -/
theorem Agrees.follows {node : Node α} {map : Reference α} (agrees : Agrees node map)
    {requests : List (Request α)} (orderly : Orderly node.sizeClass.capacity map requests) :
    Follows node map requests where
  passes := checkedServed_of_valid agrees.valid (agrees.grantsAll orderly)
  conforming := (agrees.served orderly).1
  agrees := (agrees.served orderly).2

/-- A new node of any class follows a reference that begins empty. -/
theorem follows_vacant [Inhabited α] (sizeClass : SizeClass) (slot : Nat)
    {requests : List (Request α)} (orderly : Orderly sizeClass.capacity ∅ requests) :
    Follows (vacant sizeClass slot) ∅ requests :=
  (Agrees.vacant sizeClass slot).follows (by rwa [sizeClass_vacant])

end Node
end AdaptiveRadix
