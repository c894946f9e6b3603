import AdaptiveRadix.Proofs.Tree.Retry

namespace AdaptiveRadix

/-!
# A tree answers as a finite map does

The reference is an ordered map of the standard library, which knows nothing of chunks,
nodes or pools.  `Conforms` says what each request answers and what it makes of the
reference.  The tree has a say in one place only: a key that is not bound is refused when
the limit or the system stands in its way, and is bound when neither does.  A tree and a
reference agree when every key has the same value in both, and a request keeps them in
agreement with an answer that conforms.
-/

/-- A finite map from keys to values. -/
abbrev Reference :=
  Std.ExtTreeMap Key UInt64 compare

namespace Tree

/-- The answer of a tree to a request, by its reference, with the reference afterwards. -/
inductive Conforms (tree : Tree) (map : Reference) : Request -> Answer -> Reference -> Prop
  | rebound {key : Key} {value : UInt64} {allowance : Allowance} (bound : key ∈ map) :
      Conforms tree map (.insert key value allowance) (.inserted (.ok true)) (map.insert key value)
  | bound {key : Key} {value : UInt64} {allowance : Allowance} (unbound : key ∉ map)
      (free : forall shortage, ¬ tree.Refuses allowance key value shortage) :
      Conforms tree map (.insert key value allowance) (.inserted (.ok false))
        (map.insert key value)
  | refused {key : Key} {value : UInt64} {allowance : Allowance} {shortage : OutOfMemory}
      (unbound : key ∉ map) (cause : tree.Refuses allowance key value shortage) :
      Conforms tree map (.insert key value allowance) (.inserted (.error shortage)) map
  | updated {key : Key} {value : UInt64} :
      Conforms tree map (.update key value) (.value map[key]?)
        (if key ∈ map then map.insert key value else map)
  | erased {key : Key} : Conforms tree map (.erase key) (.flag (decide (key ∈ map))) (map.erase key)
  | lookedUp {key : Key} : Conforms tree map (.lookup key) (.value map[key]?) map
  | counted : Conforms tree map .size (.count map.size) map
  | tested : Conforms tree map .isEmpty (.flag (decide (map.size = 0))) map
  | visited {bindings : List (Key × UInt64)} (listing : Listing bindings fun key => map[key]?) :
      Conforms tree map .forEach (.bindings bindings) map
  | listed {bindings : List (Key × UInt64)} (listing : Listing bindings fun key => map[key]?) :
      Conforms tree map .toList (.bindings bindings) map

/-- Calls whose answers conform one after another, and the reference they end with. -/
inductive Conforming : Tree -> Reference -> List (Request × Answer) -> Reference -> Prop
  | done (tree : Tree) (map : Reference) : Conforming tree map [] map
  | step {tree : Tree} {map next last : Reference} {request : Request} {answer : Answer}
      {calls : List (Request × Answer)} (first : tree.Conforms map request answer next)
      (rest : Conforming (tree.perform request).1 next calls last) :
      Conforming tree map ((request, answer) :: calls) last

/-- A sound tree and a reference with the same values. -/
structure Agrees (tree : Tree) (map : Reference) : Prop where
  sound : tree.Sound
  same : forall key, tree.get? key = map[key]?

namespace Agrees

variable {tree : Tree} {map : Reference} {key : Key} {value : UInt64}

theorem empty (limit? : Option Nat) : Agrees (Tree.empty limit?) ∅ :=
  ⟨sound_empty limit?, fun _ => Std.ExtTreeMap.getElem?_empty.symm⟩

theorem mem_of_found (agrees : Agrees tree map) {old : UInt64} (found : tree.get? key = some old) :
    key ∈ map := by
  rw [Std.ExtTreeMap.mem_iff_isSome_getElem?, ← agrees.same, found, Option.isSome_some]

theorem not_mem_of_missed (agrees : Agrees tree map) (missed : tree.get? key = none) :
    key ∉ map := by
  rw [Std.ExtTreeMap.mem_iff_isSome_getElem?, ← agrees.same, missed]
  exact Bool.false_ne_true

theorem insert {after : Tree} (agrees : Agrees tree map) (sound : after.Sound)
    (changed : Changed tree after key (some value)) : Agrees after (map.insert key value) := by
  refine ⟨sound, ?_⟩
  intro other
  rw [changed other, lookup_insert, agrees.same]

theorem erase {after : Tree} (agrees : Agrees tree map) (sound : after.Sound)
    (changed : Changed tree after key none) : Agrees after (map.erase key) := by
  refine ⟨sound, ?_⟩
  intro other
  rw [changed other, lookup_erase, agrees.same]

/-- The walk of the tree lists the reference. -/
theorem listing (agrees : Agrees tree map) : Listing tree.toList fun key => map[key]? :=
  funext agrees.same ▸ Tree.listing agrees.sound.toRooted

theorem size_eq (agrees : Agrees tree map) : tree.size = map.size := by
  rw [agrees.sound.counted, agrees.listing.eq (listing_toList map),
    Std.ExtTreeMap.length_toList]

theorem insertWithin (agrees : Agrees tree map) (key : Key) (value : UInt64)
    (allowance : Allowance) :
    ∃ next, tree.Conforms map (.insert key value allowance)
        (.inserted (tree.insertWithin allowance key value).result) next ∧
      Agrees (tree.insertWithin allowance key value).state next := by
  have inserted := Tree.inserted tree allowance key value
  have causes := error_iff_refuses tree allowance key value
  generalize tree.insertWithin allowance key value = outcome at inserted causes ⊢
  cases inserted with
  | rebound found =>
      rcases replace_keeps agrees.sound found value with ⟨sound, changed⟩
      exact ⟨_, .rebound (agrees.mem_of_found found), agrees.insert sound changed⟩
  | bound missed gained =>
      rcases added_keeps (agrees.sound.roomier gained) missed value with ⟨sound, changed⟩
      have free : forall shortage, ¬ tree.Refuses allowance key value shortage := by
        intro shortage refuses
        cases (causes shortage).mpr refuses
      exact ⟨_, .bound (agrees.not_mem_of_missed missed) free, agrees.insert sound changed⟩
  | overLimit missed =>
      exact ⟨map, .refused (agrees.not_mem_of_missed missed) ((causes _).mp rfl), agrees⟩
  | refused missed gained =>
      exact ⟨map, .refused (agrees.not_mem_of_missed missed) ((causes _).mp rfl),
        agrees.sound.roomier gained, agrees.same⟩

theorem update (agrees : Agrees tree map) (key : Key) (value : UInt64) :
    tree.Conforms map (.update key value) (.value (tree.update key value).2)
        (if key ∈ map then map.insert key value else map) ∧
      Agrees (tree.update key value).1 (if key ∈ map then map.insert key value else map) := by
  have answer : (tree.update key value).2 = map[key]? := by
    rw [← agrees.same, Tree.update]
    cases tree.get? key <;> rfl
  refine ⟨answer ▸ .updated, ?_⟩
  rw [Tree.update]
  cases found : tree.get? key with
  | none =>
      rw [if_neg (agrees.not_mem_of_missed found)]
      exact agrees
  | some old =>
      rw [if_pos (agrees.mem_of_found found)]
      rcases replace_keeps agrees.sound found value with ⟨sound, changed⟩
      exact agrees.insert sound changed

theorem remove (agrees : Agrees tree map) (key : Key) :
    tree.Conforms map (.erase key) (.flag (tree.erase key).result) (map.erase key) ∧
      Agrees (tree.erase key).state (map.erase key) := by
  cases found : tree.get? key with
  | none =>
      have unbound := agrees.not_mem_of_missed found
      have answer : (tree.erase key).result = decide (key ∈ map) := by
        rw [erase_of_get?_none found, decide_eq_false unbound]
      refine ⟨answer ▸ .erased, ?_⟩
      rw [erase_of_get?_none found]
      refine agrees.erase agrees.sound ?_
      intro other
      by_cases same : other = key
      · rw [if_pos same, same, found]
      · rw [if_neg same]
  | some old =>
      rcases exists_root agrees.sound.toRooted found with ⟨root, held, _⟩
      have answer : (tree.erase key).result = decide (key ∈ map) := by
        rw [(erase_of_root held found).1, decide_eq_true (agrees.mem_of_found found)]
      rcases erase_keeps agrees.sound found with ⟨sound, changed⟩
      exact ⟨answer ▸ .erased, agrees.erase sound changed⟩

/-- A request keeps a tree and a reference in agreement, and its answer conforms. -/
theorem perform (agrees : Agrees tree map) (request : Request) :
    ∃ next, tree.Conforms map request (tree.perform request).2 next ∧
      Agrees (tree.perform request).1 next := by
  cases request with
  | insert key value allowance => exact agrees.insertWithin key value allowance
  | update key value => exact ⟨_, agrees.update key value⟩
  | erase key => exact ⟨_, agrees.remove key⟩
  | lookup key =>
      refine ⟨map, ?_, agrees⟩
      rw [Tree.perform, agrees.same]
      exact .lookedUp
  | size =>
      refine ⟨map, ?_, agrees⟩
      rw [Tree.perform, agrees.size_eq]
      exact .counted
  | isEmpty =>
      have answer : tree.isEmpty = decide (map.size = 0) := by
        rw [Bool.eq_iff_iff, isEmpty_iff agrees.sound, agrees.size_eq, decide_eq_true_iff]
      refine ⟨map, ?_, agrees⟩
      rw [Tree.perform, answer]
      exact .tested
  | forEach =>
      have seen : tree.forEach (fun seen key value => seen ++ [(key, value)]) [] = tree.toList := by
        rw [forEach_eq_foldl]
        exact List.foldl_append_eq_append.trans (List.flatMap_singleton' tree.toList)
      refine ⟨map, ?_, agrees⟩
      rw [Tree.perform, seen]
      exact .visited agrees.listing
  | toList => exact ⟨map, .listed agrees.listing, agrees⟩

end Agrees

/-- Whatever is asked of a new tree, its answers are those of a reference that begins empty.
Under a limit and where the system refuses, they differ from it in the refusals alone, each of
which has its cause. -/
theorem calls_conform (limit? : Option Nat) (requests : List Request) :
    ∃ map, Conforming (empty limit?) ∅ ((empty limit?).calls requests) map := by
  have run : forall {tree : Tree} {map : Reference}, Agrees tree map ->
      ∃ last, Conforming tree map (tree.calls requests) last := by
    induction requests with
    | nil => exact fun {tree map} _ => ⟨map, .done tree map⟩
    | cons request rest inductionHypothesis =>
        intro tree map agrees
        rcases agrees.perform request with ⟨next, conforms, stillAgrees⟩
        rcases inductionHypothesis stillAgrees with ⟨last, conforming⟩
        exact ⟨last, .step conforms conforming⟩
  exact run (Agrees.empty limit?)

end Tree
end AdaptiveRadix
