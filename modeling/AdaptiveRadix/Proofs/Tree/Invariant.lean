import AdaptiveRadix.Proofs.Pool.Room
import AdaptiveRadix.Proofs.Tree.Edges
import AdaptiveRadix.Proofs.Tree.Traversal
import AdaptiveRadix.Tree.Update

namespace AdaptiveRadix

/-!
# The invariant of trees

A sound tree has a root no higher than keys reach, a ceiling that says what fits below
it, and pools that have on record exactly the nodes that a walk from the root meets.
Each operation keeps a tree sound, and its lemma says in the same breath what it does
to the tree as a map.

The walk of a sound tree lists its map, so the count of keys follows every operation
as the length of that listing.
-/

namespace Subtree

variable {level : Nat} {top after : Subtree level} {key : Key}

/-- The value of a key in a tree with this top.  No key above the bound has one. -/
def boundedGet? (top : Subtree level) (key : Key) : Option UInt64 :=
  if Key.bound level < key then none else top.get? key

theorem boundedGet?_of_le (top : Subtree level) (fits : key ≤ Key.bound level) :
    top.boundedGet? key = top.get? key :=
  if_neg (UInt64.not_lt.mpr fits)

theorem boundedGet?_of_not_le (top : Subtree level) (outside : ¬ key ≤ Key.bound level) :
    top.boundedGet? key = none :=
  if_pos (UInt64.not_le.mp outside)

theorem le_bound_of_boundedGet? {value : UInt64} (found : top.boundedGet? key = some value) :
    key ≤ Key.bound level := by
  by_contra outside
  rw [boundedGet?_of_not_le top outside] at found
  cases found

/-- What is said up to the level of a top holds of whole keys. -/
private theorem boundedGet?_of_agree {result : Option UInt64} {rest : Key -> Option UInt64}
    (low : level ≤ Key.maxLevel) (fits : key ≤ Key.bound level)
    (found : forall other, after.get? other =
      if other.below level = key.below level then result else rest other) (other : Key) :
    after.boundedGet? other =
      if other = key then result else if Key.bound level < other then none else rest other := by
  by_cases inside : other ≤ Key.bound level
  · rw [boundedGet?_of_le after inside, if_neg (UInt64.not_lt.mpr inside), found]
    simp only [Key.below_inj_of_le low inside fits]
  · have different : other ≠ key := fun clash => inside (clash ▸ fits)
    rw [boundedGet?_of_not_le after inside, if_neg different, if_pos (UInt64.not_le.mp inside)]

theorem boundedGet?_of_binds {value : UInt64} (low : level ≤ Key.maxLevel)
    (fits : key ≤ Key.bound level) (binds : Binds top after key value) (other : Key) :
    after.boundedGet? other = if other = key then some value else top.boundedGet? other :=
  boundedGet?_of_agree low fits binds.found other

theorem boundedGet?_chain (key : Key) (value : UInt64) (pools : Pools) (other : Key) :
    (chain key value pools key.topLevel).1.boundedGet? other =
      if other = key then some value else none := by
  have found := boundedGet?_of_agree key.topLevel_le_maxLevel key.le_bound_topLevel
    (chain_keeps key value pools key.topLevel).2 other
  rw [ite_self] at found
  exact found

theorem boundedGet?_of_unbinds {after? : Option (Subtree level)} (low : level ≤ Key.maxLevel)
    (fits : key ≤ Key.bound level) (unbinds : Unbinds top after? key) (other : Key) :
    (after?.bind fun after => after.boundedGet? other) =
      if other = key then none else top.boundedGet? other := by
  cases after? with
  | some after => exact boundedGet?_of_agree low fits unbinds.found other
  | none =>
      by_cases inside : other ≤ Key.bound level
      · rw [boundedGet?_of_le top inside]
        have found := unbinds.found other
        simp only [Key.below_inj_of_le low inside fits] at found
        exact found
      · rw [boundedGet?_of_not_le top inside, ite_self, Option.bind_none]

/-- A raised top has the same keys: those that the new levels admit are all absent. -/
theorem boundedGet?_wrapped (sound : top.Sound) {rise : Nat} (low : level + rise ≤ Key.maxLevel)
    (pools : Pools) (key : Key) :
    (top.wrapped pools rise).1.boundedGet? key = top.boundedGet? key := by
  have lower : level ≤ Key.maxLevel := Nat.le_trans (Nat.le_add_right level rise) low
  by_cases inside : key ≤ Key.bound (level + rise)
  · rw [boundedGet?_of_le _ inside, (wrapped_keeps sound pools rise).2,
      (Key.below_eq_toNat_iff low).mpr inside]
    by_cases fits : key ≤ Key.bound level
    · rw [if_pos ((Key.below_eq_toNat_iff lower).mpr fits).symm, boundedGet?_of_le top fits]
    · rw [if_neg fun same => fits ((Key.below_eq_toNat_iff lower).mp same.symm),
        boundedGet?_of_not_le top fits]
  · have outside : ¬ key ≤ Key.bound level := fun fits =>
      inside (Key.le_bound_of_le (Nat.le_add_right level rise) low fits)
    rw [boundedGet?_of_not_le _ inside, boundedGet?_of_not_le top outside]

end Subtree

/-- A root at a level that keys reach, over nodes that are in order. -/
structure Root.Sound (root : Root) : Prop where
  low : root.level ≤ Key.maxLevel
  top : root.top.Sound

namespace Tree

/-- The nodes of a tree, each with the edge that leads to it. -/
def edges (tree : Tree) : List (Handle × Anchor) :=
  tree.root?.elim [] fun root => root.top.edges Anchor.root

/-- A root and the ceiling that belongs to it. -/
structure Rooted (tree : Tree) : Prop where
  sound : ∀ root ∈ tree.root?, root.Sound
  ceiling : tree.ceiling = tree.root?.elim 0 fun root => Key.bound root.level

/-- A rooted tree whose pools and whose count agree with its walk. -/
structure Sound (tree : Tree) : Prop extends Rooted tree where
  inventory : Inventory tree.pools tree.edges
  counted : tree.size = tree.toList.length

variable {tree : Tree} {root : Root} {key : Key}

theorem ceiling_of_root (rooted : tree.Rooted) (found : tree.root? = some root) :
    tree.ceiling = Key.bound root.level := by
  rw [rooted.ceiling, found, Option.elim_some]

theorem get?_of_root (rooted : tree.Rooted) (found : tree.root? = some root) (key : Key) :
    tree.get? key = root.top.boundedGet? key := by
  rw [get?, found, ceiling_of_root rooted found]
  rfl

theorem get?_of_none (found : tree.root? = none) (key : Key) : tree.get? key = none := by
  rw [get?, found]

theorem toList_of_root (found : tree.root? = some root) : tree.toList = root.top.bindings 0 0 := by
  rw [toList, visits, found]
  rfl

theorem toList_of_none (found : tree.root? = none) : tree.toList = [] := by
  rw [toList, visits, found]
  rfl

/-- The walk through a tree lists the map that a search reads. -/
theorem listing (rooted : tree.Rooted) : Listing tree.toList tree.get? := by
  cases found : tree.root? with
  | none =>
      rw [toList_of_none found, funext (get?_of_none found)]
      exact ⟨List.Pairwise.nil, by simp⟩
  | some root =>
      have sound := rooted.sound root found
      have listed := Subtree.listing sound.top sound.low 0 (Key.aligned_zero (root.level + 1))
      rw [toList_of_root found]
      convert listed using 1
      funext key
      rw [get?_of_root rooted found, Subtree.boundedGet?]
      simp only [← Key.le_bound_iff_above sound.low, ← UInt64.not_le, ite_not]

theorem isEmpty_iff (sound : tree.Sound) : tree.isEmpty = true ↔ tree.size = 0 := by
  rw [sound.counted, List.length_eq_zero_iff, isEmpty]
  cases found : tree.root? with
  | none => simp [toList_of_none found]
  | some root =>
      rw [toList_of_root found]
      simp [Subtree.bindings_ne_nil (sound.sound root found).top]

theorem sound_empty (limit? : Option Nat) : (empty limit?).Sound where
  sound := by
    intro root impossible
    cases impossible
  ceiling := rfl
  inventory := Inventory.empty
  counted := rfl

/-- A tree does not depend on how much room its pools have. -/
theorem Sound.roomier {pools : Pools} (sound : tree.Sound) (gained : tree.pools.Roomier pools) :
    ({ tree with pools := pools } : Tree).Sound where
  sound := sound.sound
  ceiling := sound.ceiling
  inventory := gained.inventory sound.inventory
  counted := sound.counted

/-! ## Changing one key -/

/-- One key has the given result afterwards, and every other key has what it had. -/
def Changed (before after : Tree) (key : Key) (result : Option UInt64) : Prop :=
  forall other, after.get? other = if other = key then result else before.get? other

variable {after : Tree} {value : UInt64}

private theorem Changed.listing {result : Option UInt64} (changed : Changed tree after key result)
    (rooted : after.Rooted) :
    Listing after.toList fun other => if other = key then result else tree.get? other :=
  funext changed ▸ Tree.listing rooted

/-- A tree with a key has a root, below which the key fits. -/
theorem exists_root (rooted : tree.Rooted) {old : UInt64}
    (found : tree.get? key = some old) :
    ∃ root, tree.root? = some root ∧ key ≤ Key.bound root.level ∧ root.top.get? key = some old := by
  cases held : tree.root? with
  | none =>
      rw [get?_of_none held] at found
      cases found
  | some root =>
      rw [get?_of_root rooted held] at found
      have fits := Subtree.le_bound_of_boundedGet? found
      rw [Subtree.boundedGet?_of_le _ fits] at found
      exact ⟨root, rfl, fits, found⟩

theorem replace_of_root (held : tree.root? = some root) (key : Key) (value : UInt64) :
    tree.replace key value = { tree with root? := some ⟨root.level, root.top.replace key value⟩ } := by
  rw [replace, held]
  rfl

/-- Giving a key that is present another value keeps a tree sound. -/
theorem replace_keeps (sound : tree.Sound) {old : UInt64} (found : tree.get? key = some old)
    (value : UInt64) :
    (tree.replace key value).Sound ∧ Changed tree (tree.replace key value) key (some value) := by
  rcases exists_root sound.toRooted found with ⟨root, held, fits, below⟩
  rcases sound.sound root held with ⟨low, top⟩
  have binds := Subtree.replace_binds top below value
  have ceiling := sound.ceiling
  have edges : tree.edges = root.top.edges Anchor.root := by
    rw [Tree.edges, held]
    rfl
  rw [held] at ceiling
  rw [replace_of_root held]
  have rooted : Rooted { tree with root? := some ⟨root.level, root.top.replace key value⟩ } :=
    ⟨fun _ same => Option.some.inj same ▸ ⟨low, binds.sound⟩, ceiling⟩
  have changed : Changed tree { tree with root? := some ⟨root.level, root.top.replace key value⟩ }
      key (some value) := by
    intro other
    rw [get?_of_root rooted rfl, get?_of_root sound.toRooted held]
    exact Subtree.boundedGet?_of_binds low fits binds other
  refine ⟨⟨rooted, ?_, ?_⟩, changed⟩
  · have inventory := sound.inventory
    rw [edges] at inventory
    exact (Subtree.replace_value_exchange top below value tree.pools Anchor.root).whole inventory
  · rw [(listing sound.toRooted).length_replace (changed.listing rooted) found]
    exact sound.counted

theorem added_of_none (held : tree.root? = none) (key : Key) (value : UInt64) :
    (tree.added key value).1 = { tree with
      root? := some ⟨key.topLevel, (Subtree.chain key value tree.pools key.topLevel).1⟩
      ceiling := Key.bound key.topLevel
      pools := (Subtree.chain key value tree.pools key.topLevel).2
      size := tree.size + 1 } := by
  simp only [added, held]

private theorem added_first_keeps (sound : tree.Sound) (held : tree.root? = none) (key : Key)
    (value : UInt64) :
    (tree.added key value).1.Sound ∧ Changed tree (tree.added key value).1 key (some value) := by
  have rooted : (tree.added key value).1.Rooted := by
    rw [added_of_none held]
    refine ⟨fun _ same => Option.some.inj same ▸ ⟨key.topLevel_le_maxLevel, ?_⟩, rfl⟩
    exact (Subtree.chain_keeps key value tree.pools key.topLevel).1
  have changed : Changed tree (tree.added key value).1 key (some value) := by
    intro other
    rw [get?_of_root rooted (by rw [added_of_none held]), get?_of_none held]
    exact Subtree.boundedGet?_chain key value tree.pools other
  refine ⟨⟨rooted, ?_, ?_⟩, changed⟩
  · have inventory := sound.inventory
    rw [edges, held] at inventory
    rw [added_of_none held]
    exact (Subtree.chain_exchange key value tree.pools key.topLevel).whole inventory
  · rw [(listing sound.toRooted).length_insert (changed.listing rooted) (get?_of_none held key),
      added_of_none held, ← sound.counted]

/-- The root under which a key fits, raised if it has to be, and the ledger then. -/
def raisedFor (tree : Tree) (root : Root) (key : Key) : Root × Ledger :=
  if tree.ceiling < key then root.raised key.topLevel ⟨tree.pools, []⟩ else (root, ⟨tree.pools, []⟩)

theorem added_eq_of_root (held : tree.root? = some root) (key : Key) (value : UInt64) :
    tree.added key value =
      let tall := tree.raisedFor root key
      let grown := tall.1.top.insert key value tall.2
      ({ tree with
          root? := some ⟨tall.1.level, grown.1⟩
          ceiling := if tree.ceiling < key then Key.bound key.topLevel else tree.ceiling
          pools := grown.2.pools
          size := tree.size + 1 }, grown.2.events) := by
  simp only [added, held, raisedFor]

theorem added_of_root (held : tree.root? = some root) (key : Key) (value : UInt64) :
    (tree.added key value).1 =
      let tall := tree.raisedFor root key
      let grown := tall.1.top.insert key value tall.2
      { tree with
        root? := some ⟨tall.1.level, grown.1⟩
        ceiling := if tree.ceiling < key then Key.bound key.topLevel else tree.ceiling
        pools := grown.2.pools
        size := tree.size + 1 } :=
  congrArg Prod.fst (added_eq_of_root held key value)

/-- A key above the ceiling wants a root above the one there is. -/
theorem level_lt_topLevel (rooted : tree.Rooted) (held : tree.root? = some root)
    (tooLow : tree.ceiling < key) : root.level < key.topLevel :=
  (Key.bound_lt_iff (rooted.sound root held).low).mp (ceiling_of_root rooted held ▸ tooLow)

/-- A key below the ceiling wants no higher root than there is. -/
theorem topLevel_le_level (rooted : tree.Rooted) (held : tree.root? = some root)
    (fits : ¬ tree.ceiling < key) : key.topLevel ≤ root.level :=
  (Key.le_bound_iff (rooted.sound root held).low).mp
    (ceiling_of_root rooted held ▸ UInt64.not_lt.mp fits)

/-- A root with the keys of another, under which a key fits. -/
structure Fitting (tree : Tree) (root : Root) (key : Key) (tall : Root × Ledger) : Prop where
  sound : tall.1.Sound
  fits : key ≤ Key.bound tall.1.level
  ceiling : (if tree.ceiling < key then Key.bound key.topLevel else tree.ceiling) =
    Key.bound tall.1.level
  same : forall other, tall.1.top.boundedGet? other = root.top.boundedGet? other
  exchange : Exchange tree.pools tall.2.pools (root.top.edges Anchor.root)
    (tall.1.top.edges Anchor.root)

theorem fitting_raisedFor (rooted : tree.Rooted) (held : tree.root? = some root) (key : Key) :
    Fitting tree root key (tree.raisedFor root key) := by
  rcases rooted.sound root held with ⟨low, top⟩
  have ceiling := ceiling_of_root rooted held
  by_cases tooLow : tree.ceiling < key
  · rw [raisedFor, if_pos tooLow]
    have lower := level_lt_topLevel rooted held tooLow
    have rise : root.level + (key.topLevel - root.level) = key.topLevel := by omega
    have high : root.level + (key.topLevel - root.level) ≤ Key.maxLevel :=
      rise.trans_le key.topLevel_le_maxLevel
    refine ⟨⟨high, (Subtree.wrapped_keeps top tree.pools _).1⟩, ?_, ?_, ?_, ?_⟩
    · show key ≤ Key.bound (root.level + (key.topLevel - root.level))
      rw [rise]
      exact key.le_bound_topLevel
    · show _ = Key.bound (root.level + (key.topLevel - root.level))
      rw [if_pos tooLow, rise]
    · exact Subtree.boundedGet?_wrapped top high tree.pools
    · exact Subtree.wrapped_exchange root.top tree.pools _
  · rw [raisedFor, if_neg tooLow]
    refine ⟨⟨low, top⟩, ?_, ?_, fun _ => rfl, Exchange.refl _ _⟩
    · exact ceiling ▸ UInt64.not_lt.mp tooLow
    · rw [if_neg tooLow, ceiling]

/-- A root that is raised is raised to where the new key needs it. -/
theorem level_raisedFor (rooted : tree.Rooted) (held : tree.root? = some root) (key : Key) :
    (tree.raisedFor root key).1.level = if tree.ceiling < key then key.topLevel else root.level := by
  by_cases tooLow : tree.ceiling < key
  · rw [raisedFor, if_pos tooLow, if_pos tooLow]
    exact Nat.add_sub_of_le (level_lt_topLevel rooted held tooLow).le
  · rw [raisedFor, if_neg tooLow, if_neg tooLow]

/-- A key that a tree lacks is absent below the root that it fits under. -/
theorem get?_raisedFor (rooted : tree.Rooted) (held : tree.root? = some root)
    (missed : tree.get? key = none) : (tree.raisedFor root key).1.top.get? key = none := by
  have fitting := fitting_raisedFor rooted held key
  rw [get?_of_root rooted held, ← fitting.same] at missed
  exact (Subtree.boundedGet?_of_le _ fitting.fits).symm.trans missed

private theorem added_below_keeps (sound : tree.Sound) (held : tree.root? = some root)
    (missed : tree.get? key = none) (value : UInt64) :
    (tree.added key value).1.Sound ∧ Changed tree (tree.added key value).1 key (some value) := by
  have fitting := fitting_raisedFor sound.toRooted held key
  let tall := tree.raisedFor root key
  have absent : tall.1.top.get? key = none := get?_raisedFor sound.toRooted held missed
  have binds := Subtree.insert_binds fitting.sound.top absent value tall.2
  have rooted : (tree.added key value).1.Rooted := by
    rw [added_of_root held]
    exact ⟨fun _ same => Option.some.inj same ▸ ⟨fitting.sound.low, binds.sound⟩, fitting.ceiling⟩
  have changed : Changed tree (tree.added key value).1 key (some value) := by
    intro other
    rw [get?_of_root rooted (by rw [added_of_root held]), get?_of_root sound.toRooted held,
      ← fitting.same]
    exact Subtree.boundedGet?_of_binds fitting.sound.low fitting.fits binds other
  refine ⟨⟨rooted, ?_, ?_⟩, changed⟩
  · have inventory := sound.inventory
    rw [edges, held] at inventory
    rw [added_of_root held]
    have grown := Subtree.insert_exchange fitting.sound.top absent value tall.2 Anchor.root
    exact (fitting.exchange.trans grown).whole inventory
  · rw [(listing sound.toRooted).length_insert (changed.listing rooted) missed, added_of_root held,
      ← sound.counted]

/-- Adding a key that is absent keeps a tree sound. -/
theorem added_keeps (sound : tree.Sound) (missed : tree.get? key = none) (value : UInt64) :
    (tree.added key value).1.Sound ∧ Changed tree (tree.added key value).1 key (some value) := by
  cases held : tree.root? with
  | none => exact added_first_keeps sound held key value
  | some root => exact added_below_keeps sound held missed value

/-! ## Removing a key -/

theorem erase_of_get?_none (missed : tree.get? key = none) : tree.erase key = ⟨tree, false, []⟩ := by
  rw [erase, missed]
  cases tree.root? <;> rfl

theorem erase_of_root (held : tree.root? = some root) {old : UInt64}
    (found : tree.get? key = some old) :
    (tree.erase key).result = true ∧ (tree.erase key).state = { tree with
      root? := (root.top.erase key tree.pools).1.map fun top => ⟨root.level, top⟩
      ceiling := if (root.top.erase key tree.pools).1.isNone then 0 else tree.ceiling
      pools := (root.top.erase key tree.pools).2
      size := tree.size - 1 } := by
  simp only [erase, held, found, and_self]

/-- Removing a key that is present keeps a tree sound. -/
theorem erase_keeps (sound : tree.Sound) {old : UInt64} (found : tree.get? key = some old) :
    (tree.erase key).state.Sound ∧ Changed tree (tree.erase key).state key none := by
  rcases exists_root sound.toRooted found with ⟨root, held, fits, below⟩
  rcases sound.sound root held with ⟨low, top⟩
  have unbinds := Subtree.erase_unbinds top below tree.pools
  have exchange := Subtree.erase_exchange top below tree.pools Anchor.root
  have looked := Subtree.boundedGet?_of_unbinds low fits unbinds
  have state := (erase_of_root held found).2
  have ceiling := ceiling_of_root sound.toRooted held
  have inventory := sound.inventory
  rw [edges, held] at inventory
  have rooted : (tree.erase key).state.Rooted := by
    rw [state]
    cases left : (root.top.erase key tree.pools).1 with
    | none => exact ⟨by simp, rfl⟩
    | some smaller =>
        refine ⟨fun _ same => Option.some.inj same ▸ ⟨low, unbinds.sound smaller left⟩, ?_⟩
        simp [ceiling]
  have changed : Changed tree (tree.erase key).state key none := by
    intro other
    rw [get?_of_root sound.toRooted held, ← looked]
    cases left : (root.top.erase key tree.pools).1 with
    | none => exact get?_of_none (by simp [state, left]) other
    | some smaller =>
        have rest : (tree.erase key).state.root? = some ⟨root.level, smaller⟩ := by
          simp [state, left]
        exact get?_of_root rooted rest other
  refine ⟨⟨rooted, ?_, ?_⟩, changed⟩
  · have whole := exchange.whole inventory
    rw [state]
    cases left : (root.top.erase key tree.pools).1 with
    | none => simpa [edges, Subtree.edges?, left] using whole
    | some smaller => simpa [edges, Subtree.edges?, left] using whole
  · have lost := (listing sound.toRooted).length_erase (changed.listing rooted) found
    rw [← sound.counted] at lost
    rw [state] at lost ⊢
    exact Nat.sub_eq_of_eq_add lost

end Tree
end AdaptiveRadix
