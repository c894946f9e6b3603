import AdaptiveRadix.Benchmark.Workload
import AdaptiveRadix.Proofs.Tree.Accounts
import AdaptiveRadix.Proofs.Tree.Granted

namespace AdaptiveRadix

/-!
# Indexes as maps

What the three kinds of index have in common is all that loading needs: an insertion
changes the value of one key.  The radix tree has no limit, so it never refuses one,
and it keeps count of its keys.
-/

namespace Tree

variable {tree : Tree} {key : Key}

/-- Without a limit every key is bound that is to be. -/
theorem changed_insert (sound : tree.Sound) (unlimited : tree.limit? = none) (key : Key)
    (value : UInt64) :
    (tree.insert key value).state.Sound ∧
      Changed tree (tree.insert key value).state key (some value) := by
  cases settled tree key value with
  | present found does =>
      rw [does]
      exact replace_keeps sound found value
  | excess missed limited => exact absurd (limited.symm.trans unlimited) (Option.some_ne_none _)
  | fits missed fits does =>
      have roomy : (tree.roomyFor key).Sound := sound.roomier (Pools.roomier_roomFor _ _)
      rw [does]
      exact added_keeps roomy missed value

theorem limit?_insert (tree : Tree) (key : Key) (value : UInt64) :
    (tree.insert key value).state.limit? = tree.limit? :=
  limit?_perform tree (.insert key value none)

theorem size_added (tree : Tree) (key : Key) (value : UInt64) :
    (tree.added key value).1.size = tree.size + 1 := by
  rw [added]
  split <;> rfl

/-- A key that was not there is counted once. -/
theorem size_insert_of_missed (unlimited : tree.limit? = none) (missed : tree.get? key = none)
    (value : UInt64) : (tree.insert key value).state.size = tree.size + 1 := by
  have fits : ∀ limit ∈ tree.limit?,
      ¬ tree.pools.available limit < (tree.placement key).demand.bytes := by
    intro limit limited
    exact absurd (limited.symm.trans unlimited) (Option.some_ne_none limit)
  rw [insert_of_fits missed fits]
  exact size_added (tree.roomyFor key) key value

end Tree

namespace Benchmark
namespace Index

variable {index : Index} {key : Key}

/-- The radix tree among the indexes is sound and has no limit. -/
def Sound : Index -> Prop
  | radix tree => tree.Sound ∧ tree.limit? = none
  | ordered _ | hashed _ => True

theorem sound_empty (kind : IndexKind) : (empty kind).Sound := by
  cases kind with
  | radix => exact ⟨Tree.sound_empty none, rfl⟩
  | ordered | hashed => trivial

theorem sound_insert (sound : index.Sound) (key : Key) (value : UInt64) :
    (index.insert key value).Sound := by
  cases index with
  | radix tree =>
      exact ⟨(Tree.changed_insert sound.1 sound.2 key value).1,
        (Tree.limit?_insert tree key value).trans sound.2⟩
  | ordered | hashed => trivial

/-- Whatever the kind of index, an insertion changes the value of one key. -/
theorem get?_insert (sound : index.Sound) (key : Key) (value : UInt64) (other : Key) :
    (index.insert key value).get? other = if other = key then some value else index.get? other := by
  cases index with
  | radix tree => exact (Tree.changed_insert sound.1 sound.2 key value).2 other
  | ordered map =>
      simp only [insert, get?, Std.TreeMap.getElem?_insert, Std.LawfulEqCmp.compare_eq_iff_eq]
      simp only [eq_comm]
  | hashed map =>
      simp only [insert, get?, Std.HashMap.getElem?_insert, beq_iff_eq]
      simp only [eq_comm]

/-- The entries that an index reports, if it reports any. -/
def entries? (index : Index) : Option Nat :=
  index.stats?.map Stats.entries

theorem entries?_insert_of_missed (sound : index.Sound) (missed : index.get? key = none)
    (value : UInt64) : (index.insert key value).entries? = index.entries?.map (· + 1) := by
  cases index with
  | radix tree => exact congrArg some (Tree.size_insert_of_missed sound.2 missed value)
  | ordered | hashed => rfl

end Index
end Benchmark
end AdaptiveRadix
