import AdaptiveRadix.Proofs.Checked.Tree

namespace AdaptiveRadix

/-!
# Checked requests

Every request to a solvent tree goes through, as long as the pools that it leaves have
names enough; and since no name is ever given up, names that suffice after a run sufficed
all along.  The statistics and the dump are made from a walk through the whole tree.
-/

open Pools

namespace Tree

/-- The bytes of the nodes in use are a word. -/
def checkedStats (tree : Tree) : Checked Stats := do
  let walk ← tree.checkedVisits
  let levels ← walk.foldlM LevelTally.checkedNoted []
  let _ ← tree.checkedHeight
  ensure (tree.liveBytes < 2 ^ 64) .countOverflow
  return { tree.stats with levels := levels }

def checkedDump (tree : Tree) : Checked String := do
  let walk ← tree.checkedVisits
  return String.join ((tree.headline :: walk.map (Visit.line tree.pools)).map fun line => line ++ "\n")

def checkedPerform (tree : Tree) : Request -> Checked (Tree × Answer)
  | .insert key value allowance => do
      let outcome ← tree.checkedInsertWithin allowance key value
      return (outcome.state, .inserted outcome.result)
  | .update key value => do
      let updated ← tree.checkedUpdate key value
      return (updated.1, .value updated.2)
  | .erase key => do
      let outcome ← tree.checkedErase key
      return (outcome.state, .flag outcome.result)
  | .lookup key => do
      let found ← tree.checkedGet? key
      return (tree, .value found)
  | .size => return (tree, .count tree.size)
  | .isEmpty => return (tree, .flag tree.isEmpty)
  | .forEach => do
      let _ ← tree.checkedVisits
      return tree.perform .forEach
  | .toList => do
      let walk ← tree.checkedVisits
      return (tree, .bindings (walk.filterMap Visit.binding?))

variable {tree : Tree}

/-! ## Accounts of a whole tree -/

/-- Whatever is read off a tree is read off without a fault. -/
structure Legible (tree : Tree) : Prop where
  get? : forall key, tree.checkedGet? key = .ok (tree.get? key)
  height : tree.checkedHeight = .ok tree.height
  visits : tree.checkedVisits = .ok tree.visits
  stats : tree.checkedStats = .ok tree.stats
  dump : tree.checkedDump = .ok tree.dump

theorem Sound.legible (sound : tree.Sound) (named : tree.pools.Named) : tree.Legible where
  get? := checkedGet?_of_sound sound
  height := checkedHeight_of_sound sound
  visits := checkedVisits_of_sound sound
  stats := by
    have walked : Deepening ([] : List LevelTally).length tree.visits tree.height :=
      deepening_visits sound.toRooted
    have bytes : tree.liveBytes < 2 ^ 64 :=
      (liveBytes_lt sound.inventory.sound named).trans (by decide)
    rw [checkedStats, checkedVisits_of_sound sound, ok_bind,
      LevelTally.foldlM_checkedNoted walked, ok_bind, checkedHeight_of_sound sound, ok_bind,
      ensure_bind bytes]
    rfl
  dump := by
    rw [checkedDump, checkedVisits_of_sound sound, ok_bind]
    rfl

/-! ## Single requests -/

theorem checkedPerform_of_solvent (solvent : tree.Solvent) (request : Request)
    (named : (tree.perform request).1.pools.Named) :
    tree.checkedPerform request = .ok (tree.perform request) := by
  have sound := solvent.sound
  cases request with
  | insert key value allowance =>
      rw [checkedPerform, checkedInsertWithin_of_solvent solvent allowance key value named, ok_bind]
      rfl
  | update key value =>
      rw [checkedPerform, checkedUpdate_of_sound sound, ok_bind]
      rfl
  | erase key =>
      rw [checkedPerform, checkedErase_of_sound sound, ok_bind]
      rfl
  | lookup key =>
      rw [checkedPerform, checkedGet?_of_sound sound, ok_bind]
      rfl
  | size | isEmpty => rfl
  | forEach | toList =>
      rw [checkedPerform, checkedVisits_of_sound sound, ok_bind]
      rfl

/-! ## Runs -/

/-- The moves of a run of requests. -/
def movesOf (tree : Tree) : List Request -> List Move
  | [] => []
  | request :: rest => tree.moves request ++ (tree.perform request).1.movesOf rest

theorem performAll_movesOf (tree : Tree) (requests : List Request) :
    tree.pools.performAll (tree.movesOf requests) = (tree.after requests).pools := by
  induction requests generalizing tree with
  | nil => rfl
  | cons request rest inductionHypothesis =>
      rw [movesOf, performAll_append, performAll_moves, inductionHypothesis]
      rfl

/-- One tree becomes another by a run of requests. -/
def Leads (before after : Tree) : Prop :=
  ∃ requests, before.after requests = after

namespace Leads

variable {before middle after : Tree}

theorem refl (tree : Tree) : Leads tree tree :=
  ⟨[], rfl⟩

theorem single (tree : Tree) (request : Request) : Leads tree (tree.perform request).1 :=
  ⟨[request], rfl⟩

theorem trans (first : Leads before middle) (second : Leads middle after) : Leads before after := by
  rcases first with ⟨requests, rfl⟩
  rcases second with ⟨others, rfl⟩
  exact ⟨requests ++ others, List.foldl_append⟩

theorem solvent (leads : Leads before after) (solvent : before.Solvent) : after.Solvent := by
  rcases leads with ⟨requests, rfl⟩
  exact solvent_after solvent requests

/-- Names that suffice after a run sufficed before it. -/
theorem named (leads : Leads before after) (named : after.pools.Named) : before.pools.Named := by
  rcases leads with ⟨requests, rfl⟩
  rw [← performAll_movesOf] at named
  exact named.of_performAll

end Leads

/-- After a run there are names enough exactly if at no moment of it more nodes of one pool
were in use than there are names. -/
theorem named_after_iff (limit? : Option Nat) (requests : List Request) :
    ((empty limit?).after requests).pools.Named ↔
      forall first, first <+: (empty limit?).movesOf requests ->
        forall pool, (Pools.empty.performAll first).liveNodes pool ≤ Slab.mostSlots := by
  have named : Pools.empty.Named := by
    intro pool
    rw [slab_empty]
    exact Nat.zero_le _
  rw [← performAll_movesOf]
  exact named_performAll_iff Pools.sound_empty named

/-- The final state of a run of requests. -/
theorem served_perform (tree : Tree) (requests : List Request) :
    (served perform tree requests).1 = tree.after requests := by
  induction requests generalizing tree with
  | nil => rfl
  | cons request rest inductionHypothesis => exact inductionHypothesis (tree.perform request).1

/-- A run from a solvent tree meets no fault. -/
theorem checkedServed_of_solvent (solvent : tree.Solvent) (requests : List Request)
    (named : (tree.after requests).pools.Named) :
    checkedServed checkedPerform tree requests = .ok (served perform tree requests) := by
  rw [← served_perform] at named
  exact checkedServed_of_steps Solvent (fun tree => tree.pools.Named)
    (fun _ request solvent => solvent_perform solvent request)
    (fun _ request named => named_of_perform request named)
    (fun _ request solvent named => checkedPerform_of_solvent solvent request named) solvent named

end Tree
end AdaptiveRadix
