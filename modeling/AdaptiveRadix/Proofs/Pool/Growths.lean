import AdaptiveRadix.Proofs.Pool.Moves

namespace AdaptiveRadix

/-!
# Requests for room

A reservation goes through the pools once, and each pool that has to grow makes one
request.  A pool that has grown does not have to grow again for the same demand, and
growing one pool leaves the others as they are.  So the pools that have to grow, in
their order, say all there is to say: a reservation grows the first of them, as many as
the system grants, and what is then left to grow is the rest of them.

Room is gained by requests alone.  The other dealings with the pools keep it.
-/

namespace Allowance

variable {α : Type}

/-- The requests that are granted out of those that would be made. -/
def granted : Allowance -> List α -> List α
  | none, wanted => wanted
  | some most, wanted => wanted.take most

/-- Whether as many requests as that are granted. -/
def covers : Allowance -> Nat -> Bool
  | none, _ => true
  | some most, requests => requests ≤ most

theorem granted_nil (allowance : Allowance) : allowance.granted ([] : List α) = [] := by
  cases allowance with
  | none => rfl
  | some most => exact List.take_nil

theorem covers_zero (allowance : Allowance) : allowance.covers 0 = true := by
  cases allowance with
  | none => rfl
  | some most => exact decide_eq_true (Nat.zero_le most)

theorem covers_eq_false_iff {allowance : Allowance} {requests : Nat} :
    allowance.covers requests = false ↔ ∃ most ∈ allowance, most < requests := by
  cases allowance <;> simp [covers]

theorem granted_cons {allowance : Allowance} (more : allowance ≠ some 0) (first : α)
    (rest : List α) :
    allowance.granted (first :: rest) = first :: Allowance.granted (allowance.map (· - 1)) rest := by
  rcases allowance with _ | _ | most
  · rfl
  · exact absurd rfl more
  · rfl

theorem covers_succ {allowance : Allowance} (more : allowance ≠ some 0) (requests : Nat) :
    allowance.covers (requests + 1) = Allowance.covers (allowance.map (· - 1)) requests := by
  rcases allowance with _ | _ | most
  · rfl
  · exact absurd rfl more
  · simp [covers]

theorem granted_of_covers {allowance : Allowance} {wanted : List α}
    (covered : allowance.covers wanted.length = true) : allowance.granted wanted = wanted := by
  cases allowance with
  | none => rfl
  | some most => exact List.take_of_length_le (of_decide_eq_true covered)

theorem granted_prefix (allowance : Allowance) (wanted : List α) :
    allowance.granted wanted <+: wanted := by
  cases allowance with
  | none => exact List.prefix_refl wanted
  | some most => exact List.take_prefix most wanted

end Allowance

namespace Slab

variable {α : Type}

/-- A slab that has to grow gains room. -/
theorem capacity_lt_grown {slab : Slab α} {wanted : Nat} (grows : slab.mustGrow wanted = true)
    (least : Nat) : slab.capacity < (slab.grown wanted least).capacity := by
  have short := of_decide_eq_true grows
  simp only [Slab.grown]
  omega

theorem pos_of_mustGrow {slab : Slab α} {wanted : Nat} (grows : slab.mustGrow wanted = true) :
    0 < wanted := by
  have short := of_decide_eq_true grows
  simp only [shortfall] at short
  omega

end Slab

namespace Pools

/-- The pools that have to grow for a demand, in the order in which they ask. -/
def growing (pools : Pools) (demand : Demand) (order : List PoolId) : List PoolId :=
  order.filter fun pool => (pools.slab pool).mustGrow (demand.count pool)

/-- The pools once the listed ones have grown for a demand. -/
def grownAll (pools : Pools) (demand : Demand) (listed : List PoolId) : Pools :=
  listed.foldl (fun pools pool => pools.grown pool (demand.count pool)) pools

variable {pools : Pools} {demand : Demand} {order : List PoolId}

theorem mem_growing {pool : PoolId} :
    pool ∈ pools.growing demand order ↔
      pool ∈ order ∧ (pools.slab pool).mustGrow (demand.count pool) = true :=
  List.mem_filter

theorem roomier_grownAll (pools : Pools) (demand : Demand) (listed : List PoolId) :
    Roomier pools (pools.grownAll demand listed) := by
  induction listed generalizing pools with
  | nil => exact Roomier.refl pools
  | cons pool rest inductionHypothesis =>
      exact (roomier_grown pools pool (demand.count pool)).trans (inductionHypothesis _)

theorem slab_grownAll_of_not_mem {pool : PoolId} {listed : List PoolId} (other : pool ∉ listed) :
    (pools.grownAll demand listed).slab pool = pools.slab pool := by
  induction listed generalizing pools with
  | nil => rfl
  | cons first rest inductionHypothesis =>
      have different : first ≠ pool := (List.ne_of_not_mem_cons other).symm
      exact (inductionHypothesis (List.not_mem_of_not_mem_cons other)).trans
        (slab_grown_of_ne pools _ different)

theorem slab_grownAll_of_mem {pool : PoolId} {listed : List PoolId} (distinct : listed.Nodup)
    (mem : pool ∈ listed) :
    (pools.grownAll demand listed).slab pool =
      (pools.slab pool).grown (demand.count pool) pool.leastCapacity := by
  induction listed generalizing pools with
  | nil => cases mem
  | cons first rest inductionHypothesis =>
      rcases List.nodup_cons.mp distinct with ⟨fresh, distinctRest⟩
      rcases List.mem_cons.mp mem with same | later
      · subst pool
        exact (slab_grownAll_of_not_mem fresh).trans (slab_grown_self pools first _)
      · have different : first ≠ pool := fun same => fresh (same ▸ later)
        exact (inductionHypothesis distinctRest later).trans
          (congrArg (fun slab : Slab Anchor => slab.grown _ _) (slab_grown_of_ne pools _ different))

/-- Growing one pool does not change which of the others have to grow. -/
private theorem growing_grown {pool : PoolId} (other : pool ∉ order) (wanted : Nat) :
    (pools.grown pool wanted).growing demand order = pools.growing demand order := by
  apply List.filter_congr
  intro listed mem
  have different : pool ≠ listed := fun same => other (same ▸ mem)
  rw [slab_grown_of_ne pools wanted different]

/-- A reservation grows the first of the pools that have to grow, as many as are granted, and
is met if those are all. -/
theorem grownFor_eq (distinct : order.Nodup) (allowance : Allowance) :
    pools.grownFor demand order allowance =
      (pools.grownAll demand (allowance.granted (pools.growing demand order)),
        allowance.covers (pools.growing demand order).length) := by
  induction order generalizing pools allowance with
  | nil =>
      rw [growing, List.filter_nil, Allowance.granted_nil, List.length_nil, allowance.covers_zero]
      rfl
  | cons pool rest inductionHypothesis =>
      rcases List.nodup_cons.mp distinct with ⟨other, distinctRest⟩
      rw [grownFor]
      by_cases grows : (pools.slab pool).mustGrow (demand.count pool) = true
      · have split : pools.growing demand (pool :: rest) = pool :: pools.growing demand rest :=
          List.filter_cons_of_pos grows
        rw [if_pos grows, split, List.length_cons]
        by_cases stopped : allowance = some 0
        · rw [if_pos stopped, stopped]
          rfl
        · rw [if_neg stopped, inductionHypothesis distinctRest, growing_grown other,
            Allowance.granted_cons stopped, Allowance.covers_succ stopped]
          rfl
      · have skipped : pools.growing demand (pool :: rest) = pools.growing demand rest :=
          List.filter_cons_of_neg grows
        rw [if_neg grows, skipped]
        exact inductionHypothesis distinctRest allowance

private theorem filter_mem_append {listed rest : List PoolId} (distinct : (listed ++ rest).Nodup) :
    (listed ++ rest).filter (fun pool => pool ∈ listed) = listed := by
  have apart := (List.nodup_append.mp distinct).2.2
  have all : listed.filter (fun pool => pool ∈ listed) = listed :=
    List.filter_eq_self.mpr fun pool mem => decide_eq_true mem
  have none : rest.filter (fun pool => pool ∈ listed) = [] := by
    rw [List.filter_eq_nil_iff]
    intro pool mem listedToo
    exact apart pool (of_decide_eq_true listedToo) pool mem rfl
  rw [List.filter_append, all, none, List.append_nil]

private theorem filter_not_mem_append {listed rest : List PoolId}
    (distinct : (listed ++ rest).Nodup) :
    (listed ++ rest).filter (fun pool => pool ∉ listed) = rest := by
  have apart := (List.nodup_append.mp distinct).2.2
  have none : listed.filter (fun pool => pool ∉ listed) = [] := by
    rw [List.filter_eq_nil_iff]
    intro pool mem absent
    exact of_decide_eq_true absent mem
  have all : rest.filter (fun pool => pool ∉ listed) = rest := by
    rw [List.filter_eq_self]
    intro pool mem
    exact decide_eq_true fun listedToo => apart pool listedToo pool mem rfl
  rw [List.filter_append, none, all, List.nil_append]

/-- What is left to grow is what did not grow. -/
theorem growing_grownAll (distinct : order.Nodup) {listed rest : List PoolId}
    (split : pools.growing demand order = listed ++ rest) :
    (pools.grownAll demand listed).growing demand order = rest := by
  have distinctGrowing : (listed ++ rest).Nodup := split ▸ distinct.filter _
  have distinctListed := (List.nodup_append.mp distinctGrowing).1
  have left : (pools.grownAll demand listed).growing demand order =
      (pools.growing demand order).filter fun pool => pool ∉ listed := by
    rw [growing, growing, List.filter_filter]
    apply List.filter_congr
    intro pool _
    by_cases mem : pool ∈ listed
    · rw [slab_grownAll_of_mem distinctListed mem, Slab.mustGrow_grown]
      simp [mem]
    · rw [slab_grownAll_of_not_mem mem]
      simp [mem]
  rw [left, split]
  exact filter_not_mem_append distinctGrowing

/-! ## Room gained -/

/-- The pools that have more room in the second than in the first. -/
def gained (before after : Pools) : List PoolId :=
  PoolId.all.toList.filter fun pool => (before.slab pool).capacity < (after.slab pool).capacity

theorem nodup_all : PoolId.all.toList.Nodup := by
  decide

theorem gained_of_kept {before after : Pools}
    (kept : forall pool, (after.slab pool).capacity = (before.slab pool).capacity) :
    before.gained after = [] := by
  rw [gained, List.filter_eq_nil_iff]
  intro pool _
  simp [kept pool]

/-- Room is gained in the pools that grew. -/
theorem gained_grownAll {listed : List PoolId}
    (first : listed <+: pools.growing demand PoolId.all.toList) :
    pools.gained (pools.grownAll demand listed) = listed := by
  rcases first with ⟨rest, split⟩
  have distinctGrowing : (listed ++ rest).Nodup := split.symm ▸ nodup_all.filter _
  have distinctListed := (List.nodup_append.mp distinctGrowing).1
  have grew : pools.gained (pools.grownAll demand listed) =
      (pools.growing demand PoolId.all.toList).filter fun pool => pool ∈ listed := by
    rw [gained, growing, List.filter_filter]
    apply List.filter_congr
    intro pool _
    by_cases mem : pool ∈ listed
    · have grows := (mem_growing.mp (split ▸ List.mem_append_left rest mem)).2
      rw [slab_grownAll_of_mem distinctListed mem]
      simp [mem, grows, Slab.capacity_lt_grown grows]
    · rw [slab_grownAll_of_not_mem mem]
      simp [mem]
  rw [grew, ← split]
  exact filter_mem_append distinctGrowing

/-! ## Moves that ask for nothing -/

theorem capacity_perform {move : Move} (modest : forall pool wanted, move ≠ .grow pool wanted)
    (pools : Pools) (pool : PoolId) :
    ((pools.perform move).slab pool).capacity = (pools.slab pool).capacity := by
  have moved := moved_perform pools move pool
  generalize (pools.perform move).slab pool = after at moved
  cases moved with
  | kept => rfl
  | grown wanted least => exact absurd rfl (modest pool wanted)
  | taken => exact Slab.capacity_take _ _
  | released slot => exact Slab.capacity_release _ slot
  | assigned _ _ slot anchor => exact Slab.capacity_assign _ slot anchor

end Pools

/-- No move among these asks for room. -/
def Modest (moves : List Move) : Prop :=
  ∀ move ∈ moves, forall pool wanted, move ≠ .grow pool wanted

namespace Modest

theorem append {first rest : List Move} (modestFirst : Modest first) (modestRest : Modest rest) :
    Modest (first ++ rest) := by
  intro move mem
  exact (List.mem_append.mp mem).elim (modestFirst move) (modestRest move)

theorem capacity_performAll {moves : List Move} (modest : Modest moves) (pools : Pools)
    (pool : PoolId) :
    ((pools.performAll moves).slab pool).capacity = (pools.slab pool).capacity := by
  induction moves generalizing pools with
  | nil => rfl
  | cons move rest inductionHypothesis =>
      have modestRest : Modest rest := fun later mem => modest later (List.mem_cons_of_mem move mem)
      rw [Pools.performAll_cons]
      exact (inductionHypothesis modestRest _).trans
        (Pools.capacity_perform (modest move List.mem_cons_self) pools pool)

end Modest
end AdaptiveRadix
