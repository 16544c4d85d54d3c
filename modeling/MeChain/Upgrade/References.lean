import MeChain.Upgrade.Stakes

/-!
# The records that name a validator, after `fixValidator`

Every stake, delegation, unbonding entry, redelegation, region and queue slot names its validator by
the operator address; the shares of a validator are those of the stakes that name it.  The loop
writes one stake per validator and deletes none.

* `Intact`       every name is that of a validator, the shares add up;
* `sharesAt_run` the shares under an address after a run in which nobody moves;
* `intact_iff`   the references survive exactly when no validator moves and the admin's stakes are
                 all there is.
-/

set_option linter.unusedSectionVars false

namespace MeChain
open Fallible

variable {Addr : Type} [SdkAddress Addr] [DecidableEq Addr]

def Stake.shareCount (st : Stake Addr) : ℤ := st.shares.getD 0

/-- the shares of the stakes recorded under an operator address -/
def StakingState.sharesAt (s : StakingState Addr) (op : Addr) : ℤ :=
  s.stakes.sum fun st => if st.validatorAddress = op then st.shareCount else 0

/-- those of them that are not the admin's -/
def StakingState.otherSharesAt (s : StakingState Addr) (adminAddr op : Addr) : ℤ :=
  s.stakes.sum fun st =>
    if st.validatorAddress = op ∧ st.stakerAddress ≠ adminAddr then st.shareCount else 0

structure Intact (s : StakingState Addr) : Prop where
  named : ∀ a ∈ s.references, a ∈ s.validators.keys
  shares : ∀ v ∈ s.validators.rows, v.stakerShares.getD 0 = s.sharesAt v.operatorAddress

instance (s : StakingState Addr) : Decidable (Intact s) :=
  decidable_of_iff ((∀ a ∈ s.references, a ∈ s.validators.keys) ∧
    ∀ v ∈ s.validators.rows, v.stakerShares.getD 0 = s.sharesAt v.operatorAddress)
    ⟨fun h => ⟨h.1, h.2⟩, fun h => ⟨h.1, h.2⟩⟩

/-! ## shares -/

theorem getD_scaled (x : Option ℤ) : (x.map fun a => 100 * a).getD 0 = 100 * x.getD 0 := by
  cases x with
  | none => rfl
  | some a => rfl

theorem sharesAt_eq (s : StakingState Addr) (adminAddr op : Addr) :
    s.sharesAt op
      = s.stakes.valueAt Stake.shareCount (adminAddr, op) + s.otherSharesAt adminAddr op := by
  rw [← Table.sum_single, StakingState.otherSharesAt, ← Table.sum_add]
  refine Table.sum_congr (fun st _ => ?_)
  unfold Stake.key
  by_cases hop : st.validatorAddress = op
  · by_cases had : st.stakerAddress = adminAddr
    · simp [hop, had]
    · simp [hop, had]
  · simp [hop]

theorem sum_at_validator {s : StakingState Addr} {u : Validator Addr} (hu : u ∈ s.validators.rows)
    (g : Validator Addr → ℤ) :
    (s.validators.rows.map fun v =>
      if v.operatorAddress = u.operatorAddress then g v else 0).sum = g u :=
  (Table.sum_single s.validators g u.operatorAddress).trans
    (Table.valueAt_some (Table.mem_rows_iff.mp hu))

variable {cfg : Config Addr} {s s' : App Addr} {adminAddr : Addr}

/-- when nobody moves, the admin's stake under an address is multiplied and the others are not -/
theorem sharesAt_run {s t : StakingState Addr} {u : Validator Addr}
    (h : ∀ f, t.stakes.sum f
      = s.stakes.sum f + copyGain f s adminAddr [] s.validators.rows)
    (hun : ∀ v ∈ s.validators.rows, newOperatorAddress v = v.operatorAddress)
    (hu : u ∈ s.validators.rows) :
    t.sharesAt u.operatorAddress = s.sharesAt u.operatorAddress
      + 99 * s.stakes.valueAt Stake.shareCount (adminAddr, u.operatorAddress) := by
  have hgain : ∀ v ∈ s.validators.rows,
      stakeValue (fun st => if (movedStake v st).validatorAddress = u.operatorAddress
          then (movedStake v st).shareCount else 0) (s.getStake adminAddr v.operatorAddress)
        - stakeValue (fun st => if st.validatorAddress = u.operatorAddress then st.shareCount else 0)
          (s.getStake adminAddr (newOperatorAddress v))
      = if v.operatorAddress = u.operatorAddress
        then 99 * s.stakes.valueAt Stake.shareCount (adminAddr, v.operatorAddress) else 0 := by
    intro v hv
    have hmoved (st : Stake Addr) : (movedStake v st).shareCount = 100 * st.shareCount :=
      getD_scaled st.shares
    have hval (st : Stake Addr) : (movedStake v st).validatorAddress = v.operatorAddress := hun v hv
    rw [hun v hv]
    cases hst : s.getStake adminAddr v.operatorAddress with
    | none =>
      rw [Table.valueAt_none hst, mul_zero, ite_self]
      rfl
    | some st =>
      rw [Table.valueAt_some hst]
      show (if (movedStake v st).validatorAddress = u.operatorAddress
        then (movedStake v st).shareCount else 0)
          - (if st.validatorAddress = u.operatorAddress then st.shareCount else 0) = _
      rw [hval, hmoved, getStake_validator hst]
      by_cases he : v.operatorAddress = u.operatorAddress
      · rw [if_pos he, if_pos he, if_pos he]
        omega
      · rw [if_neg he, if_neg he, if_neg he, sub_zero]
  have hno := Rekey.noCollision_of_unmoved s.validators.nodup hun
  rw [StakingState.sharesAt, h, copyGain_of_noCollision _ hno, List.map_congr_left hgain,
    sum_at_validator hu]
  rfl

/-! ## names -/

/-- the names in the records other than stakes -/
def StakingState.otherReferences (s : StakingState Addr) : List Addr :=
  s.unbondingStakes.rows.map UnbondingStake.validatorAddress ++
  s.delegations.rows.map Delegation.validatorAddress ++
  s.unbondingDelegations.rows.map UnbondingDelegation.validatorAddress ++
  s.redelegations.rows.map Redelegation.validatorSrcAddress ++
  s.redelegations.rows.map Redelegation.validatorDstAddress ++
  s.regions.rows.map Region.operatorAddress ++
  s.validatorQueue.rows.flatMap QueueSlot.addresses

theorem mem_references {s : StakingState Addr} {a : Addr} :
    a ∈ s.references ↔ (∃ st ∈ s.stakes.rows, st.validatorAddress = a) ∨ a ∈ s.otherReferences := by
  unfold StakingState.references StakingState.otherReferences
  simp only [List.mem_append, List.mem_map, or_assoc]

theorem SameRecords.otherReferences {s t : StakingState Addr} (h : SameRecords s t) :
    t.otherReferences = s.otherReferences := by
  rw [h]
  rfl

theorem named_run {s t : StakingState Addr} (h : Intact s) (hrec : SameRecords s t)
    (hstakes : StakesRun adminAddr s.validators.rows.reverse s t)
    (hrun : ValidatorRun s.validators.rows s t)
    (hun : ∀ v ∈ s.validators.rows, newOperatorAddress v = v.operatorAddress) :
    ∀ a ∈ t.references, a ∈ t.validators.keys := by
  have hno := Rekey.noCollision_of_unmoved s.validators.nodup hun
  have hkeys : ∀ a ∈ s.validators.keys, a ∈ t.validators.keys := by
    intro a ha
    obtain ⟨v, hv, rfl⟩ := List.mem_map.mp ha
    obtain ⟨owner, ho⟩ := hrun.moved hno hv
    rw [← hun v hv]
    exact List.mem_map_of_mem (f := Validator.operatorAddress) ho
  have hsame (st : Stake Addr) (hget : s.stakes.get st.key = some st) :
      st.validatorAddress ∈ t.validators.keys :=
    hkeys _ (h.named _ (mem_references.mpr (Or.inl ⟨st, Table.mem_of_get hget, rfl⟩)))
  intro a ha
  rcases mem_references.mp ha with ⟨st, hst, rfl⟩ | hother
  · have hget : t.stakes.get st.key = some st := Table.mem_rows_iff.mp hst
    by_cases had : st.stakerAddress = adminAddr
    · by_cases hw : ∃ v ∈ s.validators.rows, st.validatorAddress = newOperatorAddress v
      · obtain ⟨v, hv, hval⟩ := hw
        rw [hval, hun v hv]
        exact hkeys _ (List.mem_map_of_mem hv)
      · refine hsame st ?_
        have hadmin := hstakes.admin st.validatorAddress
        rw [copiedStake_of_free (fun v hv he => hw ⟨v, List.mem_reverse.mp hv, he⟩), ← had] at hadmin
        exact hadmin.symm.trans hget
    · exact hsame st ((hstakes.others st.key had).symm.trans hget)
  · rw [hrec.otherReferences] at hother
    exact hkeys a (h.named a (mem_references.mpr (Or.inr hother)))

/-- **The references survive exactly when nobody moves and nobody but the admin has shares.** -/
theorem intact_iff (hrm : cfg.RemovesKeys) (hadmin : cfg.getGlobalAdminAddr s = .ok adminAddr)
    (h : fixValidator cfg s = .ok s') (hpre : Intact s.staking) :
    Intact s'.staking ↔
    ∀ v ∈ s.staking.validators.rows, newOperatorAddress v = v.operatorAddress ∧
      s.staking.otherSharesAt adminAddr v.operatorAddress = 0 := by
  obtain ⟨admin', hadmin', hloop⟩ := fixValidator_ok h
  rw [hadmin] at hadmin'
  cases hadmin'
  have hrun := validators_run hrm hloop
  obtain ⟨hstakes, hsum⟩ := stakes_run hrm hloop
  -- when nobody moves, the shares of a validator and of its stakes differ by 99 times the others'
  have hshares (hun : ∀ v ∈ s.staking.validators.rows, newOperatorAddress v = v.operatorAddress)
      (v : Validator Addr) (hv : v ∈ s.staking.validators.rows) :
      (v.stakerShares.map fun a => 100 * a).getD 0 - s'.staking.sharesAt v.operatorAddress
        = 99 * s.staking.otherSharesAt adminAddr v.operatorAddress := by
    have hrunAt := sharesAt_run hsum hun hv
    have hsplit := sharesAt_eq s.staking adminAddr v.operatorAddress
    rw [getD_scaled, hpre.shares v hv]
    omega
  constructor
  · intro hpost
    have hun := Rekey.Run.unmoved hrun (fun v hv => by
      obtain ⟨st, hst, hk⟩ := List.mem_map.mp (admin_stakes_kept hrm hloop v hv)
      exact hpost.named _ (mem_references.mpr (Or.inl ⟨st, hst, congrArg Prod.snd hk⟩)))
    intro v hv
    refine ⟨hun v hv, ?_⟩
    obtain ⟨owner, ho⟩ := hrun.moved (Rekey.noCollision_of_unmoved s.staking.validators.nodup hun) hv
    have hpostAt := hpost.shares _ ho
    have hdiff := hshares hun v hv
    change (v.stakerShares.map fun a => 100 * a).getD 0
      = s'.staking.sharesAt (newOperatorAddress v) at hpostAt
    rw [hun v hv] at hpostAt
    omega
  · intro hcond
    have hun := fun v hv => (hcond v hv).1
    obtain ⟨_, _, hrec, _⟩ := fixValidator_frame hrm hloop
    refine ⟨named_run hpre hrec hstakes hrun hun, fun w hw => ?_⟩
    obtain ⟨v, hv, owner, rfl⟩ := Rekey.Run.exists_survivor hrun MovedFrom.operatorAddress hw
    have hv' := (Rekey.survivors_sublist _).subset hv
    have hdiff := hshares hun v hv'
    rw [(hcond v hv').2] at hdiff
    show (v.stakerShares.map fun a => 100 * a).getD 0 = s'.staking.sharesAt (newOperatorAddress v)
    rw [hun v hv']
    omega

theorem intact_unknown_monikers :
    ∃ s', fixValidator (Config.fixed "me1admin" "me1dev") (twoNodes "alpha" "beta") = .ok s' ∧
      Intact s'.staking := by
  obtain ⟨s', hs'⟩ := exists_ok_of_isOk (x := fixValidator (Config.fixed "me1admin" "me1dev")
    (twoNodes "alpha" "beta")) (by decide +kernel)
  exact ⟨s', hs', (intact_iff (fun _ _ => rfl) rfl hs' (by decide)).mpr (by decide)⟩

/-- the admin's stakes are left behind under the old operator addresses -/
theorem fixValidator_leaves_stakes :
    Intact (twoNodes "node1" "node2").staking ∧
    ∃ s', fixValidator (Config.fixed "me1admin" "me1dev") (twoNodes "node1" "node2") = .ok s' ∧
      ¬ Intact s'.staking := by
  refine ⟨by decide, ?_⟩
  exact exists_ok_of_check (x := fixValidator (Config.fixed "me1admin" "me1dev")
    (twoNodes "node1" "node2")) (p := fun s' => ¬ Intact s'.staking) (by decide +kernel)

end MeChain
