import MeChain.Export.FeeDistribution
import MeChain.TokenPools
import MeChain.ValidatorUpdates

/-!
# The heights in the exported genesis

* `prepForZeroHeightGenesis_ok`, `prepForZeroHeightGenesis_settled`   the phases of an export that
                                  completed, and its staking store;
* `resetHeights_get`, `resetHeights_bonds`   the staking store between the two of them: records with
                                  their heights reset, and the walk over the power index as before;
* `HeightsReset`                  every record as before, with its heights at zero;
* `exportedStaking_of_settled`    what traversals and updates did to the records;
* `heightsReset_iff`              which states are exported so.
-/

set_option linter.unusedSectionVars false

namespace MeChain
open Fallible

variable {Addr : Type} [SdkAddress Addr] [DecidableEq Addr] [ValAddress Addr]

/-! ## the traversals -/

section
variable {l : List String} {s : StakingState Addr} {v : Validator Addr} {r : ℤ}

@[simp] theorem reset_operatorAddress : (v.reset l).operatorAddress = v.operatorAddress := by
  unfold Validator.reset
  dsimp only
  split <;> rfl

@[simp] theorem reset_tokens : (v.reset l).tokens = v.tokens := by
  unfold Validator.reset
  dsimp only
  split <;> rfl

@[simp] theorem reset_unbondingHeight : (v.reset l).unbondingHeight = 0 := by
  unfold Validator.reset
  dsimp only
  split <;> rfl

theorem resetHeights_get (l : List String) (s : StakingState Addr) (op : Addr) :
    (s.resetHeights l).validators.get op = (s.validators.get op).map (Validator.reset l) :=
  Table.get_rewrite (fun _ => reset_operatorAddress) op

theorem mem_resetHeights {w : Validator Addr} : w ∈ (s.resetHeights l).validators.rows ↔
    ∃ v ∈ s.validators.rows, w = v.reset l :=
  Table.mem_rewrite (fun _ => reset_operatorAddress)

/-- a validator after the traversal and a stretch of the updates -/
theorem mem_settled_reset {t : StakingState Addr} {height : ℤ} {b u : List Addr}
    (h : Settled r height b u (s.resetHeights l) t) {w : Validator Addr} :
    w ∈ t.validators.rows ↔ ∃ v ∈ s.validators.rows, w = (v.reset l).settled height b u := by
  rw [h.mem]
  constructor
  · intro hw
    obtain ⟨y, hy, rfl⟩ := hw
    obtain ⟨v, hv, rfl⟩ := mem_resetHeights.mp hy
    exact ⟨v, hv, rfl⟩
  · intro hw
    obtain ⟨v, hv, rfl⟩ := hw
    exact ⟨_, mem_resetHeights.mpr ⟨v, hv, rfl⟩, rfl⟩

theorem resetHeights_powerAt (op : Addr) : (s.resetHeights l).powerAt r op = s.powerAt r op := by
  unfold StakingState.powerAt
  rw [resetHeights_get, Option.map_map]
  congr 2
  funext v
  show consensusPower r ((v.reset l).tokens.getD 0) = consensusPower r (v.tokens.getD 0)
  rw [reset_tokens]

variable [LE Addr] [DecidableLE Addr]

theorem resetHeights_bonds : (s.resetHeights l).bonds r = s.bonds r :=
  StakingState.metOps_congr (fun op => resetHeights_powerAt op)

theorem resetHeights_read : (s.resetHeights l).read r = s.read r :=
  StakingState.readOps_congr (fun op => resetHeights_powerAt op)

end

/-! ## the phases -/

section
variable [LE Addr] [DecidableLE Addr] {x : ExportConfig Addr} {ctx : Context} {l : List String}
  {s s' : App Addr}

theorem checkAllowedAddr_ok {a : String} :
    (∃ u, checkAllowedAddr Addr a = .ok u) ↔ ∃ op : Addr, valAddressFromBech32 a = .ok op := by
  unfold checkAllowedAddr fatalOnError
  cases (valAddressFromBech32 a : Except Error Addr) with
  | error e => simp
  | ok op => simp

/-- **An export that completed**, phase by phase: the fee distribution leaves the staking and slashing
stores to the others as they were. -/
theorem prepForZeroHeightGenesis_ok : prepForZeroHeightGenesis x ctx l s = .ok s' ↔
    (∀ a ∈ l, ∃ op : Addr, valAddressFromBech32 a = .ok op) ∧ x.assertInvariants s = .ok () ∧
    ∃ t y u, s.handleFeeDistribution x ctx = .ok t ∧
      (s.staking.resetHeights l).updateValidatorSet x.cfg.powerReduction ctx.blockHeight = .ok y ∧
      ({ t with staking := y.staking } : App Addr).updatePools x.cfg ctx y.amtFromNotBondedToBonded
        y.amtFromBondedToNotBonded = .ok u ∧
      s' = { u with slashing := s.slashing.resetSigningInfos } := by
  constructor
  · intro h
    obtain ⟨units, hunits, h⟩ := bind_eq_ok.mp h
    obtain ⟨_, hassert, h⟩ := bind_eq_ok.mp h
    obtain ⟨t, ht, h⟩ := bind_eq_ok.mp h
    obtain ⟨⟨u, updates⟩, hu, h⟩ := bind_eq_ok.mp h
    cases h
    have hsame := App.handleFeeDistribution_same ht
    obtain ⟨y, hy, hpools, _⟩ := App.applyAndReturn_ok.mp hu
    rw [show t.staking = s.staking from hsame.staking] at hy
    have hslashing : u.slashing = s.slashing := by
      rw [App.updatePools_frame hpools]
      exact hsame.slashing
    rw [hslashing]
    exact ⟨fun a ha => checkAllowedAddr_ok.mp (mapM_ok_mem hunits ha), hassert, t, y, u, ht, hy,
      hpools, rfl⟩
  · intro h
    obtain ⟨hl, hassert, t, y, u, ht, hy, hpools, rfl⟩ := h
    obtain ⟨units, hunits⟩ := mapM_total (fun a ha => checkAllowedAddr_ok.mpr (hl a ha))
    have hsame := App.handleFeeDistribution_same ht
    have hslashing : u.slashing = s.slashing := by
      rw [App.updatePools_frame hpools]
      exact hsame.slashing
    rw [← hslashing]
    rw [← hsame.staking] at hy
    have hu := App.applyAndReturn_ok (s := { t with staking := t.staking.resetHeights l })
      |>.mpr ⟨y, hy, hpools, rfl⟩
    exact bind_eq_ok.mpr ⟨units, hunits, bind_eq_ok.mpr ⟨(), hassert, bind_eq_ok.mpr ⟨t, ht,
      bind_eq_ok.mpr ⟨_, hu, rfl⟩⟩⟩⟩

theorem resetHeights_noLongerBonded {s : StakingState Addr} {r : ℤ} :
    (s.resetHeights l).noLongerBonded r = s.noLongerBonded r := by
  unfold StakingState.noLongerBonded
  rw [resetHeights_bonds]
  rfl

theorem prepForZeroHeightGenesis_settled (h : prepForZeroHeightGenesis x ctx l s = .ok s') :
    Settled x.cfg.powerReduction ctx.blockHeight (s.staking.bonds x.cfg.powerReduction)
      (s.staking.noLongerBonded x.cfg.powerReduction) (s.staking.resetHeights l) s'.staking ∧
    s'.slashing = s.slashing.resetSigningInfos := by
  obtain ⟨_, _, t, y, u, _, hy, hpools, rfl⟩ := prepForZeroHeightGenesis_ok.mp h
  have hsettled := updateValidatorSet_settled hy
  rw [resetHeights_bonds, resetHeights_noLongerBonded] at hsettled
  have hstaking : u.staking = y.staking := by
    rw [App.updatePools_frame hpools]
  refine ⟨?_, rfl⟩
  show Settled _ _ _ _ _ u.staking
  rw [hstaking]
  exact hsettled

end

/-! ## records at height zero -/

def UnbondingStake.atZero (ubs : UnbondingStake Addr) : UnbondingStake Addr :=
  { ubs with entries := ubs.entries.map fun e => { e with creationHeight := 0 } }

def Delegation.atZero (del : Delegation Addr) : Delegation Addr := { del with startHeight := 0 }

def Stake.atZero (stake : Stake Addr) : Stake Addr := { stake with startHeight := 0 }

/-- what an export may not change of a validator: everything but its height, its jailing and its bond
status, which the allow list and the validator set updates decide -/
def Validator.lasting (v : Validator Addr) : Validator Addr :=
  { v with unbondingHeight := 0, jailed := false, status := .unspecified }

/-- **No height of the old chain**: every record of staking and slashing is there as before, with its
heights at zero. -/
structure HeightsReset (s s' : App Addr) : Prop where
  redelegations : Table.Rewritten Redelegation.reset s.staking.redelegations s'.staking.redelegations
  unbondingDelegations : Table.Rewritten UnbondingDelegation.reset s.staking.unbondingDelegations
    s'.staking.unbondingDelegations
  unbondingStakes : Table.Rewritten UnbondingStake.atZero s.staking.unbondingStakes
    s'.staking.unbondingStakes
  delegations : Table.Rewritten Delegation.atZero s.staking.delegations s'.staking.delegations
  stakes : Table.Rewritten Stake.atZero s.staking.stakes s'.staking.stakes
  validators : ∀ op, (s'.staking.validators.get op).map Validator.lasting
    = (s.staking.validators.get op).map Validator.lasting
  unbondingHeights : ∀ v ∈ s'.staking.validators.rows, v.unbondingHeight = 0
  signingInfos : Table.Rewritten (fun e => (e.1, e.2.reset)) s.slashing.signingInfos
    s'.slashing.signingInfos

section
variable {height : ℤ} {v : Validator Addr} {l : List String} {b u : List Addr}

theorem lasting_settled_reset :
    ((v.reset l).settled height b u).lasting = v.lasting := by
  unfold Validator.settled Validator.reset
  dsimp only
  split_ifs <;> rfl

theorem unbondingHeight_settled_reset :
    ((v.reset l).settled height b u).unbondingHeight
      = if v.operatorAddress ∈ u then height else 0 := by
  unfold Validator.settled
  rw [reset_operatorAddress]
  split_ifs
  · rfl
  · exact reset_unbondingHeight
  · exact reset_unbondingHeight

end

/-! ### records that have no height -/

theorem unbondingStake_atZero_eq {ubs : UnbondingStake Addr} :
    ubs.atZero = ubs ↔ ∀ e ∈ ubs.entries, e.creationHeight = 0 := by
  constructor
  · intro h e he
    have hmap : ubs.entries.map (fun e => { e with creationHeight := 0 }) = ubs.entries.map id :=
      (congrArg UnbondingStake.entries h).trans (List.map_id _).symm
    exact (congrArg UnbondingStakeEntry.creationHeight (List.map_inj_left.mp hmap e he)).symm
  · intro h
    have hmap : ubs.entries.map (fun e => { e with creationHeight := 0 }) = ubs.entries :=
      (List.map_congr_left (fun e he => by
        show ({ e with creationHeight := 0 } : UnbondingStakeEntry) = e
        rw [← h e he])).trans (List.map_id _)
    unfold UnbondingStake.atZero
    rw [hmap]

theorem delegation_atZero_eq {del : Delegation Addr} : del.atZero = del ↔ del.startHeight = 0 := by
  constructor
  · intro h
    exact (congrArg Delegation.startHeight h).symm
  · intro h
    unfold Delegation.atZero
    rw [← h]

theorem stake_atZero_eq {stake : Stake Addr} : stake.atZero = stake ↔ stake.startHeight = 0 := by
  constructor
  · intro h
    exact (congrArg Stake.startHeight h).symm
  · intro h
    unfold Stake.atZero
    rw [← h]

section
variable [LE Addr] [DecidableLE Addr] {x : ExportConfig Addr} {ctx : Context} {l : List String}
  {s s' : App Addr}

/-- The staking store after the traversals and the updates: the validators were reset and then settled,
redelegations and unbonding delegations were reset, and the other records are as they were. -/
structure ExportedStaking (l : List String) (height : ℤ) (bonded unbonded : List Addr)
    (s t : StakingState Addr) : Prop where
  validators : ∀ op, t.validators.get op
    = (s.validators.get op).map fun v => (v.reset l).settled height bonded unbonded
  redelegations : Table.Rewritten Redelegation.reset s.redelegations t.redelegations
  unbondingDelegations :
    Table.Rewritten UnbondingDelegation.reset s.unbondingDelegations t.unbondingDelegations
  unbondingStakes : t.unbondingStakes = s.unbondingStakes
  delegations : t.delegations = s.delegations
  stakes : t.stakes = s.stakes

theorem exportedStaking_of_settled {height : ℤ} {b u : List Addr} {s t : StakingState Addr} {r : ℤ}
    (h : Settled r height b u (s.resetHeights l) t) : ExportedStaking l height b u s t where
  validators op := by
    rw [h.validators, resetHeights_get, Option.map_map]
    rfl
  redelegations := by
    rw [h.frame]
    exact Table.get_rewrite (fun _ => rfl)
  unbondingDelegations := by
    rw [h.frame]
    exact Table.get_rewrite (fun _ => rfl)
  unbondingStakes := by
    rw [h.frame]
    rfl
  delegations := by
    rw [h.frame]
    rfl
  stakes := by
    rw [h.frame]
    rfl

/-- No traversal resets these records, so they have no height already; and no validator is unbonded at
the height of the export, unless that height is zero. -/
structure HeightFree (r height : ℤ) (s : StakingState Addr) : Prop where
  unbondingStakes : ∀ ubs ∈ s.unbondingStakes.rows, ∀ e ∈ ubs.entries, e.creationHeight = 0
  delegations : ∀ del ∈ s.delegations.rows, del.startHeight = 0
  stakes : ∀ stake ∈ s.stakes.rows, stake.startHeight = 0
  bonded : height = 0 ∨
    ∀ v ∈ s.validators.rows, v.operatorAddress ∈ s.lastValidatorPower.keys →
      v.operatorAddress ∈ s.bonds r

/-- **An export carries no height of the old chain exactly when** the records it passes over have none
and it unbonds nobody. -/
theorem heightsReset_iff (h : prepForZeroHeightGenesis x ctx l s = .ok s') :
    HeightsReset s s' ↔ HeightFree x.cfg.powerReduction ctx.blockHeight s.staking := by
  obtain ⟨hsettled, hslashing⟩ := prepForZeroHeightGenesis_settled h
  have hx := exportedStaking_of_settled hsettled
  constructor
  · intro hreset
    have hu := hreset.unbondingStakes
    have hd := hreset.delegations
    have hs := hreset.stakes
    rw [hx.unbondingStakes] at hu
    rw [hx.delegations] at hd
    rw [hx.stakes] at hs
    refine ⟨fun ubs hmem => unbondingStake_atZero_eq.mp (Table.rewritten_self_iff.mp hu ubs hmem),
      fun del hmem => delegation_atZero_eq.mp (Table.rewritten_self_iff.mp hd del hmem),
      fun stake hmem => stake_atZero_eq.mp (Table.rewritten_self_iff.mp hs stake hmem), ?_⟩
    by_cases hzero : ctx.blockHeight = 0
    · exact Or.inl hzero
    · refine Or.inr (fun v hv hlast => ?_)
      by_contra hnot
      have hheight := hreset.unbondingHeights _ ((mem_settled_reset hsettled).mpr ⟨v, hv, rfl⟩)
      rw [unbondingHeight_settled_reset, if_pos (mem_noLongerBonded.mpr ⟨hlast, hnot⟩)] at hheight
      exact hzero hheight
  · intro hfree
    refine ⟨hx.redelegations, hx.unbondingDelegations, ?_, ?_, ?_, fun op => ?_, fun w hw => ?_, ?_⟩
    · rw [hx.unbondingStakes, Table.rewritten_self_iff]
      exact fun ubs hmem => unbondingStake_atZero_eq.mpr (hfree.unbondingStakes ubs hmem)
    · rw [hx.delegations, Table.rewritten_self_iff]
      exact fun del hmem => delegation_atZero_eq.mpr (hfree.delegations del hmem)
    · rw [hx.stakes, Table.rewritten_self_iff]
      exact fun stake hmem => stake_atZero_eq.mpr (hfree.stakes stake hmem)
    · rw [hx.validators, Option.map_map]
      congr 1
      funext v
      exact lasting_settled_reset
    · obtain ⟨v, hv, rfl⟩ := (mem_settled_reset hsettled).mp hw
      rw [unbondingHeight_settled_reset]
      by_cases hout : v.operatorAddress ∈ s.staking.noLongerBonded x.cfg.powerReduction
      · rw [if_pos hout]
        -- `v` lost its place, which happens at height zero only
        refine hfree.bonded.resolve_right (fun hall => ?_)
        obtain ⟨hlast, hnot⟩ := mem_noLongerBonded.mp hout
        exact hnot (hall v hv hlast)
      · rw [if_neg hout]
    · rw [hslashing]
      exact Table.get_rewrite (fun _ => rfl)

end

/-! ## two chains at height 50 -/

def Context.fifty : Context := { Context.first with blockHeight := 50 }

/-- heights in the records that the export resets, and in no other; the not-bonded pool holds what
unbonds -/
def agedChain : App String :=
  { App.empty with
    bank := ⟨⟨[⟨newModuleAddress "not_bonded_tokens_pool", "umec", 103⟩], by decide⟩,
      ⟨[⟨"umec", 103⟩], by decide⟩⟩
    staking := { StakingState.empty with
      validators := ⟨[⟨"me1val1", some "pk1", true, .unbonding, some 100, some (Dec.ofInt 100),
        "node1", 40, "me1dev"⟩], by decide⟩
      redelegations := ⟨[⟨"me1del", "me1val1", "me1val2", [⟨41, 90, 5, 5, 1, 0⟩]⟩], by decide⟩
      unbondingDelegations := ⟨[⟨"me1del", "me1val1", [⟨42, 91, 3, 3, 2, 0⟩]⟩], by decide⟩ }
    slashing := ⟨.empty, ⟨[("address of pk1", ⟨43, 0, 0, false, 0⟩)], by decide⟩⟩ }

theorem heightsReset_aged :
    ∃ s', prepForZeroHeightGenesis .fixed .fifty [] agedChain = .ok s' ∧
      HeightsReset agedChain s' := by
  obtain ⟨s', hs'⟩ := exists_ok_of_isOk (x := prepForZeroHeightGenesis .fixed .fifty [] agedChain)
    (by decide +kernel)
  refine ⟨s', hs', (heightsReset_iff hs').mpr ⟨?_, ?_, ?_, Or.inr ?_⟩⟩
  · exact fun _ hmem => absurd hmem List.not_mem_nil
  · exact fun _ hmem => absurd hmem List.not_mem_nil
  · exact fun _ hmem => absurd hmem List.not_mem_nil
  · exact fun _ _ hlast => absurd hlast List.not_mem_nil

/-- a delegation from height 7, a stake from height 8, and a stake that unbonds since height 9 -/
def stakedChain : App String :=
  { App.commissionChain "me1val1" with
    staking := { App.commissionRecords.staking with
      stakes := ⟨[⟨"me1staker", "me1val1", some (Dec.ofInt 10), 8, 0, some 10, 0⟩], by decide⟩
      unbondingStakes := ⟨[⟨"me1staker", "me1val1", [⟨9, 90, 5, 5⟩]⟩], by decide⟩ } }

/-- all three heights go into the genesis -/
theorem export_keeps_heights :
    ∃ s', prepForZeroHeightGenesis .fixed .fifty [] stakedChain = .ok s' ∧
      ¬ HeightsReset stakedChain s' ∧
      (s'.staking.delegations.get ("me1del", "me1val1")).map Delegation.startHeight = some 7 ∧
      (s'.staking.stakes.get ("me1staker", "me1val1")).map Stake.startHeight = some 8 ∧
      (s'.staking.unbondingStakes.get ("me1staker", "me1val1")).map
        (fun ubs => ubs.entries.map UnbondingStakeEntry.creationHeight) = some [9] := by
  obtain ⟨s', hs', hcheck⟩ := exists_ok_of_check
    (x := prepForZeroHeightGenesis .fixed .fifty [] stakedChain)
    (p := fun s' =>
      (s'.staking.delegations.get ("me1del", "me1val1")).map Delegation.startHeight = some 7 ∧
      (s'.staking.stakes.get ("me1staker", "me1val1")).map Stake.startHeight = some 8 ∧
      (s'.staking.unbondingStakes.get ("me1staker", "me1val1")).map
        (fun ubs => ubs.entries.map UnbondingStakeEntry.creationHeight) = some [9])
    (by decide +kernel)
  refine ⟨s', hs', fun hreset => ?_, hcheck⟩
  have hdel := hreset.delegations ("me1del", "me1val1")
  have hseven := hcheck.1
  rw [hdel] at hseven
  exact absurd hseven (by decide)

end MeChain
