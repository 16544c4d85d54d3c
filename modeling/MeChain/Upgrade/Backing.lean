import MeChain.DecCoins
import MeChain.Upgrade.Balances
import MeChain.Upgrade.References

/-!
# Are the module accounts still backed after the precision change?

`resetExponent` multiplies every umec balance by 100, the pools' included; `fixValidator` multiplies
the tokens of the validators and the admin's stakes, and starts the rewards of the new operator
addresses afresh.  Nothing multiplies the other records that are denominated in umec.

* `Backed`        the pools hold what the records say;
* `tokens_run`, `rewards_run`   the totals of the records after `fixValidator`;
* `OnlyScaled`    everything recorded is among what the upgrade multiplies;
* `stakes_gain`   what the copies of the admin's stakes add, from the state before the upgrade;
* `backed_iff`    before which states the equations survive.
-/

set_option linter.unusedSectionVars false

namespace MeChain
open Fallible

variable {Addr : Type} [SdkAddress Addr] [DecidableEq Addr]

/-! ## what backs what -/

/-- the umec balance of a module account -/
def App.moduleBalance (s : App Addr) (name : String) : ℤ :=
  s.bank.balance (newModuleAddress name) baseMEDenom

def App.stakePools (n : ModuleNames) (s : App Addr) : ℤ :=
  s.moduleBalance n.bondedStakePool + s.moduleBalance n.notBondedStakePool

def App.delegationPools (n : ModuleNames) (s : App Addr) : ℤ :=
  s.moduleBalance n.bondedPool + s.moduleBalance n.notBondedPool

def Validator.tokenCount (v : Validator Addr) : ℤ := v.tokens.getD 0

def Stake.amountCount (st : Stake Addr) : ℤ := st.amount.getD 0

namespace StakingState

def totalTokens (s : StakingState Addr) : ℤ := s.validators.sum Validator.tokenCount

def totalStaked (s : StakingState Addr) : ℤ := s.stakes.sum Stake.amountCount

def totalDelegated (s : StakingState Addr) : ℤ :=
  s.delegations.sum Delegation.amount + s.unbondingDelegations.sum UnbondingDelegation.balance

def totalDeposited (s : StakingState Addr) : ℤ :=
  s.fixedDeposits.sum fun d => if d.principal.denom = baseMEDenom then d.principal.amount else 0

end StakingState

/-- the umec rewards recorded for one validator -/
def outstandingCount (e : Addr × DecCoins) : ℤ := DecCoins.amountOf e.2 baseMEDenom

/-- the umec rewards recorded: outstanding ones of the validators and the community pool -/
def DistrState.totalRewards (s : DistrState Addr) : ℤ :=
  s.outstandingRewards.sum outstandingCount + DecCoins.amountOf s.communityPool baseMEDenom

structure Backed (n : ModuleNames) (s : App Addr) : Prop where
  tokens : s.stakePools n = s.staking.totalTokens
  stakes : s.stakePools n = s.staking.totalStaked
  delegations : s.delegationPools n = s.staking.totalDelegated
  deposits : s.moduleBalance n.fixedDepositPrincipalPool = s.staking.totalDeposited
  rewards : s.moduleBalance n.distribution = Dec.truncate s.distr.totalRewards

instance (n : ModuleNames) (s : App Addr) : Decidable (Backed n s) :=
  decidable_of_iff (s.stakePools n = s.staking.totalTokens ∧ s.stakePools n = s.staking.totalStaked ∧
    s.delegationPools n = s.staking.totalDelegated ∧
    s.moduleBalance n.fixedDepositPrincipalPool = s.staking.totalDeposited ∧
    s.moduleBalance n.distribution = Dec.truncate s.distr.totalRewards)
    ⟨fun h => ⟨h.1, h.2.1, h.2.2.1, h.2.2.2.1, h.2.2.2.2⟩,
      fun h => ⟨h.tokens, h.stakes, h.delegations, h.deposits, h.rewards⟩⟩

/-- the admin's stake under an operator address -/
def StakingState.adminStake (s : StakingState Addr) (adminAddr op : Addr) : ℤ :=
  stakeValue Stake.amountCount (s.getStake adminAddr op)

/-- Everything recorded is among what the upgrade multiplies: no addresses collide, a hundred times the
admin's stakes under the old addresses less those under the new ones is 99 times all stakes, and there
are no delegations, no deposits and no whole umec of rewards. -/
structure OnlyScaled (adminAddr : Addr) (s : App Addr) : Prop where
  apart : NoCollision s.staking.validators.rows
  stakes : (s.staking.validators.rows.map fun v =>
      100 * s.staking.adminStake adminAddr v.operatorAddress
        - s.staking.adminStake adminAddr (newOperatorAddress v)).sum
    = 99 * s.staking.totalStaked
  delegations : s.staking.totalDelegated = 0
  deposits : s.staking.totalDeposited = 0
  rewards : Dec.truncate s.distr.totalRewards = 0

/-! ## the records after the run -/

variable {cfg : Config Addr} {s s' : App Addr} {adminAddr : Addr}

theorem tokens_run {s t : StakingState Addr} (h : ValidatorRun s.validators.rows s t) :
    t.totalTokens = 100 * ((survivors s.validators.rows).map Validator.tokenCount).sum := by
  have hsum := Rekey.Run.sum h MovedFrom.operatorAddress (f := Validator.tokenCount)
    (g := fun v => 100 * v.tokenCount) (by
      intro v w hw
      obtain ⟨owner, rfl⟩ := hw
      exact getD_scaled v.tokens)
  rw [StakingState.totalTokens, hsum, List.sum_map_mul_left]

theorem tokens_lost (l : List (Validator Addr)) (hl : l.Nodup) :
    (l.map Validator.tokenCount).sum = ((survivors l).map Validator.tokenCount).sum
      + ((l.filter fun v => decide (v ∉ survivors l)).map Validator.tokenCount).sum := by
  have hkept : (survivors l).Perm (l.filter fun v => decide (v ∈ survivors l)) := by
    refine (List.perm_ext_iff_of_nodup (hl.sublist (Rekey.survivors_sublist l))
      (hl.filter _)).mpr (fun v => ?_)
    rw [List.mem_filter, decide_eq_true_iff]
    exact ⟨fun h => ⟨(Rekey.survivors_sublist l).subset h, h⟩, fun h => h.2⟩
  rw [(hkept.map _).sum_eq, ← List.sum_append, ← List.map_append]
  have hsplit := List.filter_append_perm (fun v => decide (v ∈ survivors l)) l
  simp only [decide_not]
  exact ((hsplit.map Validator.tokenCount).sum_eq).symm

/-- nothing is lost only when nothing is overwritten, if whoever is overwritten holds tokens -/
theorem noCollision_of_tokens {s : StakingState Addr}
    (hheld : ∀ v ∈ s.validators.rows, v ∉ survivors s.validators.rows → 0 < v.tokenCount)
    (hsum : ((survivors s.validators.rows).map Validator.tokenCount).sum = s.totalTokens) :
    NoCollision s.validators.rows := by
  have hlost := tokens_lost s.validators.rows s.validators.nodup_rows
  have hzero : ((s.validators.rows.filter fun v => decide (v ∉ survivors s.validators.rows)).map
      Validator.tokenCount).sum = 0 := by
    have htotal : (s.validators.rows.map Validator.tokenCount).sum = s.totalTokens := rfl
    omega
  have hnone : ∀ v ∈ s.validators.rows, v ∈ survivors s.validators.rows := by
    intro v hv
    by_contra hnot
    have hmem : v ∈ s.validators.rows.filter fun v => decide (v ∉ survivors s.validators.rows) :=
      List.mem_filter.mpr ⟨hv, decide_eq_true hnot⟩
    have hpos := hheld v hv hnot
    have hle : v.tokenCount ≤ _ := List.single_le_sum (fun n hn => ?_) _
      (List.mem_map_of_mem (f := Validator.tokenCount) hmem)
    · omega
    · obtain ⟨w, hw, rfl⟩ := List.mem_map.mp hn
      obtain ⟨hw, hout⟩ := List.mem_filter.mp hw
      exact (hheld w hw (of_decide_eq_true hout)).le
  exact Rekey.survivors_eq_iff.mp ((Rekey.survivors_sublist _).eq_of_length_le
    (List.Subperm.length_le (List.subperm_of_subset s.validators.nodup_rows hnone)))

theorem stakes_gain {s : StakingState Addr} (hno : NoCollision s.validators.rows) :
    copyGain Stake.amountCount s adminAddr [] s.validators.rows
      = (s.validators.rows.map fun v => 100 * s.adminStake adminAddr v.operatorAddress
        - s.adminStake adminAddr (newOperatorAddress v)).sum := by
  rw [copyGain_of_noCollision _ hno]
  congr 1
  refine List.map_congr_left (fun v _ => ?_)
  unfold StakingState.adminStake
  congr 1
  cases s.getStake adminAddr v.operatorAddress with
  | none => rfl
  | some st => exact getD_scaled st.amount

theorem SameRecords.totalDelegated {s t : StakingState Addr} (h : SameRecords s t) :
    t.totalDelegated = s.totalDelegated := by
  rw [h]
  rfl

theorem SameRecords.totalDeposited {s t : StakingState Addr} (h : SameRecords s t) :
    t.totalDeposited = s.totalDeposited := by
  rw [h]
  rfl

/-- no recorded reward is negative -/
def DistrState.NonNegative (s : DistrState Addr) : Prop :=
  (∀ e ∈ s.outstandingRewards.rows, 0 ≤ outstandingCount e) ∧
    0 ≤ DecCoins.amountOf s.communityPool baseMEDenom

instance (s : DistrState Addr) : Decidable s.NonNegative := inferInstanceAs (Decidable (_ ∧ _))

theorem DistrState.NonNegative.totalRewards {s : DistrState Addr} (h : s.NonNegative) :
    0 ≤ s.totalRewards := by
  refine add_nonneg (List.sum_nonneg (fun x hx => ?_)) h.2
  obtain ⟨e, he, rfl⟩ := List.mem_map.mp hx
  exact h.1 e he

theorem initializeValidator_rewards {s : DistrState Addr} (h : s.NonNegative) (op : Addr) :
    (s.initializeValidator op).NonNegative ∧
      (s.initializeValidator op).totalRewards ≤ s.totalRewards := by
  constructor
  · refine ⟨fun e he => ?_, h.2⟩
    rcases Table.mem_put.mp he with rfl | ⟨he, _⟩
    · exact le_refl _
    · exact h.1 e he
  · have hput := Table.sum_put s.outstandingRewards outstandingCount (op, [])
    have hval : 0 ≤ s.outstandingRewards.valueAt outstandingCount (op, ([] : DecCoins)).1 := by
      cases hget : s.outstandingRewards.get (op, ([] : DecCoins)).1 with
      | none => rw [Table.valueAt_none hget]
      | some e =>
        rw [Table.valueAt_some hget]
        exact h.1 e (Table.mem_of_get hget)
    have hnil : outstandingCount (op, ([] : DecCoins)) = 0 := rfl
    have hle : (s.outstandingRewards.put (op, [])).sum outstandingCount
        ≤ s.outstandingRewards.sum outstandingCount := by
      omega
    exact Int.add_le_add_right hle _

theorem rewards_run {s : DistrState Addr} (h : s.NonNegative) (l : List Addr) :
    0 ≤ (l.foldl DistrState.initializeValidator s).totalRewards ∧
      (l.foldl DistrState.initializeValidator s).totalRewards ≤ s.totalRewards := by
  have hrun := foldl_run (f := DistrState.initializeValidator) (l := l) (s := s)
    (I := fun _ t => t.NonNegative ∧ t.totalRewards ≤ s.totalRewards) ⟨h, le_refl _⟩ (by
      intro done op rest t _ ht
      obtain ⟨hn, hle⟩ := initializeValidator_rewards ht.1 op
      exact ⟨hn, hle.trans ht.2⟩)
  exact ⟨hrun.1.totalRewards, hrun.2⟩

/-! ## the equations after the upgrade -/

/-- the module accounts in the equations -/
def ModuleNames.pools (n : ModuleNames) : List String :=
  [n.bondedStakePool, n.notBondedStakePool, n.bondedPool, n.notBondedPool,
    n.fixedDepositPrincipalPool, n.distribution]

/-- a pool that holds umec has an account -/
def PoolsStored (n : ModuleNames) (s : App Addr) : Prop :=
  ∀ name ∈ n.pools, s.moduleBalance name ≠ 0 →
    s.auth.hasAccount (newModuleAddress name) = true

instance (n : ModuleNames) (s : App Addr) : Decidable (PoolsStored n s) :=
  inferInstanceAs (Decidable (∀ name ∈ n.pools, _))

theorem moduleBalance_run {cfg : Config Addr} {ctx : Context} {s s1 s2 : App Addr}
    (h1 : resetExponent cfg ctx s = .ok s1) (hbank : s2.bank = s1.bank)
    (hacc : PoolsStored cfg.names s) {name : String} (hname : name ∈ cfg.names.pools) :
    s2.moduleBalance name = 100 * s.moduleBalance name := by
  unfold App.moduleBalance
  rw [hbank]
  exact ledger_after h1 (hacc name hname)

/-- **The module accounts stay backed** when the upgrade multiplies all there is.  They do in no other
case, unless a collision overwrites a validator without tokens. -/
theorem backed_iff {cfg : Config Addr} {ctx : Context} {s s1 s2 : App Addr} {adminAddr : Addr}
    (hrm : cfg.RemovesKeys) (h1 : resetExponent cfg ctx s = .ok s1)
    (hadmin : cfg.getGlobalAdminAddr s1 = .ok adminAddr) (h2 : fixValidator cfg s1 = .ok s2)
    (hacc : PoolsStored cfg.names s) (hrew : s.distr.NonNegative) (hpre : Backed cfg.names s) :
    (OnlyScaled adminAddr s → Backed cfg.names s2) ∧
    ((∀ v ∈ s.staking.validators.rows, v ∉ survivors s.staking.validators.rows → 0 < v.tokenCount) →
      Backed cfg.names s2 → OnlyScaled adminAddr s) := by
  obtain ⟨admin', hadmin', hloop⟩ := fixValidator_ok h2
  rw [hadmin] at hadmin'
  cases hadmin'
  obtain ⟨_, hstaking, hdistr, _⟩ := resetExponent_run h1
  obtain ⟨_, hbank, hrec, hdistr2⟩ := fixValidator_frame hrm hloop
  have hpool {name : String} (hname : name ∈ cfg.names.pools) :
      s2.moduleBalance name = 100 * s.moduleBalance name := moduleBalance_run h1 hbank hacc hname
  have hdeposits : s2.moduleBalance cfg.names.fixedDepositPrincipalPool
      = 100 * s.moduleBalance cfg.names.fixedDepositPrincipalPool :=
    hpool (by simp [ModuleNames.pools])
  have hdistribution : s2.moduleBalance cfg.names.distribution
      = 100 * s.moduleBalance cfg.names.distribution := hpool (by simp [ModuleNames.pools])
  have htokens := tokens_run (validators_run hrm hloop)
  have hstakes := (stakes_run hrm hloop).2 Stake.amountCount
  have hdelegated := hrec.totalDelegated
  have hdeposited := hrec.totalDeposited
  rw [hstaking] at htokens hstakes hdelegated hdeposited
  rw [hdistr] at hdistr2
  have hrewards := rewards_run hrew (s.staking.validators.rows.map newOperatorAddress)
  rw [← hstaking, ← hdistr2] at hrewards
  have hr0 := Dec.truncate_nonneg hrewards.1
  have hr1 := Dec.truncate_mono hrewards.2
  have hstakePools : s2.stakePools cfg.names = 100 * s.stakePools cfg.names := by
    unfold App.stakePools
    rw [hpool (by simp [ModuleNames.pools]), hpool (by simp [ModuleNames.pools])]
    omega
  have hdelegationPools : s2.delegationPools cfg.names = 100 * s.delegationPools cfg.names := by
    unfold App.delegationPools
    rw [hpool (by simp [ModuleNames.pools]), hpool (by simp [ModuleNames.pools])]
    omega
  have e1 := hpre.tokens
  have e2 := hpre.stakes
  have e3 := hpre.delegations
  have e4 := hpre.deposits
  have e5 := hpre.rewards
  change s2.staking.totalStaked = s.staking.totalStaked + _ at hstakes
  constructor
  · intro hcond
    have hall : survivors s.staking.validators.rows = s.staking.validators.rows :=
      Rekey.survivors_eq_iff.mpr hcond.apart
    have c1 : (s.staking.validators.rows.map Validator.tokenCount).sum = s.staking.totalTokens := rfl
    have c2 := hcond.stakes
    have c3 := hcond.delegations
    have c4 := hcond.deposits
    have c5 := hcond.rewards
    rw [hall] at htokens
    rw [stakes_gain hcond.apart] at hstakes
    exact ⟨by omega, by omega, by omega, by omega, by omega⟩
  · intro hheld hpost
    have p1 := hpost.tokens
    have p2 := hpost.stakes
    have p3 := hpost.delegations
    have p4 := hpost.deposits
    have p5 := hpost.rewards
    have hno := noCollision_of_tokens hheld (by omega)
    rw [stakes_gain hno] at hstakes
    exact ⟨hno, by omega, by omega, by omega, by omega⟩

/-- the accounts of the mint module and of two pools -/
def poolAccounts : AuthState String :=
  (((⟨.empty, .empty, 10⟩ : AuthState String).setAccount
    ((Account.newEmptyModuleAccount "mint" [minter]).setAccountNumber 7)).setAccount
    ((Account.newEmptyModuleAccount "bonded_stake_tokens_pool" [burner, stakingPerm]).setAccountNumber
      8)).setAccount
    ((Account.newEmptyModuleAccount "bonded_tokens_pool" [burner, stakingPerm]).setAccountNumber 9)

/-- two validators that keep their addresses, backed by the stake pool -/
def stakePoolChain : App String :=
  { twoNodes "alpha" "beta" with
    auth := poolAccounts
    bank := ⟨Table.empty.put ⟨newModuleAddress "bonded_stake_tokens_pool", "umec", 10000000⟩,
      Table.empty.put ⟨"umec", 10000000⟩⟩ }

theorem backed_stakePoolChain :
    ∃ s1 s2, resetExponent (Config.fixed "me1admin" "me1dev") .first stakePoolChain = .ok s1 ∧
      fixValidator (Config.fixed "me1admin" "me1dev") s1 = .ok s2 ∧ Backed .sdk s2 := by
  obtain ⟨s2, h⟩ := exists_ok_of_isOk (x := resetExponent (Config.fixed "me1admin" "me1dev") .first
    stakePoolChain >>= fixValidator (Config.fixed "me1admin" "me1dev")) (by decide +kernel)
  obtain ⟨s1, h1, h2⟩ := bind_eq_ok.mp h
  have hadmin : (Config.fixed "me1admin" "me1dev").getGlobalAdminAddr s1 = .ok "me1admin" := rfl
  have hiff := backed_iff (fun _ _ => rfl) h1 hadmin h2 (by decide) (by decide) (by decide)
  exact ⟨s1, s2, h1, h2, hiff.1 ⟨by decide, by decide, by decide, by decide, by decide⟩⟩

/-- the same chain with a delegation of a user, backed by the delegation pool -/
def delegatedChain : App String :=
  { stakePoolChain with
    bank := ⟨stakePoolChain.bank.balances.put ⟨newModuleAddress "bonded_tokens_pool", "umec", 5⟩,
      Table.empty.put ⟨"umec", 10000005⟩⟩
    staking := { stakePoolChain.staking with
      delegations := Table.empty.put ⟨"me1user", "me1val1", 0, 0, 5, 0, 0⟩ } }

/-- a delegation keeps its amount while the pool that backs it is multiplied -/
theorem delegation_unbacked :
    Backed .sdk delegatedChain ∧
    ∃ s1 s2, resetExponent (Config.fixed "me1admin" "me1dev") .first delegatedChain = .ok s1 ∧
      fixValidator (Config.fixed "me1admin" "me1dev") s1 = .ok s2 ∧ ¬ Backed .sdk s2 := by
  refine ⟨by decide, ?_⟩
  obtain ⟨s2, h, hpost⟩ := exists_ok_of_check (x := resetExponent (Config.fixed "me1admin" "me1dev")
    .first delegatedChain >>= fixValidator (Config.fixed "me1admin" "me1dev"))
    (p := fun s2 => ¬ Backed .sdk s2) (by decide +kernel)
  obtain ⟨s1, h1, h2⟩ := bind_eq_ok.mp h
  exact ⟨s1, s2, h1, h2, hpost⟩

end MeChain
