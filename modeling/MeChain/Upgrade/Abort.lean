import MeChain.Upgrade.Backing
import MeChain.Upgrade.Progress

/-!
# When the upgrade aborts

`resetExponent` stops at the first account that may not receive what is minted for it,
`fixValidator` at the first validator without a stake of the global admin.

* `fixValidator_isOk_iff`  the loop succeeds exactly when every validator, in its turn, finds a stake
                           of the admin and all numbers have room to be multiplied;
* `upgrade_isOk_iff`       both functions in a row.
-/

set_option linter.unusedSectionVars false

namespace MeChain
open Fallible

variable {Addr : Type} [SdkAddress Addr] [DecidableEq Addr]

variable {cfg : Config Addr} {ctx : Context} {s s' : App Addr} {adminAddr : Addr}

/-! ## `fixValidator` -/

theorem fixValidatorStep_total (hrm : cfg.RemovesKeys) {v : Validator Addr} {stake : Stake Addr}
    {pk : PubKey} (hstake : s.staking.getStake adminAddr v.operatorAddress = some stake)
    (hpk : v.consensusPubkey = some pk) (hm : Movable cfg.powerReduction v stake) :
    ∃ s', fixValidatorStep cfg adminAddr s v = .ok s' := by
  obtain ⟨t, ht, hpower, htokens, hscaled⟩ := hm.tokens
  unfold fixValidatorStep
  rw [hstake]
  dsimp only
  rw [hrm, selectNode_eq (getStake_validator hstake)]
  refine ⟨_, bind_eq_ok.mpr ⟨_, StakingState.deleteValidatorByPowerIndex_ok.mpr
    ⟨⟨t, ht, hpower⟩, rfl⟩, writeScaled_ok.mpr ⟨pk, _, hpk, hm.shares, hm.amount, ?_,
      hm.stakerShares, fun hj => ⟨t, ht, hscaled hj⟩, rfl, rfl⟩⟩⟩
  intro x hx
  rw [ht] at hx
  cases hx
  exact htokens

/-- Every validator, in its turn, has a stake of the admin under its operator address, its own or
one that was copied there for an earlier validator, and a key; the numbers of both have room. -/
def EachMovable (cfg : Config Addr) (s : StakingState Addr) (adminAddr : Addr) : Prop :=
  ∀ done v rest, s.validators.rows = done ++ v :: rest → ∃ stake pk,
    copiedStake s adminAddr done.reverse v.operatorAddress = some stake ∧
    v.consensusPubkey = some pk ∧ Movable cfg.powerReduction v stake

/-- **`fixValidator` succeeds exactly when every validator can be moved.** -/
theorem fixValidator_isOk_iff (hrm : cfg.RemovesKeys) :
    (∃ s', fixValidator cfg s = .ok s') ↔
    ∃ adminAddr, cfg.getGlobalAdminAddr s = .ok adminAddr ∧ EachMovable cfg s.staking adminAddr := by
  constructor
  · intro h
    obtain ⟨s', h⟩ := h
    obtain ⟨adminAddr, hadmin, hloop⟩ := fixValidator_ok h
    refine ⟨adminAddr, hadmin, fun done v rest hl => ?_⟩
    rw [hl, List.foldlM_append] at hloop
    obtain ⟨t, hdone, hrest⟩ := bind_eq_ok.mp hloop
    obtain ⟨u, hstep, _⟩ := foldlM_cons_ok.mp hrest
    obtain ⟨stake, pk, owner, hstake, hpk, hm, _⟩ := fixValidatorStep_ok hrm hstep
    rw [(stakes_run hrm hdone).1.admin] at hstake
    exact ⟨stake, pk, hstake, hpk, hm⟩
  · intro h
    obtain ⟨adminAddr, hadmin, heach⟩ := h
    have hrun := foldlM_total (f := fixValidatorStep cfg adminAddr)
      (l := s.staking.validators.rows) (s := s)
      (I := fun done t => StakesRun adminAddr done.reverse s.staking t.staking) ?_ ?_
    · obtain ⟨s', hs', _⟩ := hrun
      exact ⟨s', bind_eq_ok.mpr ⟨adminAddr, hadmin, hs'⟩⟩
    · exact ⟨fun _ _ => rfl, fun _ => rfl⟩
    · intro done v rest t hl hI
      obtain ⟨stake, pk, hstake, hpk, hm⟩ := heach done v rest hl
      rw [← hI.admin] at hstake
      obtain ⟨t', ht'⟩ := fixValidatorStep_total hrm hstake hpk hm
      refine ⟨t', ht', ?_⟩
      obtain ⟨stake', pk', owner, hstake', _, _, rfl⟩ := fixValidatorStep_ok hrm ht'
      rw [List.reverse_append, List.reverse_singleton, List.singleton_append]
      exact hI.step hstake'

/-! ## both functions -/

/-- **The upgrade goes through exactly when** the balances can be scaled and every validator can be
moved.  The global admin is the staking keeper's: `hadmin` says that scaling the balances, which leaves
the staking store as it is, does not change who it is. -/
theorem upgrade_isOk_iff (hrm : cfg.RemovesKeys) (hapart : ConstantsApart cfg)
    (hadmin : ∀ t, resetExponent cfg ctx s = .ok t →
      cfg.getGlobalAdminAddr t = cfg.getGlobalAdminAddr s)
    (hwf : s.bank.WellFormed) (hsup : ∀ d, s.bank.supplyOf d = s.bank.total d) :
    (∃ s', (resetExponent cfg ctx s >>= fixValidator cfg) = .ok s') ↔
    Scalable cfg s ∧ ∃ adminAddr, cfg.getGlobalAdminAddr s = .ok adminAddr ∧
      EachMovable cfg s.staking adminAddr := by
  -- the first function leaves the staking store to the second as it was
  have hsecond {s1 : App Addr} (h1 : resetExponent cfg ctx s = .ok s1) :
      (∃ s', fixValidator cfg s1 = .ok s') ↔ ∃ adminAddr, cfg.getGlobalAdminAddr s = .ok adminAddr ∧
        EachMovable cfg s.staking adminAddr := by
    have hstaking := (resetExponent_run h1).2.1
    rw [fixValidator_isOk_iff hrm, hstaking, hadmin s1 h1]
  constructor
  · intro h
    obtain ⟨s', h⟩ := h
    obtain ⟨s1, h1, h2⟩ := bind_eq_ok.mp h
    exact ⟨(resetExponent_isOk_iff hapart hwf hsup).mp ⟨s1, h1⟩, (hsecond h1).mp ⟨s', h2⟩⟩
  · intro h
    have hfirst : ∃ s1, resetExponent cfg ctx s = .ok s1 :=
      (resetExponent_isOk_iff hapart hwf hsup).mpr h.1
    obtain ⟨s1, h1⟩ := hfirst
    obtain ⟨s', h2⟩ := (hsecond h1).mpr h.2
    exact ⟨s', bind_eq_ok.mpr ⟨s1, h1, h2⟩⟩

theorem stakePoolChain_supply (d : String) : stakePoolChain.bank.supplyOf d
    = if d = "umec" then 10000000 else 0 :=
  Table.valueAt_put Table.empty Coin.amount ⟨"umec", 10000000⟩ d

theorem stakePoolChain_total (d : String) :
    stakePoolChain.bank.supplyOf d = stakePoolChain.bank.total d := by
  rw [stakePoolChain_supply]
  show _ = (if "umec" = d then (10000000 : ℤ) else 0) + 0
  rw [add_zero]
  simp only [eq_comm]

theorem stakePoolChain_wellFormed : stakePoolChain.bank.WellFormed where
  balances := by decide
  supply d := by
    rw [stakePoolChain_supply]
    split
    · decide
    · decide

theorem upgrade_isOk_stakePoolChain :
    (∃ s', (resetExponent (Config.fixed "me1admin" "me1dev") .first stakePoolChain >>=
      fixValidator (Config.fixed "me1admin" "me1dev")) = .ok s') ∧
    Scalable (Config.fixed "me1admin" "me1dev") stakePoolChain := by
  have hok := exists_ok_of_isOk (x := resetExponent (Config.fixed "me1admin" "me1dev") .first
    stakePoolChain >>= fixValidator (Config.fixed "me1admin" "me1dev")) (by decide +kernel)
  exact ⟨hok, ((upgrade_isOk_iff (fun _ _ => rfl) (by decide) (fun _ _ => rfl)
    stakePoolChain_wellFormed stakePoolChain_total).mp hok).1⟩

/-- the validators without their stakes -/
def unstakedChain : App String :=
  { stakePoolChain with staking := { stakePoolChain.staking with stakes := .empty } }

/-- a plain account at the address of the distribution module -/
def blockedChain : App String :=
  { stakePoolChain with
    auth := poolAccounts.setAccount
      ((Account.newBaseAccountWithAddress (newModuleAddress "distribution")).setAccountNumber 6) }

/-- the account of a module the binary does not list -/
def unlistedChain : App String :=
  { stakePoolChain with
    auth := poolAccounts.setAccount ((Account.newEmptyModuleAccount "dao" []).setAccountNumber 6) }

/-- all balances can be multiplied, and the upgrade stops nevertheless -/
def AbortsThough (s : App String) : Prop :=
  (∀ r ∈ s.bank.balances.rows, SdkInt.Fits (100 * r.amount)) ∧
  (resetExponent (Config.fixed "me1admin" "me1dev") .first s >>=
    fixValidator (Config.fixed "me1admin" "me1dev")).isOk = false

/-- a validator without a stake of the admin, a plain account at a blocked address and an unknown
module account each stop the upgrade -/
theorem upgrade_aborts :
    AbortsThough unstakedChain ∧ AbortsThough blockedChain ∧ AbortsThough unlistedChain := by
  refine ⟨?_, ?_, ?_⟩
  · exact ⟨by decide, by decide +kernel⟩
  · exact ⟨by decide, by decide +kernel⟩
  · exact ⟨by decide, by decide +kernel⟩

end MeChain
