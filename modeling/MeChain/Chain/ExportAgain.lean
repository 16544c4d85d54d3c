import Mathlib.Logic.Relation
import MeChain.Chain.Runs
import MeChain.Export.Heights

/-!
# Exporting again

An export pays out whatever validators and delegations are due.  A chain that starts from it and is
exported again, any number of times, pays nothing more.

* `NothingDue`                  no validator has commission or rewards outstanding;
* `exported_nothingDue`         so it is after an export;
* `withdrawRewards_nothing`     then no withdrawal pays anything;
* `export_again`                further exports leave the money where it is.
-/

set_option linter.unusedSectionVars false

namespace MeChain
open Fallible

variable {Addr : Type} [SdkAddress Addr] [DecidableEq Addr]

theorem DistrState.SameButHistory.outstandingOf {s t : DistrState Addr} (h : s.SameButHistory t)
    (op : Addr) (d : String) : t.outstandingOf op d = s.outstandingOf op d := by
  rw [h]
  rfl

namespace App

structure NothingDue (s : App Addr) : Prop where
  commission : ∀ v ∈ s.staking.validators.rows,
    s.distr.getValidatorAccumulatedCommission v.operatorAddress = []
  outstanding : ∀ v ∈ s.staking.validators.rows, ∀ d, s.distr.outstandingOf v.operatorAddress d = 0

/-- only the reward records changed -/
def OnlyDistr (s t : App Addr) : Prop := t = { s with distr := t.distr }

theorem OnlyDistr.refl (s : App Addr) : OnlyDistr s s := rfl

theorem OnlyDistr.trans {s t u : App Addr} (h : OnlyDistr s t) (h' : OnlyDistr t u) :
    OnlyDistr s u := by
  unfold OnlyDistr at *
  rw [h] at h'
  exact h'

theorem OnlyDistr.staking {s t : App Addr} (h : OnlyDistr s t) : t.staking = s.staking := by
  rw [h]

section
variable {cfg : Config Addr} {rules : RewardRules Addr} {ctx : Context} {s s' t : App Addr}

/-! ## after an export -/

theorem reinitializeValidators_commission {l : List (Validator Addr)}
    (h : l.foldlM reinitializeValidator s = .ok s') : ∀ v ∈ l,
      s'.distr.getValidatorAccumulatedCommission v.operatorAddress = [] := by
  refine foldlM_ok (I := fun done t => ∀ v ∈ done,
    t.distr.getValidatorAccumulatedCommission v.operatorAddress = []) h (by simp) ?_
  intro done val rest t t' _ hI hstep v hv
  obtain ⟨pool, _, hstep⟩ := bind_eq_ok.mp hstep
  obtain ⟨found, hfound, hstep⟩ := bind_eq_ok.mp hstep
  cases hstep
  have hop : found.operatorAddress = val.operatorAddress := Table.get_key (deref_ok.mp hfound)
  show (t.distr.accumulatedCommission.put (found.operatorAddress, [])).lookupD v.operatorAddress []
    = []
  rw [Table.lookupD_put, hop]
  split
  · rfl
  · rename_i hne
    rcases List.mem_append.mp hv with hv | hv
    · exact hI v hv
    · exact absurd (by rw [List.mem_singleton.mp hv]) hne

theorem reinitializeDelegations_commission {l : List (Delegation Addr)} (hs : s.Sound cfg)
    (hctx : ctx.blockHeight = 0) (h : l.foldlM (reinitializeDelegation rules ctx) s = .ok s') :
    s'.distr.accumulatedCommission = s.distr.accumulatedCommission := by
  have hrun := foldlM_ok (I := fun _ t => t.Sound cfg ∧
    t.distr.accumulatedCommission = s.distr.accumulatedCommission) h ⟨hs, rfl⟩ (by
      intro done del rest t t' _ hI hstep
      have hpaid : Paid cfg t t' := reinitializeDelegation_paid hI.1.distr hstep
      exact ⟨(reinitializeDelegation_ok hI.1 hctx hstep).1.sound, hpaid.commission.trans hI.2⟩)
  exact hrun.2

/-- **The fee distribution leaves nothing due.** -/
theorem handleFeeDistribution_settles {x : ExportConfig Addr} (hgov : x.cfg.GovApart)
    (hrules : x.rules.NonNegative) (hs : s.Sane x.cfg)
    (h : s.handleFeeDistribution x ctx = .ok s') : s'.NothingDue := by
  have hsame := handleFeeDistribution_same h
  have hcom : s.ValidCommission := fun v _ => hs.commission v.operatorAddress
  obtain ⟨_, _, houtstanding, _⟩ :=
    handleFeeDistribution_run hgov hrules hs.sound hcom hs.covered h
  obtain ⟨t, ht, h⟩ := bind_eq_ok.mp h
  obtain ⟨u, hu, h⟩ := bind_eq_ok.mp h
  obtain ⟨w, hw, h⟩ := bind_eq_ok.mp h
  obtain ⟨hsound, hpaid, _⟩ := withdrawAllCommission_run hgov hs.sound hcom hs.covered ht
  have hrewards := withdrawAllRewards_conserving hgov hrules hsound hu
  have hcleared := hrewards.trans (clearHistory_conserving hrewards.sound)
  have hlisted : u.clearHistory.staking = s.staking := (hpaid.trans hcleared.same).staking
  have hemptied := reinitializeValidators_commission hw
  have hkept := reinitializeDelegations_commission
    (reinitializeValidators_run hcleared.sound hw).1.sound rfl h
  rw [hlisted] at hemptied
  refine ⟨fun v hv => ?_, fun v hv => houtstanding v (by rw [← hsame.staking]; exact hv)⟩
  rw [hsame.staking] at hv
  unfold DistrState.getValidatorAccumulatedCommission
  rw [hkept]
  exact hemptied v hv

/-! ## nothing to pay -/

theorem withdrawAllCommission_nothing (hdue : s.NothingDue)
    (h : s.withdrawAllCommission cfg ctx = .ok s') : s' = s := by
  refine foldlM_ok (I := fun _ t => t = s) h rfl ?_
  intro done v rest t t' hl hI hstep
  subst hI
  have hnone : t.distr.getValidatorAccumulatedCommission v.operatorAddress = [] :=
    hdue.commission v (by rw [hl]; simp)
  unfold withdrawValidatorCommission at hstep
  rw [hnone, if_pos (show DecCoins.IsZero [] by decide)] at hstep
  cases hstep
  rfl

/-- nobody withdraws more than is outstanding -/
theorem delegationRewards_nothing {val : Validator Addr} {del : Delegation Addr} {period : Nat}
    {rewards : DecCoins} (hrules : rules.NonNegative)
    (hdue : ∀ d, s.distr.outstandingOf val.operatorAddress d = 0)
    (h : s.delegationRewards rules ctx val del period = .ok rewards) : rewards = [] := by
  obtain ⟨raw, hraw, h⟩ := bind_eq_ok.mp h
  cases h
  have hnonneg := hrules _ _ _ _ _ _ hraw
  refine List.filter_eq_nil_iff.mpr (fun c hc => ?_)
  obtain ⟨y, hy, rfl⟩ := List.mem_map.mp hc
  have hnone : DecCoins.amountOf (s.distr.getValidatorOutstandingRewards val.operatorAddress) y.denom
    = 0 := hdue y.denom
  have hmin : min y.amount 0 = 0 := min_eq_right (hnonneg y hy)
  simp [hnone, hmin]

theorem payDelegationRewards_nothing {op del : Addr}
    (h : s.payDelegationRewards cfg ctx op del [] = .ok s') : OnlyDistr s s' ∧
      ∀ op' d, s'.distr.outstandingOf op' d = s.distr.outstandingOf op' d := by
  obtain ⟨t, ht, h⟩ := bind_eq_ok.mp h
  obtain ⟨outstanding, hout, h⟩ := bind_eq_ok.mp h
  obtain ⟨pool, _, h⟩ := bind_eq_ok.mp h
  cases h
  have hsent : t = s := by
    unfold sendRewards at ht
    rw [if_pos (show (DecCoins.truncateDecimal []).1.IsZero by decide)] at ht
    cases ht
    rfl
  subst hsent
  refine ⟨rfl, fun op' d => ?_⟩
  show (t.distr.setValidatorOutstandingRewards op outstanding).outstandingOf op' d = _
  rw [DistrState.outstandingOf_set]
  split
  · rename_i hop
    have hsame := (DecCoins.amountOf_sub hout d).1
    rw [DecCoins.amountOf_nil, sub_zero] at hsame
    rw [hop]
    exact hsame
  · rfl

theorem initializeDelegation_records {op del : Addr}
    (h : s.initializeDelegation rules ctx op del = .ok s') : OnlyDistr s s' ∧
      ∀ op' d, s'.distr.outstandingOf op' d = s.distr.outstandingOf op' d := by
  obtain ⟨distr, stake, hsame, _, rfl⟩ := initializeDelegation_ok h
  exact ⟨rfl, fun op' d => hsame.outstandingOf op' d⟩

theorem withdrawDelegationRewards_nothing {val : Validator Addr} {del : Delegation Addr}
    (hrules : rules.NonNegative) (hs : s.Sound cfg)
    (hdue : ∀ d, s.distr.outstandingOf val.operatorAddress d = 0)
    (h : s.withdrawDelegationRewards cfg rules ctx val del = .ok s') : OnlyDistr s s' ∧
      ∀ op d, s'.distr.outstandingOf op d ≤ s.distr.outstandingOf op d := by
  unfold withdrawDelegationRewards at h
  split at h
  · cases h
  · obtain ⟨r, hr, h⟩ := bind_eq_ok.mp h
    obtain ⟨rewards, hrewards, h⟩ := bind_eq_ok.mp h
    obtain ⟨t, ht, h⟩ := bind_eq_ok.mp h
    obtain ⟨distr, hdec, h⟩ := bind_eq_ok.mp h
    cases h
    have hshift := (DistrState.incrementValidatorPeriod_ok hs.distr hr).1
    have hnone : ∀ d, r.1.outstandingOf val.operatorAddress d = 0 := by
      intro d
      have hle := hshift.outstanding val.operatorAddress d
      rw [hdue] at hle
      exact le_antisymm hle (hshift.sound.outstanding _ d)
    have hzero : rewards = [] :=
      delegationRewards_nothing (s := { s with distr := r.1 }) hrules hnone hrewards
    rw [hzero] at ht
    obtain ⟨honly, hsame⟩ := payDelegationRewards_nothing ht
    have hdropped := (DistrState.decrementReferenceCount_ok hdec).1
    have hperiod : OnlyDistr s { s with distr := r.1 } := rfl
    refine ⟨(hperiod.trans honly).trans rfl, fun op d => ?_⟩
    calc distr.outstandingOf op d = r.1.outstandingOf op d :=
          (hdropped.outstandingOf op d).trans (hsame op d)
      _ ≤ s.distr.outstandingOf op d := hshift.outstanding op d

/-- **A withdrawal when nothing is outstanding** changes records only. -/
theorem withdrawRewards_nothing {delAddr valAddr : Addr} (hrules : rules.NonNegative)
    (hs : s.Sound cfg)
    (hdue : ∀ v ∈ s.staking.validators.rows, ∀ d, s.distr.outstandingOf v.operatorAddress d = 0)
    (h : s.withdrawRewards cfg rules ctx delAddr valAddr = .ok s') : OnlyDistr s s' ∧
      ∀ op d, s'.distr.outstandingOf op d ≤ s.distr.outstandingOf op d := by
  unfold withdrawRewards at h
  split at h
  · cases h
  · cases h
  · rename_i val del hval _
    obtain ⟨t, ht, h⟩ := bind_eq_ok.mp h
    obtain ⟨honly, hle⟩ :=
      withdrawDelegationRewards_nothing hrules hs (hdue val (Table.mem_of_get hval)) ht
    obtain ⟨hinit, hsame⟩ := initializeDelegation_records h
    exact ⟨honly.trans hinit, fun op d => (hsame op d).le.trans (hle op d)⟩

theorem withdrawAllRewards_nothing {x : ExportConfig Addr} {dels : List (Delegation Addr)}
    (hgov : x.cfg.GovApart) (hrules : x.rules.NonNegative) (hs : s.Sound x.cfg)
    (hdue : ∀ v ∈ s.staking.validators.rows, ∀ d, s.distr.outstandingOf v.operatorAddress d = 0)
    (h : s.withdrawAllRewards x ctx dels = .ok s') : OnlyDistr s s' := by
  have hrun := foldlM_ok (I := fun _ t => OnlyDistr s t ∧ t.Sound x.cfg ∧
    ∀ v ∈ s.staking.validators.rows, ∀ d, t.distr.outstandingOf v.operatorAddress d = 0) h
    ⟨OnlyDistr.refl s, hs, hdue⟩ (by
      intro done del rest t t' _ hI hstep
      obtain ⟨honly, hsound, hnone⟩ := hI
      have hok := panicOnError_ok.mp hstep
      have hsound' := (withdrawRewards_conserving hgov hrules hsound hok).sound
      obtain ⟨honly', hle⟩ :=
        withdrawRewards_nothing hrules hsound (by rw [honly.staking]; exact hnone) hok
      refine ⟨honly.trans honly', hsound', fun v hv d => ?_⟩
      have hup := hle v.operatorAddress d
      rw [hnone v hv] at hup
      exact le_antisymm hup (hsound'.distr.outstanding _ d))
  exact hrun.1

/-- **The fee distribution when nothing is due** pays nothing. -/
theorem handleFeeDistribution_nothing {x : ExportConfig Addr} (hgov : x.cfg.GovApart)
    (hrules : x.rules.NonNegative) (hs : s.Sound x.cfg) (hdue : s.NothingDue)
    (h : s.handleFeeDistribution x ctx = .ok s') : OnlyDistr s s' := by
  obtain ⟨t, ht, hrest⟩ := bind_eq_ok.mp h
  obtain rfl := withdrawAllCommission_nothing hdue ht
  obtain ⟨u, hu, hrest⟩ := bind_eq_ok.mp hrest
  obtain ⟨w, hw, hlast⟩ := bind_eq_ok.mp hrest
  have hrewards := withdrawAllRewards_nothing hgov hrules hs hdue.outstanding hu
  have hcleared : OnlyDistr u u.clearHistory := rfl
  have hvalidators : OnlyDistr u.clearHistory w := by
    refine foldlM_ok (I := fun _ y => OnlyDistr u.clearHistory y) hw (OnlyDistr.refl _) ?_
    intro done val rest y y' _ hI hstep
    obtain ⟨pool, _, hstep⟩ := bind_eq_ok.mp hstep
    obtain ⟨found, _, hstep⟩ := bind_eq_ok.mp hstep
    cases hstep
    exact hI.trans rfl
  have hdelegations : OnlyDistr w s' := by
    refine foldlM_ok (I := fun _ y => OnlyDistr w y) hlast (OnlyDistr.refl _) ?_
    intro done del rest y y' _ hI hstep
    obtain ⟨z, hz, hstep⟩ := bind_eq_ok.mp hstep
    obtain ⟨val, r, _, _, rfl⟩ := beforeDelegationCreated_ok (panicOnError_ok.mp hz)
    have hperiod : OnlyDistr y { y with distr := r.1 } := rfl
    exact hI.trans (hperiod.trans (initializeDelegation_records (panicOnError_ok.mp hstep)).1)
  exact ((hrewards.trans hcleared).trans hvalidators).trans hdelegations

theorem NothingDue.stranded (hdue : s.NothingDue) (d : String) : s.stranded cfg d = 0 := by
  refine Table.sum_zero _ (fun v hv => strandedCommission_zero ?_)
  unfold wholeCommission
  rw [hdue.commission v hv]
  rfl

end

end App

/-! ## exports -/

section
variable [ValAddress Addr] [LE Addr] [DecidableLE Addr] {x : ExportConfig Addr} {s t u : App Addr}

/-- `t` is what an export of `s` leaves, at some height and with some allow list -/
def Exported (x : ExportConfig Addr) (s t : App Addr) : Prop :=
  ∃ ctx jailAllowedAddrs, prepForZeroHeightGenesis x ctx jailAllowedAddrs s = .ok t

theorem exported_nothingDue (hgov : x.cfg.GovApart) (hrules : x.rules.NonNegative)
    (hs : s.Sane x.cfg) (h : Exported x s t) : t.NothingDue := by
  obtain ⟨ctx, l, h⟩ := h
  have hsettled := (prepForZeroHeightGenesis_settled h).1
  obtain ⟨_, _, u, y, w, hu, _, hpools, rfl⟩ := prepForZeroHeightGenesis_ok.mp h
  have hdue := App.handleFeeDistribution_settles hgov hrules hs hu
  rw [← (App.handleFeeDistribution_same hu).staking] at hsettled
  -- every validator of the export is one of the chain, under its address
  have hlisted : ∀ z ∈ w.staking.validators.rows, ∃ v ∈ u.staking.validators.rows,
      z.operatorAddress = v.operatorAddress := by
    intro z hz
    obtain ⟨v, hv, rfl⟩ := (mem_settled_reset hsettled).mp hz
    exact ⟨v, hv, by simp⟩
  have hdistr : w.distr = u.distr := by
    rw [App.updatePools_frame hpools]
  refine ⟨fun z hz => ?_, fun z hz d => ?_⟩
  · obtain ⟨v, hv, hop⟩ := hlisted z hz
    show w.distr.getValidatorAccumulatedCommission _ = []
    rw [hdistr, hop]
    exact hdue.commission v hv
  · obtain ⟨v, hv, hop⟩ := hlisted z hz
    show w.distr.outstandingOf _ d = 0
    rw [hdistr, hop]
    exact hdue.outstanding v hv d

/-- what one more export keeps -/
theorem exported_again (hgov : x.cfg.GovApart) (hpools : x.cfg.PoolsApart)
    (hrules : x.rules.NonNegative) (hs : s.Sane x.cfg) (hdue : s.NothingDue) (h : Exported x s t) :
    t.Sane x.cfg ∧ t.NothingDue ∧ App.PoolsMoved x.cfg s t ∧
      ∀ d, t.distr.totalOf d = s.distr.totalOf d := by
  have hdue' := exported_nothingDue hgov hrules hs h
  obtain ⟨ctx, l, h⟩ := h
  have hsane := (prepForZeroHeightGenesis_advances hgov hpools hrules hs h).sane
  obtain ⟨_, _, u, y, w, hu, _, hpay, rfl⟩ := prepForZeroHeightGenesis_ok.mp h
  have honly := App.handleFeeDistribution_nothing hgov hrules hs.sound hdue hu
  obtain ⟨_, hslack, _⟩ := App.handleFeeDistribution_run hgov hrules hs.sound
    (fun v _ => hs.commission v.operatorAddress) hs.covered hu
  have hbank : u.bank = s.bank := by rw [honly]
  have hauth : u.auth = s.auth := by rw [honly]
  have hmoved : App.PoolsMoved x.cfg { u with staking := y.staking } w := App.updatePools_moved hpay
  have hdistr : w.distr = u.distr := by
    rw [App.updatePools_frame hpay]
  refine ⟨hsane, hdue', ?_, fun d => ?_⟩
  · obtain ⟨hsupply, htogether, hothers, hstored⟩ := hmoved
    dsimp only at hsupply htogether hothers hstored
    rw [hbank] at hsupply
    simp only [hbank, hauth] at htogether hothers hstored
    exact ⟨hsupply, htogether, hothers, hstored⟩
  · have hd := hslack d
    rw [hdue.stranded] at hd
    unfold App.slack App.distrBalance Dec.ofInt at hd
    rw [hbank] at hd
    show w.distr.totalOf d = s.distr.totalOf d
    rw [hdistr]
    linarith

/-- **Exporting again pays nobody.**  After one export nothing is due, and however often a chain that
starts from it is exported, at any height and with any allow list, money moves between the token pools
at most, and the rewards on record add up to the same. -/
theorem export_again (hgov : x.cfg.GovApart) (hpools : x.cfg.PoolsApart)
    (hrules : x.rules.NonNegative) (hs : s.Sane x.cfg) (hfirst : Exported x s t)
    (hrest : Relation.ReflTransGen (Exported x) t u) :
    u.NothingDue ∧ App.PoolsMoved x.cfg t u ∧ ∀ d, u.distr.totalOf d = t.distr.totalOf d := by
  have hdue := exported_nothingDue hgov hrules hs hfirst
  have hsane : t.Sane x.cfg := by
    obtain ⟨ctx, l, h⟩ := hfirst
    exact (prepForZeroHeightGenesis_advances hgov hpools hrules hs h).sane
  have hrun : u.Sane x.cfg ∧ u.NothingDue ∧ App.PoolsMoved x.cfg t u ∧
      ∀ d, u.distr.totalOf d = t.distr.totalOf d := by
    induction hrest with
    | refl => exact ⟨hsane, hdue, App.PoolsMoved.refl _ _, fun _ => rfl⟩
    | tail _ hnext ih =>
      obtain ⟨hsane', hdue', hmoved, htotal⟩ := ih
      obtain ⟨h1, h2, h3, h4⟩ := exported_again hgov hpools hrules hsane' hdue' hnext
      exact ⟨h1, h2, hmoved.trans h3, fun d => (h4 d).trans (htotal d)⟩
  exact hrun.2

end

/-- two exports of the chain with rewards: the first unbonds the validator, and the second bonds it -/
theorem export_again_rewarded : ∃ t u, Exported .fixed rewardedChain.app t ∧ Exported .fixed t u ∧
    u.NothingDue ∧ App.PoolsMoved (Config.fixed "me1admin" "me1dev") t u ∧
    t.bank.balance (newModuleAddress "not_bonded_tokens_pool") "umec" = 3000000 ∧
    u.bank.balance (newModuleAddress "not_bonded_tokens_pool") "umec" = 0 := by
  obtain ⟨t, hfirst, u, hsecond, ht, hu⟩ : ∃ t,
      prepForZeroHeightGenesis .fixed .first [] rewardedChain.app = .ok t ∧ ∃ u,
        prepForZeroHeightGenesis .fixed .first ["me1val1"] t = .ok u ∧
        t.bank.balance (newModuleAddress "not_bonded_tokens_pool") "umec" = 3000000 ∧
        u.bank.balance (newModuleAddress "not_bonded_tokens_pool") "umec" = 0 := by
    obtain ⟨⟨t, u⟩, h, hcheck⟩ := exists_ok_of_check (x := do
        let t ← prepForZeroHeightGenesis .fixed .first [] rewardedChain.app
        let u ← prepForZeroHeightGenesis .fixed .first ["me1val1"] t
        .ok (t, u))
      (p := fun q =>
        q.1.bank.balance (newModuleAddress "not_bonded_tokens_pool") "umec" = 3000000 ∧
        q.2.bank.balance (newModuleAddress "not_bonded_tokens_pool") "umec" = 0) (by decide +kernel)
    obtain ⟨t', ht', h⟩ := bind_eq_ok.mp h
    obtain ⟨u', hu', h⟩ := bind_eq_ok.mp h
    cases h
    exact ⟨t, ht', u, hu', hcheck⟩
  have hagain : Exported .fixed t u := ⟨_, _, hsecond⟩
  obtain ⟨hdue, hmoved, _⟩ := export_again (x := .fixed) (by decide) (by decide)
    RewardRules.unslashed_nonNegative rewardedChain_sane ⟨_, _, hfirst⟩
    (Relation.ReflTransGen.single hagain)
  exact ⟨t, u, ⟨_, _, hfirst⟩, hagain, hdue, hmoved, ht, hu⟩

end MeChain
