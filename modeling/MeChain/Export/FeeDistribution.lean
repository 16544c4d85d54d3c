import MeChain.Export.Genesis
import MeChain.Payouts

/-!
# The rewards through the zero-height export

Commission and rewards are withdrawn, the history is deleted, the scraps go to the community pool, and
validators and delegations start afresh.

* `withdrawAllCommission_run`   the first loop, and the commission it strands;
* `reinitializeValidator_ok`, `reinitializeDelegation_ok`   one validator, one delegation started anew;
* `Restarted`                   the starting info of a delegation refers to a period that stays;
* `handleFeeDistribution_run`   all phases;
* `conservesRewards_iff`        the money is conserved exactly when no commission is stranded;
* `feeDistribution_conserves`   which it is not when every payee may receive coins.
-/

set_option linter.unusedSectionVars false

namespace MeChain
open Fallible

variable {Addr : Type} [SdkAddress Addr] [DecidableEq Addr]

namespace App

section
variable {cfg : Config Addr} {ctx : Context} {s s' : App Addr}

/-! ## commission -/

/-- the whole coins of commission whose payee may not receive coins -/
def stranded (cfg : Config Addr) (s : App Addr) (d : String) : ℤ :=
  s.staking.validators.sum fun v => s.strandedCommission cfg v.operatorAddress d

/-- the commission of every validator is a valid coin list -/
def ValidCommission (s : App Addr) : Prop :=
  ∀ v ∈ s.staking.validators.rows,
    DecCoins.IsValid (s.distr.getValidatorAccumulatedCommission v.operatorAddress)

theorem strandedCommission_nonneg {op : Addr}
    (h : DecCoins.IsValid (s.distr.getValidatorAccumulatedCommission op)) (d : String) :
    0 ≤ s.strandedCommission cfg op d := by
  unfold strandedCommission
  split
  · exact Coins.amountOf_nonneg (fun c hc => ((DecCoins.truncated_isValid h).1 c hc).2.le) d
  · exact le_refl 0

/-- **All commission withdrawn.** -/
theorem withdrawAllCommission_run (hgov : cfg.GovApart) (hs : s.Sound cfg) (hcom : s.ValidCommission)
    (hcover : ∀ d, -Dec.one < s.slack cfg d) (h : s.withdrawAllCommission cfg ctx = .ok s') :
    s'.Sound cfg ∧ SameStaking s s' ∧
      ∀ d, s'.slack cfg d = s.slack cfg d + Dec.ofInt (s.stranded cfg d) := by
  have hrun := foldlM_ok (I := fun done t => t.Sound cfg ∧ SameStaking s t ∧
    t.distr.withdrawAddrs = s.distr.withdrawAddrs ∧
    (∀ op ∉ done.map Validator.operatorAddress, t.distr.getValidatorAccumulatedCommission op
      = s.distr.getValidatorAccumulatedCommission op) ∧
    ∀ d, t.slack cfg d = s.slack cfg d + Dec.ofInt
      (done.map fun v => s.strandedCommission cfg v.operatorAddress d).sum) h
    ⟨hs, SameStaking.refl _, rfl, fun _ _ => rfl, fun d => (add_zero _).symm⟩ (by
      intro done v rest t t' hl hI hstep
      obtain ⟨hsound, hsame, haddrs, hrest, hslack⟩ := hI
      have hv : v ∈ s.staking.validators.rows := by
        rw [hl]
        simp
      have hnew : v.operatorAddress ∉ done.map Validator.operatorAddress := by
        intro hd
        obtain ⟨w, hw, he⟩ := List.mem_map.mp hd
        exact (split_of_pairwise (List.pairwise_map.mp s.staking.validators.nodup) hl).1 w hw he
      have hown := hrest _ hnew
      have hdone : ∀ d, 0 ≤ (done.map fun w => s.strandedCommission cfg w.operatorAddress d).sum := by
        intro d
        refine List.sum_nonneg (fun y hy => ?_)
        obtain ⟨w, hw, rfl⟩ := List.mem_map.mp hy
        exact strandedCommission_nonneg (hcom w (by rw [hl]; simp [hw])) d
      have hsame_stranded : ∀ d, t.strandedCommission cfg v.operatorAddress d
          = s.strandedCommission cfg v.operatorAddress d := by
        intro d
        unfold strandedCommission wholeCommission DistrState.getDelegatorWithdrawAddr
        rw [hown, haddrs]
      obtain ⟨h1, h2, h3, h4, h5⟩ := withdrawValidatorCommission_ok hgov hsound
        (by rw [hown]; exact hcom v hv)
        (fun d => by
          rw [hslack]
          have hnn : 0 ≤ Dec.ofInt (done.map fun w =>
            s.strandedCommission cfg w.operatorAddress d).sum := mul_nonneg (hdone d) Dec.one_pos.le
          linarith [hcover d]) hstep
      refine ⟨h1, hsame.trans h2, h3.trans haddrs, fun op hop => ?_, fun d => ?_⟩
      · rw [List.map_append, List.mem_append, not_or, List.map_singleton, List.mem_singleton] at hop
        rw [h4 op hop.2, hrest op hop.1]
      · rw [h5, hslack, hsame_stranded, List.map_append, List.sum_append, List.map_singleton,
          List.sum_singleton]
        unfold Dec.ofInt
        ring)
  obtain ⟨hsound, hsame, _, _, hslack⟩ := hrun
  exact ⟨hsound, hsame, hslack⟩

/-! ## rewards and history -/

theorem withdrawAllRewards_conserving {x : ExportConfig Addr} {dels : List (Delegation Addr)}
    (hgov : x.cfg.GovApart) (hrules : x.rules.NonNegative) (hs : s.Sound x.cfg)
    (h : s.withdrawAllRewards x ctx dels = .ok s') : Conserving x.cfg s s' := by
  refine foldlM_ok (I := fun _ t => Conserving x.cfg s t) h (Conserving.refl hs) ?_
  intro done del rest t t' _ hI hstep
  exact hI.trans (withdrawRewards_conserving hgov hrules hI.sound (panicOnError_ok.mp hstep))

theorem clearHistory_conserving (hs : s.Sound cfg) : Conserving cfg s s.clearHistory :=
  conserving_distr hs ⟨hs.distr.outstanding, hs.distr.current, hs.distr.pool⟩ (fun _ => rfl)

/-! ## validators -/

/-- **One validator started anew**: its scraps are in the pool, and nothing is outstanding. -/
theorem reinitializeValidator_ok {val : Validator Addr} (hs : s.Sound cfg)
    (h : s.reinitializeValidator val = .ok s') : Conserving cfg s s' ∧
      ∀ op d, s'.distr.outstandingOf op d
        = if op = val.operatorAddress then 0 else s.distr.outstandingOf op d := by
  obtain ⟨pool, hpool, h⟩ := bind_eq_ok.mp h
  obtain ⟨v, hv, h⟩ := bind_eq_ok.mp h
  cases h
  have hop : v.operatorAddress = val.operatorAddress := Table.get_key (deref_ok.mp hv)
  rw [hop]
  have hp := DecCoins.amountOf_safeAdd hpool
  have hout : ∀ op d, (DistrState.initializeValidator { s.distr with communityPool := pool }
      val.operatorAddress).outstandingOf op d
      = if op = val.operatorAddress then 0 else s.distr.outstandingOf op d :=
    fun op d => DistrState.outstandingOf_set s.distr val.operatorAddress op [] d
  refine ⟨conserving_distr hs ⟨fun op d => ?_, fun op d => ?_, fun d => ?_⟩ (fun d => ?_), hout⟩
  · rw [hout]
    split
    · exact le_refl _
    · exact hs.distr.outstanding op d
  · show 0 ≤ DecCoins.amountOf (s.distr.currentRewards.put _ |>.lookupD op _).rewards d
    rw [Table.lookupD_put]
    split
    · exact le_refl _
    · exact hs.distr.current op d
  · show 0 ≤ DecCoins.amountOf pool d
    rw [hp]
    exact add_nonneg (hs.distr.pool d) (hs.distr.outstanding _ d)
  · have htotal := DistrState.totalOf_replace s.distr val.operatorAddress [] pool d
    refine htotal.trans ?_
    rw [hp, DecCoins.amountOf_nil]
    unfold DistrState.outstandingOf
    ring

theorem reinitializeValidators_run {l : List (Validator Addr)} (hs : s.Sound cfg)
    (h : l.foldlM reinitializeValidator s = .ok s') : Conserving cfg s s' ∧
      ∀ v ∈ l, ∀ d, s'.distr.outstandingOf v.operatorAddress d = 0 := by
  refine foldlM_ok (I := fun done t => Conserving cfg s t ∧
    ∀ v ∈ done, ∀ d, t.distr.outstandingOf v.operatorAddress d = 0) h
    ⟨Conserving.refl hs, by simp⟩ ?_
  intro done v rest t t' _ hI hstep
  obtain ⟨hcons, hout⟩ := reinitializeValidator_ok hI.1.sound hstep
  refine ⟨hI.1.trans hcons, fun w hw d => ?_⟩
  rw [hout]
  rcases List.mem_append.mp hw with hw | hw
  · rw [hI.2 w hw]
    exact ite_self _
  · rw [List.mem_singleton.mp hw, if_pos rfl]

end

end App

/-! ## delegations -/

/-- The starting info of a delegation, made at height zero, refers to a period that ended and is still
referred to; the last period that ended has a second reference, which the next one takes away. -/
def Restarted (s : DistrState Addr) (op del : Addr) : Prop :=
  ∃ info, s.delegatorStartingInfos.get (op, del) = some ((op, del), info) ∧ info.height = 0 ∧
    info.previousPeriod < (s.getValidatorCurrentRewards op).period ∧
    1 ≤ s.references op info.previousPeriod ∧
    (info.previousPeriod + 1 = (s.getValidatorCurrentRewards op).period →
      2 ≤ s.references op info.previousPeriod)

theorem Restarted.increment {s : DistrState Addr} {op del : Addr} {val : Validator Addr}
    {r : DistrState Addr × Nat} (h : Restarted s op del) (hs : s.Sound)
    (hr : s.incrementValidatorPeriod val = .ok r) : Restarted r.1 op del := by
  obtain ⟨info, hget, hzero, hlt, hone, htwo⟩ := h
  obtain ⟨hshift, hperiod, hcur, hrefs⟩ := DistrState.incrementValidatorPeriod_ok hs hr
  have hget' : r.1.delegatorStartingInfos.get (op, del) = some ((op, del), info) := by
    rw [hshift.startingInfos]
    exact hget
  refine ⟨info, hget', hzero, ?_⟩
  rw [hcur, hrefs]
  by_cases hop : op = val.operatorAddress
  · subst hop
    rw [← hperiod] at hlt htwo
    have hne : (val.operatorAddress, info.previousPeriod) ≠ (val.operatorAddress, r.2) :=
      fun he => hlt.ne (Prod.mk.inj he).2
    rw [if_pos rfl, if_neg hne]
    refine ⟨by omega, ?_, fun he => absurd he (by omega)⟩
    by_cases hlast : info.previousPeriod + 1 = r.2
    · have hprev : DistrState.previousPeriod r.2 = info.previousPeriod := by
        rw [← hlast, DistrState.previousPeriod_succ]
      rw [hprev, if_pos rfl]
      have h2 := htwo hlast
      omega
    · have hprev : info.previousPeriod ≠ DistrState.previousPeriod r.2 := by
        unfold DistrState.previousPeriod
        rw [if_neg (by omega)]
        omega
      rw [if_neg (fun he => hprev (Prod.mk.inj he).2)]
      exact hone
  · rw [if_neg hop, if_neg (fun he => hop (Prod.mk.inj he).1),
      if_neg (fun he => hop (Prod.mk.inj he).1)]
    exact ⟨hlt, hone, htwo⟩

/-- the one starting info of a delegation, made at height zero, and the stored period it refers to -/
def FreshInfo (s : DistrState Addr) (op del : Addr) : Prop :=
  ∃ info, (∀ e, e ∈ s.delegatorStartingInfos.rows ∧ e.1 = (op, del) ↔ e = ((op, del), info)) ∧
    info.height = 0 ∧ (s.historicalRewards.get (op, info.previousPeriod)).isSome

theorem Restarted.freshInfo {s : DistrState Addr} {op del : Addr} (h : Restarted s op del) :
    FreshInfo s op del := by
  obtain ⟨info, hget, hzero, _, hone, _⟩ := h
  have hstays : s.references op info.previousPeriod ≠ 0 := by omega
  obtain ⟨historical, hstored⟩ := DistrState.stored_of_references hstays
  refine ⟨info, fun e => ⟨fun he => ?_, fun he => ?_⟩, hzero, by rw [hstored]; rfl⟩
  · exact Table.eq_of_key he.1 (Table.mem_of_get hget) he.2
  · rw [he]
    exact ⟨Table.mem_of_get hget, rfl⟩

namespace App

section
variable {cfg : Config Addr} {ctx : Context} {s s' : App Addr}

/-- **One delegation started anew**: it refers to the period that ended for it. -/
theorem reinitializeDelegation_ok {rules : RewardRules Addr} {del : Delegation Addr}
    (hs : s.Sound cfg) (hctx : ctx.blockHeight = 0)
    (h : s.reinitializeDelegation rules ctx del = .ok s') : Conserving cfg s s' ∧
    (∀ op d, s'.distr.outstandingOf op d ≤ s.distr.outstandingOf op d) ∧
    Restarted s'.distr del.validatorAddress del.delegatorAddress ∧
    ∀ op a, Restarted s.distr op a → Restarted s'.distr op a := by
  obtain ⟨t, ht, h⟩ := bind_eq_ok.mp h
  obtain ⟨val, r, hval, hr, rfl⟩ := beforeDelegationCreated_ok (panicOnError_ok.mp ht)
  have hop : val.operatorAddress = del.validatorAddress := Table.get_key hval
  obtain ⟨hshift, hperiod, hcur, hrefs⟩ := DistrState.incrementValidatorPeriod_ok hs.distr hr
  rw [hop] at hcur hrefs
  have h1 := conserving_distr hs hshift.sound hshift.total
  have h2 := initializeDelegation_conserving h1.sound (panicOnError_ok.mp h)
  obtain ⟨distr, stake, hsame, hinc, rfl⟩ := initializeDelegation_ok (panicOnError_ok.mp h)
  -- the period that ended for this delegation is the one before the current one
  have hcurrent : (r.1.getValidatorCurrentRewards del.validatorAddress).period = r.2 + 1 := by
    rw [hcur, if_pos rfl]
  have hprev : DistrState.previousPeriod (r.2 + 1) = r.2 := DistrState.previousPeriod_succ r.2
  change ∀ op' q, distr.references op' q = if (op', q) = (del.validatorAddress,
    DistrState.previousPeriod (r.1.getValidatorCurrentRewards del.validatorAddress).period)
    then r.1.references del.validatorAddress q + 1 else r.1.references op' q at hinc
  rw [hcurrent, hprev] at hinc h2 ⊢
  have hcur' : ∀ op, (distr.getValidatorCurrentRewards op).period
      = (r.1.getValidatorCurrentRewards op).period := by
    intro op
    rw [hsame]
    rfl
  have hnew : Restarted { distr with
      delegatorStartingInfos := r.1.delegatorStartingInfos.put
        ((del.validatorAddress, del.delegatorAddress), ⟨r.2, stake, ctx.blockHeight⟩) }
      del.validatorAddress del.delegatorAddress := by
    refine ⟨_, Table.get_put_self _ _, hctx, ?_⟩
    show r.2 < (distr.getValidatorCurrentRewards del.validatorAddress).period ∧
      1 ≤ distr.references del.validatorAddress r.2 ∧
      (r.2 + 1 = (distr.getValidatorCurrentRewards del.validatorAddress).period →
        2 ≤ distr.references del.validatorAddress r.2)
    rw [hcur', hcurrent, hinc, if_pos rfl, hrefs, if_pos rfl]
    omega
  refine ⟨h1.trans h2, fun op d => ?_, hnew, fun op a ha => ?_⟩
  · refine le_trans (le_of_eq ?_) (hshift.outstanding op d)
    rw [hsame]
    rfl
  · by_cases hkey : (op, a) = (del.validatorAddress, del.delegatorAddress)
    · obtain ⟨rfl, rfl⟩ := Prod.mk.inj hkey
      exact hnew
    · obtain ⟨info, hget, hzero, hlt, hone, htwo⟩ := ha.increment hs.distr hr
      have hkept := Table.get_put_ne r.1.delegatorStartingInfos
        ((del.validatorAddress, del.delegatorAddress), ⟨r.2, stake, ctx.blockHeight⟩) hkey
      refine ⟨info, hkept.trans hget, hzero, ?_⟩
      show info.previousPeriod < (distr.getValidatorCurrentRewards op).period ∧
        1 ≤ distr.references op info.previousPeriod ∧
        (info.previousPeriod + 1 = (distr.getValidatorCurrentRewards op).period →
          2 ≤ distr.references op info.previousPeriod)
      rw [hcur', hinc]
      by_cases he : (op, info.previousPeriod) = (del.validatorAddress, r.2)
      · -- it refers to the period that just ended, and has one more reference with it
        rw [if_pos he, ← (Prod.mk.inj he).1]
        refine ⟨hlt, by omega, fun hp => ?_⟩
        have h2 := htwo hp
        omega
      · rw [if_neg he]
        exact ⟨hlt, hone, htwo⟩

theorem reinitializeDelegations_run {rules : RewardRules Addr} {l : List (Delegation Addr)}
    (hs : s.Sound cfg) (hctx : ctx.blockHeight = 0)
    (h : l.foldlM (reinitializeDelegation rules ctx) s = .ok s') : Conserving cfg s s' ∧
    (∀ op d, s'.distr.outstandingOf op d ≤ s.distr.outstandingOf op d) ∧
    ∀ del ∈ l, Restarted s'.distr del.validatorAddress del.delegatorAddress := by
  refine foldlM_ok (I := fun done t => Conserving cfg s t ∧
    (∀ op d, t.distr.outstandingOf op d ≤ s.distr.outstandingOf op d) ∧
    ∀ del ∈ done, Restarted t.distr del.validatorAddress del.delegatorAddress) h
    ⟨Conserving.refl hs, fun _ _ => le_refl _, by simp⟩ ?_
  intro done del rest t t' _ hI hstep
  obtain ⟨hcons, hle, hnew, hold⟩ := reinitializeDelegation_ok hI.1.sound hctx hstep
  refine ⟨hI.1.trans hcons, fun op d => (hle op d).trans (hI.2.1 op d), fun e he => ?_⟩
  rcases List.mem_append.mp he with he | he
  · exact hold _ _ (hI.2.2 e he)
  · rw [List.mem_singleton.mp he]
    exact hnew

/-! ## all phases -/

variable {x : ExportConfig Addr}

/-- **The fee distribution.**  What the module account holds beyond the records grows by the commission
that is stranded; no validator has rewards outstanding; every delegation has been started anew. -/
theorem handleFeeDistribution_run (hgov : x.cfg.GovApart) (hrules : x.rules.NonNegative)
    (hs : s.Sound x.cfg) (hcom : s.ValidCommission) (hcover : ∀ d, -Dec.one < s.slack x.cfg d)
    (h : s.handleFeeDistribution x ctx = .ok s') :
    s'.Sound x.cfg ∧
    (∀ d, s'.slack x.cfg d = s.slack x.cfg d + Dec.ofInt (s.stranded x.cfg d)) ∧
    (∀ v ∈ s.staking.validators.rows, ∀ d, s'.distr.outstandingOf v.operatorAddress d = 0) ∧
    ∀ del ∈ s.staking.delegations.rows,
      Restarted s'.distr del.validatorAddress del.delegatorAddress := by
  obtain ⟨t, ht, h⟩ := bind_eq_ok.mp h
  obtain ⟨u, hu, h⟩ := bind_eq_ok.mp h
  obtain ⟨w, hw, h⟩ := bind_eq_ok.mp h
  obtain ⟨hsound, hsame, hslack⟩ := withdrawAllCommission_run hgov hs hcom hcover ht
  have hrewards := withdrawAllRewards_conserving hgov hrules hsound hu
  have hcleared := hrewards.trans (clearHistory_conserving hrewards.sound)
  have hstaking := hsame.trans hcleared.same
  obtain ⟨hval, hzero⟩ := reinitializeValidators_run hcleared.sound hw
  obtain ⟨hdel, hle, hnew⟩ := reinitializeDelegations_run hval.sound rfl h
  rw [hstaking.staking] at hzero
  rw [hsame.staking] at hnew
  refine ⟨hdel.sound, fun d => ?_, fun v hv d => ?_, hnew⟩
  · rw [hdel.slack, hval.slack, hcleared.slack, hslack]
  · have hup := hle v.operatorAddress d
    rw [hzero v hv] at hup
    exact le_antisymm hup (hdel.sound.distr.outstanding v.operatorAddress d)

theorem handleFeeDistribution_same (h : s.handleFeeDistribution x ctx = .ok s') :
    SameStaking s s' := by
  obtain ⟨t, ht, h⟩ := bind_eq_ok.mp h
  obtain ⟨u, hu, h⟩ := bind_eq_ok.mp h
  obtain ⟨w, hw, h⟩ := bind_eq_ok.mp h
  have h1 : SameStaking s t := foldlM_ok (I := fun _ y => SameStaking s y) ht (SameStaking.refl s)
    (fun _ _ _ _ _ _ hI hstep => hI.trans (withdrawValidatorCommission_same hstep))
  have h2 : SameStaking s u := foldlM_ok (I := fun _ y => SameStaking s y) hu h1
    (fun _ _ _ _ _ _ hI hstep => hI.trans (withdrawRewards_same (panicOnError_ok.mp hstep)))
  have hcleared : SameStaking s u.clearHistory := ⟨h2.staking, h2.slashing⟩
  have h3 : SameStaking s w := foldlM_ok (I := fun _ y => SameStaking s y) hw hcleared
    (fun _ v _ y y' _ hI hstep => by
      obtain ⟨pool, _, hstep⟩ := bind_eq_ok.mp hstep
      obtain ⟨v', _, hstep⟩ := bind_eq_ok.mp hstep
      cases hstep
      exact ⟨hI.staking, hI.slashing⟩)
  exact foldlM_ok (I := fun _ y => SameStaking s y) h h3 (fun _ del _ y y' _ hI hstep => by
    obtain ⟨z, hz, hstep⟩ := bind_eq_ok.mp hstep
    obtain ⟨val, r, _, _, rfl⟩ := beforeDelegationCreated_ok (panicOnError_ok.mp hz)
    have hlast := initializeDelegation_same (panicOnError_ok.mp hstep)
    exact ⟨hlast.staking.trans hI.staking, hlast.slashing.trans hI.slashing⟩)

/-! ## conservation -/

/-- the balance of the module account is the whole part of what is recorded -/
def RewardsBacked (cfg : Config Addr) (s : App Addr) : Prop :=
  ∀ d, s.distrBalance cfg d = Dec.truncate (s.distr.totalOf d)

/-- What the fee distribution has to keep: the module account covers the records, what was paid and
what is recorded are what was recorded before, no validator has rewards outstanding, and every
delegation starts afresh. -/
structure ConservesRewards (cfg : Config Addr) (s s' : App Addr) : Prop where
  backed : RewardsBacked cfg s'
  paid : ∀ d, Dec.ofInt (s.distrBalance cfg d - s'.distrBalance cfg d) + s'.distr.totalOf d
    = s.distr.totalOf d
  emptied : ∀ v ∈ s.staking.validators.rows, ∀ d, s'.distr.outstandingOf v.operatorAddress d = 0
  restarted : ∀ del ∈ s.staking.delegations.rows,
    FreshInfo s'.distr del.validatorAddress del.delegatorAddress

/-- a module account that covers the records does so with less than a unit to spare -/
theorem RewardsBacked.slack_bounds (hs : s.Sound cfg) (h : RewardsBacked cfg s) (d : String) :
    -Dec.one < s.slack cfg d ∧ s.slack cfg d ≤ 0 := by
  have hlt := Dec.change_lt (a := s.distr.totalOf d)
  have hnn := Dec.change_nonneg (hs.distr.totalOf_nonneg d)
  rw [← h d] at hlt hnn
  unfold slack
  exact ⟨by linarith, by linarith⟩

theorem rewardsBacked_of_slack (hs : s.Sound cfg)
    (h : ∀ d, -Dec.one < s.slack cfg d ∧ s.slack cfg d ≤ 0) : RewardsBacked cfg s := by
  intro d
  have htotal : s.distr.totalOf d = Dec.ofInt (s.distrBalance cfg d) + -s.slack cfg d := by
    unfold slack
    ring
  rw [htotal, Dec.truncate_ofInt_add (show 0 ≤ s.distrBalance cfg d from hs.bank.nonneg _ d)]
  · linarith [(h d).2]
  · linarith [(h d).1]

theorem stranded_eq_zero_iff (hcom : s.ValidCommission) (d : String) : s.stranded cfg d = 0 ↔
    ∀ v ∈ s.staking.validators.rows, s.strandedCommission cfg v.operatorAddress d = 0 := by
  refine ⟨fun h v hv => ?_, fun h => Table.sum_zero _ h⟩
  refine List.all_zero_of_le_zero_le_of_sum_eq_zero (fun n hn => ?_) h (List.mem_map_of_mem hv)
  obtain ⟨w, hw, rfl⟩ := List.mem_map.mp hn
  exact strandedCommission_nonneg (hcom w hw) d

/-- **The fee distribution conserves the money exactly when** every validator whose payee may not
receive coins has less than a whole coin of commission. -/
theorem conservesRewards_iff (hgov : x.cfg.GovApart) (hrules : x.rules.NonNegative)
    (hs : s.Sound x.cfg) (hcom : s.ValidCommission) (hbacked : RewardsBacked x.cfg s)
    (h : s.handleFeeDistribution x ctx = .ok s') : ConservesRewards x.cfg s s' ↔
    ∀ v ∈ s.staking.validators.rows,
      blockedAddr x.cfg (s.distr.getDelegatorWithdrawAddr v.operatorAddress) = true →
      ∀ d, (s.wholeCommission v.operatorAddress).amountOf d = 0 := by
  have hcover := hbacked.slack_bounds hs
  obtain ⟨hsound, hslack, hzero, hnew⟩ :=
    handleFeeDistribution_run hgov hrules hs hcom (fun d => (hcover d).1) h
  constructor
  · intro hkept v hv hblocked d
    have hnone : Dec.ofInt (s.stranded x.cfg d) = 0 := by
      have hd := hslack d
      have hpaid := hkept.paid d
      unfold slack Dec.ofInt at *
      linarith
    have hstranded : s.stranded x.cfg d = 0 :=
      (mul_eq_zero.mp hnone).resolve_right Dec.one_pos.ne'
    have hv0 := (stranded_eq_zero_iff hcom d).mp hstranded v hv
    unfold strandedCommission at hv0
    rwa [if_pos hblocked] at hv0
  · intro hpayees
    have hstranded : ∀ d, s.stranded x.cfg d = 0 := by
      refine fun d => (stranded_eq_zero_iff hcom d).mpr (fun v hv => ?_)
      unfold strandedCommission
      split
      · rename_i hblocked
        exact hpayees v hv hblocked d
      · rfl
    have hsame : ∀ d, s'.slack x.cfg d = s.slack x.cfg d := by
      intro d
      rw [hslack, hstranded]
      exact add_zero _
    refine ⟨rewardsBacked_of_slack hsound (fun d => by rw [hsame]; exact hcover d), fun d => ?_,
      hzero, fun del hdel => (hnew del hdel).freshInfo⟩
    have hd := hsame d
    unfold slack Dec.ofInt at *
    linarith

/-- every validator's payee may receive coins, as `SetWithdrawAddr` sees to -/
def PayeesAllowed (cfg : Config Addr) (s : App Addr) : Prop :=
  ∀ v ∈ s.staking.validators.rows,
    blockedAddr cfg (s.distr.getDelegatorWithdrawAddr v.operatorAddress) = false

instance (cfg : Config Addr) (s : App Addr) : Decidable (PayeesAllowed cfg s) :=
  inferInstanceAs (Decidable (∀ v ∈ s.staking.validators.rows, _))

/-- **The fee distribution conserves the money** when every payee may receive coins. -/
theorem feeDistribution_conserves (hgov : x.cfg.GovApart) (hrules : x.rules.NonNegative)
    (hs : s.Sound x.cfg) (hcom : s.ValidCommission) (hbacked : RewardsBacked x.cfg s)
    (hpayees : PayeesAllowed x.cfg s) (h : s.handleFeeDistribution x ctx = .ok s') :
    ConservesRewards x.cfg s s' := by
  refine (conservesRewards_iff hgov hrules hs hcom hbacked h).mpr (fun v hv hblocked => ?_)
  rw [hpayees v hv] at hblocked
  cases hblocked

end

end App

/-! ## a chain with one validator -/

/-- the rules for validators that were never slashed and whose shares are worth a token each -/
def RewardRules.unslashed : RewardRules Addr where
  calculateDelegationRewards ctx s val del endingPeriod :=
    let info := s.distr.delegatorStartingInfos.lookupD (val.operatorAddress, del.delegatorAddress)
      ⟨0, 0, 0⟩
    if info.height = ctx.blockHeight then .ok []
    else if endingPeriod < info.previousPeriod then
      goPanic "startingPeriod cannot be greater than endingPeriod"
    else if info.stake < 0 then goPanic "stake should not be negative"
    else do
      let starting := s.distr.getValidatorHistoricalRewards val.operatorAddress info.previousPeriod
      let ending := s.distr.getValidatorHistoricalRewards val.operatorAddress endingPeriod
      let difference ← DecCoins.sub ending.cumulativeRewardRatio starting.cumulativeRewardRatio
      .ok (DecCoins.mulDecTruncate difference info.stake)
  tokensFromSharesTruncated _ shares := .ok shares

theorem RewardRules.unslashed_nonNegative : (unslashed : RewardRules Addr).NonNegative := by
  intro ctx s val del period cs h
  unfold unslashed at h
  dsimp only at h
  split at h
  · cases h
    simp
  · obtain ⟨_, h⟩ := guard_eq_ok.mp h
    obtain ⟨hstake, h⟩ := guard_eq_ok.mp h
    obtain ⟨difference, hdiff, h⟩ := bind_eq_ok.mp h
    cases h
    exact DecCoins.mulDecTruncate_nonneg (DecCoins.sub_nonneg hdiff) (not_lt.mp hstake)

def ExportConfig.fixed : ExportConfig String where
  cfg := Config.fixed "me1admin" "me1dev"
  rules := .unslashed
  invariants := [moduleAccountsBroken .sdk]

namespace App

/-- five umec outstanding: two of commission, and three of the one delegation; the bonded pool holds the
tokens of the validator -/
def commissionRecords : App String where
  auth := ⟨.empty, .empty, 0⟩
  bank := ⟨⟨[⟨newModuleAddress "bonded_tokens_pool", "umec", 3000000⟩,
    ⟨newModuleAddress "distribution", "umec", 5⟩], by decide⟩, ⟨[⟨"umec", 3000005⟩], by decide⟩⟩
  staking := { StakingState.empty with
    validators := ⟨[⟨"me1val1", some "pk1", false, .bonded, some 3000000,
      some (Dec.ofInt 3000000), "node1", 0, "me1dev"⟩], by decide⟩
    delegations := ⟨[⟨"me1del", "me1val1", Dec.ofInt 3000000, 7, 3000000, 0, 0⟩], by decide⟩ }
  distr :=
    { outstandingRewards := ⟨[("me1val1", [⟨"umec", Dec.ofInt 5⟩])], by decide⟩
      accumulatedCommission := ⟨[("me1val1", [⟨"umec", Dec.ofInt 2⟩])], by decide⟩
      currentRewards := ⟨[("me1val1", ⟨[⟨"umec", Dec.ofInt 3⟩], 2⟩)], by decide⟩
      historicalRewards := ⟨[(("me1val1", 1), ⟨[], 2⟩)], by decide⟩
      communityPool := []
      delegatorStartingInfos := ⟨[(("me1val1", "me1del"), ⟨1, Dec.ofInt 3000000, 7⟩)], by decide⟩
      withdrawAddrs := .empty
      slashEvents := .empty }
  slashing := ⟨.empty, .empty⟩

/-- the validator has its commission sent to `payee` -/
def commissionChain (payee : String) : App String :=
  { commissionRecords with distr := { commissionRecords.distr with
    withdrawAddrs := Table.empty.put ("me1val1", payee) } }

theorem commissionRecords_supply (d : String) : commissionRecords.bank.supplyOf d
    = if d = "umec" then 3000005 else 0 :=
  Table.valueAt_put Table.empty Coin.amount ⟨"umec", 3000005⟩ d

theorem commissionRecords_wellFormed : commissionRecords.bank.WellFormed where
  balances := by decide
  supply d := by
    rw [commissionRecords_supply]
    split
    · decide
    · decide

theorem commissionChain_sound (payee : String) :
    (commissionChain payee).Sound (Config.fixed "me1admin" "me1dev") := by
  have hdistr : commissionRecords.distr.Sound :=
    DistrState.sound_of_rows (by decide) (by decide) (by decide)
  refine ⟨commissionRecords_wellFormed, fun d => ?_, fun _ _ => rfl,
    ⟨hdistr.outstanding, hdistr.current, hdistr.pool⟩⟩
  refine (commissionRecords_supply d).trans ?_
  show _ = (if "umec" = d then (3000000 : ℤ) else 0) + ((if "umec" = d then 5 else 0) + 0)
  by_cases hd : d = "umec"
  · rw [if_pos hd, if_pos hd.symm, if_pos hd.symm]
    rfl
  · rw [if_neg hd, if_neg (Ne.symm hd), if_neg (Ne.symm hd)]
    rfl

theorem commissionChain_backed (payee : String) :
    RewardsBacked (Config.fixed "me1admin" "me1dev") (commissionChain payee) := by
  intro d
  show commissionRecords.distrBalance (Config.fixed "me1admin" "me1dev") d
    = Dec.truncate (commissionRecords.distr.totalOf d)
  by_cases hd : d = "umec"
  · subst hd
    decide
  · have hbalance : commissionRecords.distrBalance (Config.fixed "me1admin" "me1dev") d = 0 :=
      (Table.valueAt_put Table.empty Balance.amount ⟨newModuleAddress "distribution", "umec", 5⟩
        (newModuleAddress "distribution", d)).trans (if_neg (fun he => hd (Prod.mk.inj he).2))
    have htotal : commissionRecords.distr.totalOf d = 0 := by
      show (if "umec" = d then Dec.ofInt 5 else 0) + 0 + 0 + 0 = 0
      rw [if_neg (Ne.symm hd)]
      rfl
    rw [hbalance, htotal]
    rfl

theorem commissionChain_validCommission (payee : String) :
    (commissionChain payee).ValidCommission := by
  show ∀ v ∈ commissionRecords.staking.validators.rows,
    DecCoins.IsValid (commissionRecords.distr.getValidatorAccumulatedCommission v.operatorAddress)
  decide

/-- commission paid to the operator: the money is conserved -/
theorem feeDistribution_conserves_paid :
    ∃ s', (commissionChain "me1val1").handleFeeDistribution .fixed .first = .ok s' ∧
      ConservesRewards (Config.fixed "me1admin" "me1dev") (commissionChain "me1val1") s' := by
  obtain ⟨s', hs'⟩ := exists_ok_of_isOk
    (x := (commissionChain "me1val1").handleFeeDistribution .fixed .first) (by decide +kernel)
  exact ⟨s', hs', feeDistribution_conserves (by decide) RewardRules.unslashed_nonNegative
    (commissionChain_sound _) (commissionChain_validCommission _) (commissionChain_backed _)
    (by decide) hs'⟩

/-- commission of two umec, for an account that may not receive coins, leaves the records and stays in
the module account -/
theorem handleFeeDistribution_drops_commission :
    ∃ s', (commissionChain (newModuleAddress "fee_collector")).handleFeeDistribution .fixed .first
        = .ok s' ∧
      ¬ ConservesRewards (Config.fixed "me1admin" "me1dev")
        (commissionChain (newModuleAddress "fee_collector")) s' ∧
      s'.distrBalance (Config.fixed "me1admin" "me1dev") "umec" = 2 ∧
      s'.distr.totalOf "umec" = 0 := by
  obtain ⟨s', hs', hcheck⟩ := exists_ok_of_check
    (x := (commissionChain (newModuleAddress "fee_collector")).handleFeeDistribution .fixed .first)
    (p := fun s' => s'.distrBalance (Config.fixed "me1admin" "me1dev") "umec" = 2 ∧
      s'.distr.totalOf "umec" = 0) (by decide +kernel)
  refine ⟨s', hs', fun hkept => ?_, hcheck⟩
  have hbacked := hkept.backed "umec"
  rw [hcheck.1, hcheck.2] at hbacked
  exact absurd hbacked (by decide)

end App

end MeChain
