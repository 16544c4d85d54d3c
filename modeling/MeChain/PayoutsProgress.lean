import MeChain.DecCoinsValid
import MeChain.Payouts

/-!
# When withdrawals succeed

* `Listed`                        the lists on record are valid and what they add up to fits;
* `incrementValidatorPeriod_total`, `_records`   the end of a period;
* `withdrawValidatorCommission_total`, `payDelegationRewards_total`, `initializeDelegation_total`
                                  a payment and a fresh start;
* `LetGo`                         what a withdrawal makes of the records;
* `withdrawRewards_total`         a whole withdrawal.
-/

set_option linter.unusedSectionVars false

namespace MeChain
open Fallible

variable {Addr : Type} [SdkAddress Addr] [DecidableEq Addr]

namespace DistrState

/-- the ratio of a period that ended -/
def ratio (s : DistrState Addr) (op : Addr) (period : Nat) : DecCoins :=
  (s.getValidatorHistoricalRewards op period).cumulativeRewardRatio

def currentPeriod (s : DistrState Addr) (op : Addr) : Nat := (s.getValidatorCurrentRewards op).period

/-- the ratio with which the current period of a validator would end -/
def nextRatio (s : DistrState Addr) (val : Validator Addr) : Res DecCoins := do
  let tokens ← deref val.tokens
  let rewards := (s.getValidatorCurrentRewards val.operatorAddress).rewards
  DecCoins.safeAdd (s.ratio val.operatorAddress
      (previousPeriod (s.currentPeriod val.operatorAddress)))
    (if tokens = 0 then [] else DecCoins.quoDecTruncate rewards (Dec.ofInt tokens))

/-- the lists on record are valid, and what they add up to fits -/
structure Listed (s : DistrState Addr) : Prop where
  outstanding : ∀ op, DecCoins.IsValid (s.getValidatorOutstandingRewards op)
  current : ∀ op, DecCoins.IsValid (s.getValidatorCurrentRewards op).rewards
  pool : DecCoins.IsValid s.communityPool
  fits : ∀ d, Dec.Fits (s.totalOf d)

variable {s t : DistrState Addr} {op : Addr} {val : Validator Addr} {d : String}

theorem Listed.sound (h : s.Listed) : s.Sound where
  outstanding op := DecCoins.amountOf_nonneg (h.outstanding op).nonneg
  current op := DecCoins.amountOf_nonneg (h.current op).nonneg
  pool := DecCoins.amountOf_nonneg h.pool.nonneg

theorem listed_of_rows (hout : ∀ e ∈ s.outstandingRewards.rows, DecCoins.IsValid e.2)
    (hcur : ∀ e ∈ s.currentRewards.rows, DecCoins.IsValid e.2.rewards)
    (hpool : DecCoins.IsValid s.communityPool) (hfits : ∀ d, Dec.Fits (s.totalOf d)) : s.Listed where
  outstanding := Table.lookupD_of_rows (P := fun cs : DecCoins => DecCoins.IsValid cs) hout
    ⟨by simp, List.Pairwise.nil⟩
  current := Table.lookupD_of_rows (P := fun r : CurrentRewards => DecCoins.IsValid r.rewards) hcur
    ⟨by simp, List.Pairwise.nil⟩
  pool := hpool
  fits := hfits

/-- what is recorded of one validator and in the pool fits -/
theorem Listed.part_fits (h : s.Listed) (op : Addr) {x : Dec} (h0 : 0 ≤ x)
    (hle : x ≤ s.outstandingOf op d + DecCoins.amountOf s.communityPool d) : Dec.Fits x :=
  Dec.fits_of_le h0 (hle.trans (outstandingOf_add_pool_le (fun op => h.sound.outstanding op d) op))
    (h.fits d)

/-- outstanding rewards and pool replaced by valid lists that are not more -/
theorem Listed.replaced {outstanding pool : DecCoins} (hs : s.Listed) (hout : DecCoins.IsValid outstanding)
    (hpool : DecCoins.IsValid pool)
    (hle : ∀ d, DecCoins.amountOf outstanding d + DecCoins.amountOf pool d
      ≤ s.outstandingOf op d + DecCoins.amountOf s.communityPool d) :
    Listed { s.setValidatorOutstandingRewards op outstanding with communityPool := pool } := by
  have hlists : ∀ op', DecCoins.IsValid
      ((s.outstandingRewards.put (op, outstanding)).lookupD op' []) := by
    intro op'
    rw [Table.lookupD_put]
    split
    · exact hout
    · exact hs.outstanding op'
  have hsound : DistrState.Sound
      { s.setValidatorOutstandingRewards op outstanding with communityPool := pool } :=
    ⟨fun op' => DecCoins.amountOf_nonneg (hlists op').nonneg, hs.sound.current,
      DecCoins.amountOf_nonneg hpool.nonneg⟩
  refine ⟨hlists, hs.current, hpool, fun d => Dec.fits_of_le (hsound.totalOf_nonneg d) ?_ (hs.fits d)⟩
  have hd := hle d
  rw [totalOf_replace]
  linarith

theorem getValidatorOutstandingRewards_set_ne (s : DistrState Addr) {op op' : Addr} (hne : op' ≠ op)
    (cs : DecCoins) : (s.setValidatorOutstandingRewards op cs).getValidatorOutstandingRewards op'
      = s.getValidatorOutstandingRewards op' := Table.lookupD_put_ne _ hne _

/-! ## periods -/

theorem nextRatio_of_no_rewards {tokens : ℤ} {ratio : DecCoins} (htokens : val.tokens = some tokens)
    (hrewards : (s.getValidatorCurrentRewards val.operatorAddress).rewards = [])
    (hratio : s.ratio val.operatorAddress
      (previousPeriod (s.currentPeriod val.operatorAddress)) = ratio)
    (hv : DecCoins.IsValid ratio) : s.nextRatio val = .ok ratio := by
  have hnone : (if tokens = 0 then [] else DecCoins.quoDecTruncate
      (s.getValidatorCurrentRewards val.operatorAddress).rewards (Dec.ofInt tokens)) = [] := by
    rw [hrewards]
    exact ite_self _
  refine bind_eq_ok.mpr ⟨tokens, deref_ok.mpr htokens, ?_⟩
  dsimp only
  rw [hnone, hratio, DecCoins.safeAdd_nil, DecCoins.removeZero_of_nonzero (fun c hc => (hv.1 c hc).2.ne')]

theorem currentRatio_total (tokens : ℤ) {rewards : DecCoins} (hs : s.Listed)
    (hv : DecCoins.IsValid rewards) (hle : ∀ d, DecCoins.amountOf rewards d ≤ s.outstandingOf op d) :
    ∃ r, s.currentRatio op tokens rewards = .ok r := by
  unfold currentRatio
  by_cases h0 : tokens = 0
  · obtain ⟨pool, hpool⟩ := DecCoins.safeAdd_total hs.pool hv (fun d => by
      have hn1 := hs.sound.pool d
      have hn2 := DecCoins.amountOf_nonneg hv.nonneg d
      have hle' := hle d
      exact hs.part_fits op (d := d) (by linarith) (by linarith))
    obtain ⟨outstanding, hout⟩ := DecCoins.sub_total (hs.outstanding op) hv hle (fun d =>
      hs.part_fits op (d := d) (hs.sound.outstanding op d)
        (le_add_of_nonneg_right (hs.sound.pool d)))
    exact ⟨_, (if_pos h0).trans (bind_eq_ok.mpr ⟨pool, hpool, bind_eq_ok.mpr ⟨outstanding, hout, rfl⟩⟩)⟩
  · exact ⟨_, if_neg h0⟩

/-- what `currentRatio` does: with tokens, nothing but the quotient -/
theorem currentRatio_records {tokens : ℤ} {rewards : DecCoins} {r : DistrState Addr × DecCoins}
    (hs : s.Listed) (hv : DecCoins.IsValid rewards) (h : s.currentRatio op tokens rewards = .ok r) :
    r.1.Listed ∧ (r.2 = if tokens = 0 then [] else DecCoins.quoDecTruncate rewards (Dec.ofInt tokens)) ∧
    r.1 = { s with outstandingRewards := r.1.outstandingRewards, communityPool := r.1.communityPool } ∧
    ∀ op', op' ≠ op →
      r.1.getValidatorOutstandingRewards op' = s.getValidatorOutstandingRewards op' := by
  unfold currentRatio at h
  by_cases h0 : tokens = 0
  · rw [if_pos h0] at h
    obtain ⟨pool, hpool, h⟩ := bind_eq_ok.mp h
    obtain ⟨outstanding, hout, h⟩ := bind_eq_ok.mp h
    cases h
    refine ⟨hs.replaced (DecCoins.sub_isValid (hs.outstanding op) hv hout)
      (DecCoins.safeAdd_isValid hs.pool hv hpool) (fun d => ?_), (if_pos h0).symm, rfl,
      fun op' hne => getValidatorOutstandingRewards_set_ne s hne _⟩
    have hd := (DecCoins.amountOf_sub hout d).1
    change _ = s.outstandingOf op d - _ at hd
    rw [hd, DecCoins.amountOf_safeAdd hpool]
    linarith
  · rw [if_neg h0] at h
    cases h
    exact ⟨hs, (if_neg h0).symm, rfl, fun _ _ => rfl⟩

theorem decrementReferenceCount_total {q : Nat} (h : s.references op q ≠ 0) :
    ∃ t, s.decrementReferenceCount op q = .ok t := by
  unfold decrementReferenceCount
  by_cases h1 : (s.getValidatorHistoricalRewards op q).referenceCount = 1
  · exact ⟨_, (if_neg h).trans (if_pos h1)⟩
  · exact ⟨_, (if_neg h).trans (if_neg h1)⟩

theorem decrementReferenceCount_ratio {q : Nat} (h : s.decrementReferenceCount op q = .ok t)
    (op' : Addr) (k : Nat) (hk : t.references op' k ≠ 0) : t.ratio op' k = s.ratio op' k := by
  obtain ⟨_, h⟩ := guard_eq_ok.mp h
  by_cases h1 : (s.getValidatorHistoricalRewards op q).referenceCount = 1
  · rw [if_pos h1] at h
    cases h
    unfold ratio getValidatorHistoricalRewards
    unfold references getValidatorHistoricalRewards at hk
    rw [Table.lookupD_del] at hk ⊢
    split at hk
    · exact absurd rfl hk
    · rename_i hne
      rw [if_neg hne]
  · rw [if_neg h1] at h
    cases h
    unfold ratio getValidatorHistoricalRewards
    rw [Table.lookupD_put]
    split
    · rename_i he
      rw [(Prod.mk.inj he).1, (Prod.mk.inj he).2]
    · rfl

theorem incrementReferenceCount_total {q : Nat} (h : s.references op q ≤ 2) :
    ∃ t, s.incrementReferenceCount op q = .ok t := ⟨_, if_neg (not_lt.mpr h)⟩

theorem incrementReferenceCount_ratio {q : Nat} (h : s.incrementReferenceCount op q = .ok t)
    (op' : Addr) (k : Nat) : t.ratio op' k = s.ratio op' k := by
  obtain ⟨_, h⟩ := guard_eq_ok.mp h
  cases h
  unfold ratio getValidatorHistoricalRewards
  rw [Table.lookupD_put]
  split
  · rename_i he
    rw [(Prod.mk.inj he).1, (Prod.mk.inj he).2]
  · rfl

/-- **A period can be ended** when what it was worth is outstanding, the one before is referred to, and
the ratio can be computed. -/
theorem incrementValidatorPeriod_total (hs : s.Listed)
    (hle : ∀ d, DecCoins.amountOf (s.getValidatorCurrentRewards val.operatorAddress).rewards d
      ≤ s.outstandingOf val.operatorAddress d)
    (href : s.references val.operatorAddress
      (previousPeriod (s.currentPeriod val.operatorAddress)) ≠ 0)
    (hratio : ∃ ratio, s.nextRatio val = .ok ratio) : ∃ r, s.incrementValidatorPeriod val = .ok r := by
  obtain ⟨ratio, hratio⟩ := hratio
  obtain ⟨tokens, htokens, hratio⟩ := bind_eq_ok.mp hratio
  obtain ⟨y, hy⟩ := currentRatio_total tokens hs (hs.current val.operatorAddress) hle
  obtain ⟨_, hquo, hframe, _⟩ := currentRatio_records hs (hs.current val.operatorAddress) hy
  have hhist : ∀ op q, y.1.getValidatorHistoricalRewards op q = s.getValidatorHistoricalRewards op q := by
    intro op q
    rw [hframe]
    rfl
  have hkept : y.1.references val.operatorAddress
      (previousPeriod (s.currentPeriod val.operatorAddress)) ≠ 0 := by
    unfold references
    rw [hhist]
    exact href
  obtain ⟨z, hz⟩ := decrementReferenceCount_total hkept
  have hsum : DecCoins.safeAdd (y.1.getValidatorHistoricalRewards val.operatorAddress
      (previousPeriod (s.currentPeriod val.operatorAddress))).cumulativeRewardRatio y.2
        = .ok ratio := by
    rw [hhist, hquo]
    exact hratio
  exact ⟨_, bind_eq_ok.mpr ⟨tokens, htokens, bind_eq_ok.mpr ⟨y, hy, bind_eq_ok.mpr ⟨z, hz,
    bind_eq_ok.mpr ⟨ratio, hsum, rfl⟩⟩⟩⟩⟩

/-- What the end of a period changes: the ratio is on record under its number, and the other periods
keep theirs while they are referred to. -/
structure PeriodEnded (s : DistrState Addr) (val : Validator Addr) (r : DistrState Addr × Nat) :
    Prop where
  listed : r.1.Listed
  number : r.2 = s.currentPeriod val.operatorAddress
  ratio : s.nextRatio val = .ok (r.1.ratio val.operatorAddress r.2)
  current : ∀ op, r.1.getValidatorCurrentRewards op
    = if op = val.operatorAddress then ⟨[], r.2 + 1⟩ else s.getValidatorCurrentRewards op
  kept : ∀ op q, (op, q) ≠ (val.operatorAddress, r.2) → r.1.references op q ≠ 0 →
    r.1.ratio op q = s.ratio op q
  others : ∀ op, op ≠ val.operatorAddress →
    r.1.getValidatorOutstandingRewards op = s.getValidatorOutstandingRewards op
  slashEvents : r.1.slashEvents = s.slashEvents

theorem incrementValidatorPeriod_records {r : DistrState Addr × Nat} (hs : s.Listed)
    (h : s.incrementValidatorPeriod val = .ok r) : PeriodEnded s val r := by
  have htotal := (incrementValidatorPeriod_ok hs.sound h).1.total
  obtain ⟨tokens, htokens, h⟩ := bind_eq_ok.mp h
  obtain ⟨y, hy, h⟩ := bind_eq_ok.mp h
  obtain ⟨z, hz, h⟩ := bind_eq_ok.mp h
  obtain ⟨sum, hsum, h⟩ := bind_eq_ok.mp h
  cases h
  obtain ⟨hlisted, hquo, hframe, hothers⟩ :=
    currentRatio_records hs (hs.current val.operatorAddress) hy
  have hsame := (decrementReferenceCount_ok hz).1
  have hcurrent : z.currentRewards = s.currentRewards := by
    rw [hsame, hframe]
  have hout : ∀ op, z.getValidatorOutstandingRewards op = y.1.getValidatorOutstandingRewards op := by
    intro op
    rw [hsame]
    rfl
  have hratio : s.nextRatio val = .ok sum := by
    refine bind_eq_ok.mpr ⟨tokens, htokens, ?_⟩
    rw [hframe, hquo] at hsum
    exact hsum
  have hcur : ∀ op, (z.currentRewards.put (val.operatorAddress,
      (⟨[], (s.getValidatorCurrentRewards val.operatorAddress).period + 1⟩ : CurrentRewards))).lookupD
        op ⟨[], 0⟩
      = if op = val.operatorAddress then
          ⟨[], (s.getValidatorCurrentRewards val.operatorAddress).period + 1⟩
        else s.getValidatorCurrentRewards op := by
    intro op
    rw [Table.lookupD_put, hcurrent]
    rfl
  refine ⟨⟨fun op => ?_, fun op => ?_, ?_, fun d => ?_⟩, rfl, ?_, hcur, fun op q hne hq => ?_,
    fun op hop => ?_, ?_⟩
  · show DecCoins.IsValid (z.getValidatorOutstandingRewards op)
    rw [hout]
    exact hlisted.outstanding op
  · show DecCoins.IsValid ((z.currentRewards.put _).lookupD op _).rewards
    rw [hcur]
    split
    · exact ⟨by simp, List.Pairwise.nil⟩
    · exact hs.current op
  · show DecCoins.IsValid z.communityPool
    rw [hsame]
    exact hlisted.pool
  · rw [htotal]
    exact hs.fits d
  · rw [hratio]
    unfold DistrState.ratio getValidatorHistoricalRewards
    rw [Table.lookupD_put_self]
  · have hz' : ∀ k, ((z.historicalRewards.put ((val.operatorAddress,
        (s.getValidatorCurrentRewards val.operatorAddress).period), ⟨sum, 1⟩)).lookupD (op, q) k)
        = z.historicalRewards.lookupD (op, q) k := fun k => Table.lookupD_put_ne _ hne _
    unfold references getValidatorHistoricalRewards at hq
    rw [hz'] at hq
    have hkept := decrementReferenceCount_ratio hz op q hq
    unfold DistrState.ratio getValidatorHistoricalRewards at hkept ⊢
    rw [hz', hkept, hframe]
  · exact (hout op).trans (hothers op hop)
  · show z.slashEvents = s.slashEvents
    rw [hsame, hframe]

end DistrState

/-! ## payments -/

namespace App

section
variable {cfg : Config Addr} {ctx : Context} {s t : App Addr} {op : Addr}

/-- **Commission can be withdrawn** when it is outstanding: an error on the way is dropped. -/
theorem withdrawValidatorCommission_total (ctx : Context) (hs : s.Sound cfg) (hlisted : s.distr.Listed)
    (hcom : DecCoins.IsValid (s.distr.getValidatorAccumulatedCommission op))
    (hcover : ∀ d, -Dec.one < s.slack cfg d)
    (hle : ∀ d, Dec.ofInt ((s.wholeCommission op).amountOf d) ≤ s.distr.outstandingOf op d) :
    ∃ t, s.withdrawValidatorCommission cfg ctx op = .ok t := by
  have hwhole : (s.wholeCommission op).IsValid := DecCoins.truncated_isValid hcom
  obtain ⟨outstanding, hout⟩ := DecCoins.sub_total (hlisted.outstanding op)
    (DecCoins.ofCoins_isValid hwhole) (fun d => by rw [DecCoins.amountOf_ofCoins]; exact hle d)
    (fun d => hlisted.part_fits op (hs.distr.outstanding op d)
      (le_add_of_nonneg_right (hs.distr.pool d)))
  have hsent : ∃ t, dropError ((s.writeOff op outstanding).afterFailedSend cfg ctx
        (s.distr.getDelegatorWithdrawAddr op) (s.wholeCommission op))
      ((s.writeOff op outstanding).sendCoinsFromModuleToAccount cfg ctx cfg.names.distribution
        (s.distr.getDelegatorWithdrawAddr op) (s.wholeCommission op)) = .ok t := by
    by_cases hblocked : blockedAddr cfg (s.distr.getDelegatorWithdrawAddr op) = true
    · unfold sendCoinsFromModuleToAccount
      rw [getModuleAddress_distribution]
      dsimp only
      rw [if_pos hblocked]
      exact ⟨_, rfl⟩
    · have hfunds := covered_funds hs hcover hwhole hle
      have hpaid : ∃ t, (s.writeOff op outstanding).sendCoinsFromModuleToAccount cfg ctx
          cfg.names.distribution (s.distr.getDelegatorWithdrawAddr op) (s.wholeCommission op)
            = .ok t :=
        send_total (writeOff_ok hs hout).1 (by simpa using hblocked) hwhole hfunds
      obtain ⟨t, ht⟩ := hpaid
      rw [ht]
      exact ⟨t, rfl⟩
  unfold withdrawValidatorCommission
  by_cases hz : DecCoins.IsZero (s.distr.getValidatorAccumulatedCommission op)
  · exact ⟨s, if_pos hz⟩
  · rw [if_neg hz]
    by_cases hw : (s.wholeCommission op).IsZero
    · exact ⟨_, bind_eq_ok.mpr ⟨outstanding, hout, if_pos hw⟩⟩
    · obtain ⟨t, ht⟩ := hsent
      exact ⟨t, bind_eq_ok.mpr ⟨outstanding, hout, (if_neg hw).trans ht⟩⟩

theorem withdrawValidatorCommission_records (hlisted : s.distr.Listed)
    (hcom : DecCoins.IsValid (s.distr.getValidatorAccumulatedCommission op))
    (h : s.withdrawValidatorCommission cfg ctx op = .ok t) :
    t.distr.Listed ∧
    t.distr = { s.distr with
      outstandingRewards := t.distr.outstandingRewards
      accumulatedCommission := t.distr.accumulatedCommission } ∧
    (∀ op', op' ≠ op → t.distr.getValidatorOutstandingRewards op'
      = s.distr.getValidatorOutstandingRewards op') ∧
    ∀ d, t.distr.outstandingOf op d + Dec.ofInt ((s.wholeCommission op).amountOf d)
      = s.distr.outstandingOf op d := by
  rcases withdrawValidatorCommission_cases h with ⟨hz, rfl⟩ | ⟨outstanding, hsub, hcase⟩
  · refine ⟨hlisted, rfl, fun _ _ => rfl, fun d => ?_⟩
    rw [wholeCommission_zero hcom hz]
    exact add_zero _
  · have hdistr : t.distr = (s.writeOff op outstanding).distr := by
      rcases hcase with ⟨_, rfl⟩ | hsend | ⟨_, rfl⟩
      · rfl
      · exact (send_same hsend).2
      · unfold afterFailedSend
        split
        · rfl
        · rfl
    have hd := fun d => (DecCoins.amountOf_sub hsub d).1
    simp only [DecCoins.amountOf_ofCoins] at hd
    have hwhole : (s.wholeCommission op).IsValid := DecCoins.truncated_isValid hcom
    have hnew : DistrState.Listed { s.distr.setValidatorOutstandingRewards op outstanding with
        communityPool := s.distr.communityPool } := by
      refine hlisted.replaced (DecCoins.sub_isValid (hlisted.outstanding op)
        (DecCoins.ofCoins_isValid hwhole) hsub) hlisted.pool (fun d => ?_)
      have hnn : 0 ≤ Dec.ofInt ((s.wholeCommission op).amountOf d) :=
        mul_nonneg (Coins.amountOf_nonneg (fun c hc => (hwhole.1 c hc).2.le) d) Dec.one_pos.le
      have hd' := hd d
      change _ = s.distr.outstandingOf op d - _ at hd'
      linarith
    rw [hdistr]
    refine ⟨⟨hnew.outstanding, hnew.current, hnew.pool, hnew.fits⟩, rfl,
      fun op' hne => s.distr.getValidatorOutstandingRewards_set_ne hne _, fun d => ?_⟩
    have hown : (s.writeOff op outstanding).distr.outstandingOf op d
        = DecCoins.amountOf outstanding d :=
      (s.distr.outstandingOf_set op op outstanding d).trans (if_pos rfl)
    rw [hown, hd]
    exact sub_add_cancel _ _

/-- **Rewards can be paid** when they are outstanding and the payee may receive coins. -/
theorem payDelegationRewards_total {del : Addr} {rewards : DecCoins} (hs : s.Sound cfg)
    (hlisted : s.distr.Listed) (hcover : ∀ d, -Dec.one < s.slack cfg d)
    (hv : DecCoins.IsValid rewards)
    (hle : ∀ d, DecCoins.amountOf rewards d ≤ s.distr.outstandingOf op d)
    (hpayee : blockedAddr cfg (s.distr.getDelegatorWithdrawAddr del) = false) :
    ∃ t, s.payDelegationRewards cfg ctx op del rewards = .ok t := by
  have hwhole : (DecCoins.truncated rewards).IsValid := DecCoins.truncated_isValid hv
  have hsent : ∃ t, s.sendRewards cfg ctx del (DecCoins.truncated rewards) = .ok t := by
    unfold sendRewards
    by_cases hz : (DecCoins.truncated rewards).IsZero
    · exact ⟨s, if_pos hz⟩
    · have hfunds := covered_funds hs hcover hwhole
        (fun d => (DecCoins.ofInt_truncated_le hv d).trans (hle d))
      obtain ⟨t, ht⟩ : ∃ t, s.sendCoinsFromModuleToAccount cfg ctx cfg.names.distribution
          (s.distr.getDelegatorWithdrawAddr del) (DecCoins.truncated rewards) = .ok t :=
        send_total hs hpayee hwhole hfunds
      exact ⟨t, (if_neg hz).trans ht⟩
  obtain ⟨t, ht⟩ := hsent
  have hdistr : t.distr = s.distr := sendRewards_distr ht
  obtain ⟨outstanding, hout⟩ := DecCoins.sub_total (hlisted.outstanding op) hv hle (fun d =>
    hlisted.part_fits op (hs.distr.outstanding op d)
      (le_add_of_nonneg_right (hs.distr.pool d)))
  obtain ⟨pool, hpool⟩ := DecCoins.safeAdd_total hlisted.pool (DecCoins.change_isValid hv) (fun d => by
    have hchange := DecCoins.amountOf_nonneg (DecCoins.change_isValid hv).nonneg d
    have hsmall := DecCoins.amountOf_change_le hv d
    have hnn := hs.distr.pool d
    have hle' := hle d
    exact hlisted.part_fits op (d := d) (by linarith) (by linarith))
  refine ⟨_, bind_eq_ok.mpr ⟨t, ht, bind_eq_ok.mpr ⟨outstanding, hout, bind_eq_ok.mpr ⟨pool, ?_, rfl⟩⟩⟩⟩
  rw [hdistr]
  exact hpool

theorem payDelegationRewards_records {del : Addr} {rewards : DecCoins} (hlisted : s.distr.Listed)
    (hv : DecCoins.IsValid rewards) (h : s.payDelegationRewards cfg ctx op del rewards = .ok t) :
    t.distr.Listed ∧
    t.distr = { s.distr with
      outstandingRewards := t.distr.outstandingRewards
      communityPool := t.distr.communityPool } ∧
    ∀ op', op' ≠ op → t.distr.getValidatorOutstandingRewards op'
      = s.distr.getValidatorOutstandingRewards op' := by
  obtain ⟨u, hu, h⟩ := bind_eq_ok.mp h
  obtain ⟨outstanding, hout, h⟩ := bind_eq_ok.mp h
  obtain ⟨pool, hpool, h⟩ := bind_eq_ok.mp h
  cases h
  rw [sendRewards_distr hu] at hpool ⊢
  refine ⟨hlisted.replaced (DecCoins.sub_isValid (hlisted.outstanding op) hv hout)
    (DecCoins.safeAdd_isValid hlisted.pool (DecCoins.change_isValid hv) hpool) (fun d => ?_), rfl,
    fun op' hne => s.distr.getValidatorOutstandingRewards_set_ne hne _⟩
  have hd := (DecCoins.amountOf_sub hout d).1
  change _ = s.distr.outstandingOf op d - _ at hd
  have hsmall := DecCoins.amountOf_change_le hv d
  rw [hd, DecCoins.amountOf_safeAdd hpool]
  show s.distr.outstandingOf op d - _ + (_ + DecCoins.amountOf (DecCoins.change rewards) d) ≤ _
  linarith

/-- **A delegation can start anew** at a period that has room for a reference. -/
theorem initializeDelegation_total {rules : RewardRules Addr} {del : Addr} {val : Validator Addr}
    {delegation : Delegation Addr}
    (href : s.distr.references op (DistrState.previousPeriod (s.distr.currentPeriod op)) ≤ 2)
    (hval : s.staking.validators.get op = some val)
    (hdel : s.staking.delegations.get (del, op) = some delegation)
    (hstake : ∃ stake, rules.tokensFromSharesTruncated val delegation.shares = .ok stake) :
    ∃ t, s.initializeDelegation rules ctx op del = .ok t := by
  obtain ⟨distr, hdistr⟩ := DistrState.incrementReferenceCount_total href
  obtain ⟨stake, hstake⟩ := hstake
  exact ⟨_, bind_eq_ok.mpr ⟨distr, hdistr, bind_eq_ok.mpr ⟨val, deref_ok.mpr hval,
    bind_eq_ok.mpr ⟨delegation, deref_ok.mpr hdel, bind_eq_ok.mpr ⟨stake, hstake, rfl⟩⟩⟩⟩⟩

theorem initializeDelegation_ratio {rules : RewardRules Addr} {del : Addr}
    (h : s.initializeDelegation rules ctx op del = .ok t) (op' : Addr) (k : Nat) :
    t.distr.ratio op' k = s.distr.ratio op' k := by
  obtain ⟨distr, hdistr, h⟩ := bind_eq_ok.mp h
  obtain ⟨_, _, h⟩ := bind_eq_ok.mp h
  obtain ⟨_, _, h⟩ := bind_eq_ok.mp h
  obtain ⟨_, _, h⟩ := bind_eq_ok.mp h
  cases h
  exact DistrState.incrementReferenceCount_ratio hdistr op' k

/-! ## a whole withdrawal -/

/-- The current period of a validator has ended with `n` references, and a delegation to it has let go of
the period at which it started. -/
structure LetGo (s : DistrState Addr) (val : Validator Addr) (del : Addr) (info : DelegatorStartingInfo)
    (n : Nat) (t : DistrState Addr) : Prop where
  listed : t.Listed
  current : ∀ op, t.getValidatorCurrentRewards op
    = if op = val.operatorAddress then ⟨[], s.currentPeriod val.operatorAddress + 1⟩
      else s.getValidatorCurrentRewards op
  outstanding : ∀ op, op ≠ val.operatorAddress →
    t.getValidatorOutstandingRewards op = s.getValidatorOutstandingRewards op
  ratio : s.nextRatio val
    = .ok (t.ratio val.operatorAddress (s.currentPeriod val.operatorAddress))
  references : ∀ op k, t.references op k
    = if (op, k) = (val.operatorAddress, s.currentPeriod val.operatorAddress) then n
      else s.references op k
        - (if (op, k) = (val.operatorAddress, DistrState.previousPeriod
            (s.currentPeriod val.operatorAddress)) then 1 else 0)
        - if (op, k) = (val.operatorAddress, info.previousPeriod) then 1 else 0
  kept : ∀ op k, (op, k) ≠ (val.operatorAddress, s.currentPeriod val.operatorAddress) →
    t.references op k ≠ 0 → t.ratio op k = s.ratio op k
  infos : ∀ k, k ≠ (val.operatorAddress, del) →
    t.delegatorStartingInfos.get k = s.delegatorStartingInfos.get k
  slashEvents : t.slashEvents = s.slashEvents
  withdrawAddrs : t.withdrawAddrs = s.withdrawAddrs

/-- the end of a period, a payment, and a reference less -/
theorem letGo_of_steps {s t paid : DistrState Addr} {val : Validator Addr} {del : Addr}
    {info : DelegatorStartingInfo} {r : DistrState Addr × Nat} (hs : s.Listed)
    (hearlier : info.previousPeriod < s.currentPeriod val.operatorAddress)
    (hr : s.incrementValidatorPeriod val = .ok r) (hlisted : paid.Listed)
    (hpaid : paid = { r.1 with
      outstandingRewards := paid.outstandingRewards
      communityPool := paid.communityPool })
    (hothers : ∀ op, op ≠ val.operatorAddress →
      paid.getValidatorOutstandingRewards op = r.1.getValidatorOutstandingRewards op)
    (hdec : paid.decrementReferenceCount val.operatorAddress info.previousPeriod = .ok t) :
    LetGo s val del info 1 t := by
  have hended := DistrState.incrementValidatorPeriod_records hs hr
  obtain ⟨hshift, hnumber, _, hrefs⟩ := DistrState.incrementValidatorPeriod_ok hs.sound hr
  change r.2 = s.currentPeriod val.operatorAddress at hnumber
  obtain ⟨hsame, hdecrefs⟩ := DistrState.decrementReferenceCount_ok hdec
  have hrefs' : ∀ op k, paid.references op k = r.1.references op k := by
    intro op k
    rw [hpaid]
    rfl
  have hlet : ∀ op k, t.references op k = r.1.references op k
      - if (op, k) = (val.operatorAddress, info.previousPeriod) then 1 else 0 := by
    intro op k
    rw [hdecrefs, ← hrefs' op k]
    split
    · rename_i he
      rw [(Prod.mk.inj he).1, (Prod.mk.inj he).2]
    · rfl
  have hne : (val.operatorAddress, r.2) ≠ (val.operatorAddress, info.previousPeriod) := by
    intro he
    have h := (Prod.mk.inj he).2
    omega
  have hone : t.references val.operatorAddress r.2 = 1 := by
    rw [hlet, hrefs, if_pos rfl, if_neg hne]
  have hkept : ∀ op k, t.references op k ≠ 0 → t.ratio op k = r.1.ratio op k := by
    intro op k hk
    rw [DistrState.decrementReferenceCount_ratio hdec op k hk, hpaid]
    rfl
  refine ⟨?_, fun op => ?_, fun op hop => ?_, ?_, fun op k => ?_, fun op k hop hk => ?_, fun k _ => ?_,
    ?_, ?_⟩
  · rw [hsame]
    exact ⟨hlisted.outstanding, hlisted.current, hlisted.pool, hlisted.fits⟩
  · rw [← hnumber, ← hended.current op, hsame, hpaid]
    rfl
  · rw [hsame]
    exact (hothers op hop).trans (hended.others op hop)
  · rw [← hnumber, hkept _ _ (by rw [hone]; exact one_ne_zero)]
    exact hended.ratio
  · rw [← hnumber, hlet, hrefs]
    by_cases he : (op, k) = (val.operatorAddress, r.2)
    · rw [if_pos he, if_pos he, he, if_neg hne]
    · rw [if_neg he, if_neg he]
      congr 1
      split
      · rfl
      · rfl
  · rw [← hnumber] at hop
    rw [hkept op k hk]
    refine hended.kept op k hop (fun h0 => hk ?_)
    rw [hlet, h0, Nat.zero_sub]
  · rw [hsame, hpaid]
    exact congrArg (fun infos => infos.get k) hshift.startingInfos
  · rw [hsame, hpaid]
    exact hended.slashEvents
  · rw [hsame, hpaid]
    exact hshift.withdrawAddrs

theorem LetGo.started {s : DistrState Addr} {u t : App Addr} {val : Validator Addr} {del : Addr}
    {info : DelegatorStartingInfo} {rules : RewardRules Addr} (h : LetGo s val del info 1 u.distr)
    (ht : u.initializeDelegation rules ctx val.operatorAddress del = .ok t) :
    LetGo s val del info 2 t.distr := by
  have hratio := initializeDelegation_ratio ht
  obtain ⟨distr, stake, hsame, hinc, rfl⟩ := initializeDelegation_ok ht
  have hprev : DistrState.previousPeriod (u.distr.getValidatorCurrentRewards val.operatorAddress).period
      = s.currentPeriod val.operatorAddress := by
    rw [h.current, if_pos rfl]
    exact DistrState.previousPeriod_succ _
  rw [hprev] at hinc
  have hrefs : ∀ op k, distr.references op k
      = if (op, k) = (val.operatorAddress, s.currentPeriod val.operatorAddress) then 2
        else u.distr.references op k := by
    intro op k
    rw [hinc]
    by_cases he : (op, k) = (val.operatorAddress, s.currentPeriod val.operatorAddress)
    · rw [if_pos he, if_pos he, (Prod.mk.inj he).2, h.references, if_pos rfl]
    · rw [if_neg he, if_neg he]
  refine ⟨?_, fun op => ?_, fun op hop => ?_, ?_, fun op k => ?_, fun op k hop hk => ?_, fun k hk => ?_,
    ?_, ?_⟩
  · have hl := h.listed
    rw [hsame]
    exact ⟨hl.outstanding, hl.current, hl.pool, hl.fits⟩
  · rw [← h.current op, hsame]
    rfl
  · rw [← h.outstanding op hop, hsame]
    rfl
  · rw [hratio]
    exact h.ratio
  · refine (hrefs op k).trans ?_
    rw [h.references]
    by_cases he : (op, k) = (val.operatorAddress, s.currentPeriod val.operatorAddress)
    · rw [if_pos he, if_pos he]
    · rw [if_neg he, if_neg he, if_neg he]
  · rw [hratio]
    refine h.kept op k hop (fun h0 => hk ?_)
    refine (hrefs op k).trans ?_
    rw [if_neg hop, h0]
  · refine (Table.get_put_ne u.distr.delegatorStartingInfos
      ((val.operatorAddress, del), _) hk).trans ?_
    exact h.infos k hk
  · rw [← h.slashEvents, hsame]
  · rw [← h.withdrawAddrs, hsame]

theorem LetGo.dropInfo {s t : DistrState Addr} {val : Validator Addr} {del : Addr}
    {info : DelegatorStartingInfo} {n : Nat} (h : LetGo s val del info n t) :
    LetGo s val del info n { t with
      delegatorStartingInfos := t.delegatorStartingInfos.del (val.operatorAddress, del) } :=
  ⟨⟨h.listed.outstanding, h.listed.current, h.listed.pool, h.listed.fits⟩, h.current, h.outstanding,
    h.ratio, h.references, h.kept,
    fun k hk => ((Table.get_del _ _ _).trans (if_neg hk)).trans (h.infos k hk), h.slashEvents,
    h.withdrawAddrs⟩

theorem LetGo.starts {s : DistrState Addr} {u : App Addr} {val : Validator Addr}
    {del : Delegation Addr} {info : DelegatorStartingInfo} {rules : RewardRules Addr} (ctx : Context)
    (h : LetGo s val del.delegatorAddress info 1 u.distr)
    (hval : u.staking.validators.get val.operatorAddress = some val)
    (hdel : u.staking.delegations.get (del.delegatorAddress, val.operatorAddress) = some del)
    (hstake : ∃ stake, rules.tokensFromSharesTruncated val del.shares = .ok stake) :
    ∃ t, u.initializeDelegation rules ctx val.operatorAddress del.delegatorAddress = .ok t ∧
      LetGo s val del.delegatorAddress info 2 t.distr := by
  have hroom : u.distr.references val.operatorAddress
      (DistrState.previousPeriod (u.distr.currentPeriod val.operatorAddress)) ≤ 2 := by
    unfold DistrState.currentPeriod
    rw [h.current, if_pos rfl, DistrState.previousPeriod_succ, h.references, if_pos rfl]
    omega
  obtain ⟨t, ht⟩ : ∃ t, u.initializeDelegation rules ctx val.operatorAddress del.delegatorAddress
      = .ok t := initializeDelegation_total hroom hval hdel hstake
  exact ⟨t, ht, h.started ht⟩

/-- A ratio that the current period would end with stays: for the validator whose period has just ended
with it, and for one whose last period is still referred to. -/
theorem LetGo.nextRatio {s t : DistrState Addr} {val v : Validator Addr} {del : Addr}
    {info : DelegatorStartingInfo} {n : Nat} {ratio : DecCoins} (h : LetGo s val del info n t)
    (hold : s.nextRatio v = .ok ratio) (hvalid : DecCoins.IsValid ratio)
    (hsame : v.operatorAddress = val.operatorAddress → v = val)
    (hlast : t.references v.operatorAddress
      (DistrState.previousPeriod (t.currentPeriod v.operatorAddress)) ≠ 0) :
    t.nextRatio v = .ok ratio := by
  by_cases hv : v.operatorAddress = val.operatorAddress
  · obtain rfl : v = val := hsame hv
    obtain ⟨tokens, htokens, _⟩ := bind_eq_ok.mp hold
    have hended := h.ratio
    rw [hold] at hended
    refine DistrState.nextRatio_of_no_rewards (deref_ok.mp htokens) ?_ ?_ hvalid
    · rw [h.current, if_pos rfl]
    · unfold DistrState.currentPeriod
      rw [h.current, if_pos rfl, DistrState.previousPeriod_succ]
      exact (Except.ok.inj hended).symm
  · have hcurrent := h.current v.operatorAddress
    rw [if_neg hv] at hcurrent
    have hkept := h.kept v.operatorAddress _ (fun he => hv (Prod.mk.inj he).1) hlast
    rw [← hold]
    unfold DistrState.nextRatio
    rw [hkept]
    unfold DistrState.currentPeriod
    rw [hcurrent]

/-- **A withdrawal succeeds** when the rewards of the period are outstanding, the periods it lets go are
referred to, the rewards can be computed, and the payee may receive coins. -/
theorem withdrawRewards_total (ctx : Context) {rules : RewardRules Addr} {del : Delegation Addr}
    {val : Validator Addr} {info : DelegatorStartingInfo} (hgov : cfg.GovApart) (hs : s.Sound cfg)
    (hlisted : s.distr.Listed) (hcover : ∀ d, -Dec.one < s.slack cfg d)
    (hval : s.staking.validators.get del.validatorAddress = some val)
    (hdel : s.staking.delegations.get (del.delegatorAddress, del.validatorAddress) = some del)
    (hinfo : s.distr.delegatorStartingInfos.get (del.validatorAddress, del.delegatorAddress)
      = some ((del.validatorAddress, del.delegatorAddress), info))
    (hdue : ∀ d, DecCoins.amountOf (s.distr.getValidatorCurrentRewards del.validatorAddress).rewards d
      ≤ s.distr.outstandingOf del.validatorAddress d)
    (hearlier : info.previousPeriod < s.distr.currentPeriod del.validatorAddress)
    (hlast : s.distr.references del.validatorAddress
      (DistrState.previousPeriod (s.distr.currentPeriod del.validatorAddress)) ≠ 0)
    (hstart : (if info.previousPeriod = DistrState.previousPeriod
        (s.distr.currentPeriod del.validatorAddress) then 1 else 0)
      < s.distr.references del.validatorAddress info.previousPeriod)
    (hratio : ∃ ratio, s.distr.nextRatio val = .ok ratio)
    (hrewards : ∀ r, s.distr.incrementValidatorPeriod val = .ok r → ∃ cs,
      rules.calculateDelegationRewards ctx { s with distr := r.1 } val del r.2 = .ok cs ∧
        DecCoins.IsValid cs)
    (hstake : ∃ stake, rules.tokensFromSharesTruncated val del.shares = .ok stake)
    (hpayee : blockedAddr cfg (s.distr.getDelegatorWithdrawAddr del.delegatorAddress) = false) :
    ∃ t, s.withdrawRewards cfg rules ctx del.delegatorAddress del.validatorAddress = .ok t ∧
      Conserving cfg s t ∧ LetGo s.distr val del.delegatorAddress info 2 t.distr := by
  have hop : val.operatorAddress = del.validatorAddress := Table.get_key hval
  rw [← hop] at hinfo hdue hearlier hlast hstart
  -- the period ends
  obtain ⟨r, hr⟩ := DistrState.incrementValidatorPeriod_total hlisted hdue hlast hratio
  have hended := (DistrState.incrementValidatorPeriod_records hlisted hr).listed
  obtain ⟨hshift, hnumber, _, hrefs⟩ := DistrState.incrementValidatorPeriod_ok hs.distr hr
  change r.2 = s.distr.currentPeriod val.operatorAddress at hnumber
  have h1 := conserving_distr hs hshift.sound hshift.total
  -- its rewards are paid
  obtain ⟨cs, hcs, hvalid⟩ := hrewards r hr
  have hraw := hended.outstanding val.operatorAddress
  have hfinal := DecCoins.intersect_isValid hvalid hraw
  obtain ⟨u, hu⟩ : ∃ u, ({ s with distr := r.1 } : App Addr).payDelegationRewards cfg ctx
      val.operatorAddress del.delegatorAddress
      (DecCoins.intersect cs (r.1.getValidatorOutstandingRewards val.operatorAddress)) = .ok u :=
    payDelegationRewards_total h1.sound hended (fun d => by rw [h1.slack]; exact hcover d)
      hfinal (DecCoins.amountOf_intersect_le hvalid hraw)
      (by rw [DistrState.getDelegatorWithdrawAddr, hshift.withdrawAddrs]; exact hpayee)
  have h2 := payDelegationRewards_conserving hgov h1.sound hfinal.nonneg hu
  obtain ⟨hpaid, hframe, hothers⟩ := payDelegationRewards_records hended hfinal hu
  -- the period it started at is let go
  have hstays : u.distr.references val.operatorAddress info.previousPeriod ≠ 0 := by
    rw [show u.distr.references val.operatorAddress info.previousPeriod
        = r.1.references val.operatorAddress info.previousPeriod by rw [hframe]; rfl, hrefs,
      if_neg (fun he => by have h := (Prod.mk.inj he).2; omega), hnumber]
    split
    · rename_i he
      rw [if_pos (Prod.mk.inj he).2] at hstart
      omega
    · omega
  obtain ⟨distr, hdec⟩ := DistrState.decrementReferenceCount_total hstays
  have hlet : LetGo s.distr val del.delegatorAddress info 1 distr :=
    letGo_of_steps hlisted hearlier hr hpaid hframe hothers hdec
  -- and the delegation starts anew
  obtain ⟨w, hw⟩ : ∃ w : App Addr, w = { u with distr := { distr with
    delegatorStartingInfos := distr.delegatorStartingInfos.del
      (val.operatorAddress, del.delegatorAddress) } } := ⟨_, rfl⟩
  have hlet' : LetGo s.distr val del.delegatorAddress info 1 w.distr := by
    rw [hw]
    exact hlet.dropInfo
  have hstaking : w.staking = s.staking := by
    rw [hw]
    exact h2.same.staking
  obtain ⟨t, ht, hstarted⟩ := hlet'.starts ctx (by rw [hstaking, hop]; exact hval)
    (by rw [hstaking, hop]; exact hdel) hstake
  have h3 : Conserving cfg u w := by
    rw [hw, (DistrState.decrementReferenceCount_ok hdec).1]
    exact conserving_distr h2.sound ⟨h2.sound.distr.outstanding, h2.sound.distr.current,
      h2.sound.distr.pool⟩ (fun _ => rfl)
  have h4 := initializeDelegation_conserving h3.sound ht
  refine ⟨t, withdrawRewards_ok.mpr ⟨val, del, _, r, _, u, distr, hval, hdel, hinfo, hr,
    bind_eq_ok.mpr ⟨cs, hcs, rfl⟩, hu, hdec, by rw [← hop, ← hw]; exact ht⟩,
    ((h1.trans h2).trans h3).trans h4, hstarted⟩

end

end App

end MeChain
