import MeChain.Chain.Payments
import MeChain.Export.FeeDistribution
import MeChain.TokenPools

/-!
# States that the chain keeps

* `Sane`       sound bank and reward records, no coins without an account, valid commissions, and a
               distribution account that covers what is recorded to less than a unit;
* `Advances`   a sane state again, supplies multiplied for each upgrade, nothing less in the
               distribution account beyond the records;
* `Paid`       what an operation of the distribution keeper does outside the records;
* `sendCoins_advances`, `updatePools_advances`   transfers, and the payment between the token pools;
* `prepForZeroHeightGenesis_advances`   the zero-height export.
-/

set_option linter.unusedSectionVars false

namespace MeChain
open Fallible

variable {Addr : Type} [SdkAddress Addr] [DecidableEq Addr]

namespace DistrState
variable {s t : DistrState Addr}

/-- the commission of every address is a valid coin list -/
def CommissionsValid (s : DistrState Addr) : Prop :=
  ∀ op, DecCoins.IsValid (s.getValidatorAccumulatedCommission op)

theorem CommissionsValid.congr (h : s.CommissionsValid)
    (hsame : t.accumulatedCommission = s.accumulatedCommission) : t.CommissionsValid := by
  intro op
  unfold getValidatorAccumulatedCommission
  rw [hsame]
  exact h op

theorem CommissionsValid.put (h : s.CommissionsValid) {op : Addr} {cs : DecCoins}
    (hcs : DecCoins.IsValid cs)
    (hput : t.accumulatedCommission = s.accumulatedCommission.put (op, cs)) :
    t.CommissionsValid := by
  intro op'
  unfold getValidatorAccumulatedCommission
  rw [hput, Table.lookupD_put]
  split
  · exact hcs
  · exact h op'

end DistrState

namespace App

structure Sane (cfg : Config Addr) (s : App Addr) : Prop where
  sound : s.Sound cfg
  stored : ∀ a d, s.bank.balance a d ≠ 0 → s.auth.hasAccount a = true
  commission : s.distr.CommissionsValid
  covered : ∀ d, -Dec.one < s.slack cfg d

/-- from one sane state to another, through `n` upgrades -/
structure Advances (cfg : Config Addr) (n : ℕ) (s t : App Addr) : Prop where
  sane : t.Sane cfg
  supply : ∀ d, t.bank.supplyOf d = 100 ^ n * s.bank.supplyOf d
  slack : ∀ d, s.slack cfg d ≤ t.slack cfg d

section
variable {cfg : Config Addr} {ctx : Context} {s s' t u : App Addr}

theorem Sane.books (h : s.Sane cfg) : Books cfg.distrAccount s :=
  ⟨h.sound.bank, h.stored, unlocked_iff.mp h.sound.unlocked⟩

theorem Advances.refl (h : s.Sane cfg) : Advances cfg 0 s s :=
  ⟨h, fun _ => (one_mul _).symm, fun _ => le_rfl⟩

theorem Advances.trans {n m : ℕ} (h : Advances cfg n s t) (h' : Advances cfg m t u) :
    Advances cfg (n + m) s u := by
  refine ⟨h'.sane, fun d => ?_, fun d => (h.slack d).trans (h'.slack d)⟩
  rw [h'.supply, h.supply, pow_add]
  ring

theorem advances_foldlM {α : Type} {f : App Addr → α → Res (App Addr)} {l : List α}
    (hs : s.Sane cfg)
    (hf : ∀ a t t', t.Sane cfg → f t a = .ok t' → Advances cfg 0 t t')
    (h : l.foldlM f s = .ok s') : Advances cfg 0 s s' := by
  refine foldlM_ok (I := fun _ t => Advances cfg 0 s t) h (Advances.refl hs) ?_
  intro done a rest t t' _ hI hstep
  exact hI.trans (hf a t t' hI.sane hstep)

/-! ## payments -/

theorem advances_of_pays {senders : Addr → Prop} (hs : s.Sane cfg)
    (hkept : Books cfg.distrAccount t) (hpays : Pays senders s t)
    (htotal : ∀ d, t.bank.total d = s.bank.total d) (hno : ¬ senders cfg.distrAccount) :
    Advances cfg 0 s t := by
  have hsupply : ∀ d, t.bank.supplyOf d = s.bank.supplyOf d := fun d => by
    rw [BankState.supplyOf, hpays.supply]
    rfl
  have hslack : ∀ d, s.slack cfg d ≤ t.slack cfg d := by
    intro d
    have hle : s.distrBalance cfg d * Dec.one ≤ t.distrBalance cfg d * Dec.one :=
      mul_le_mul_of_nonneg_right (hpays.receives _ d hno) Dec.one_pos.le
    unfold slack Dec.ofInt
    rw [hpays.distr]
    linarith
  refine ⟨⟨⟨hkept.bank, fun d => ?_, unlocked_iff.mpr hkept.unlocked, ?_⟩, hkept.stored, ?_,
    fun d => (hs.covered d).trans_le (hslack d)⟩, fun d => ?_, hslack⟩
  · rw [hsupply, htotal, hs.sound.supply]
  · rw [hpays.distr]
    exact hs.sound.distr
  · rw [hpays.distr]
    exact hs.commission
  · rw [hsupply, pow_zero, one_mul]

theorem sendCoins_advances {y z : Addr} {amt : Coins} (hs : s.Sane cfg)
    (hy : y ≠ cfg.distrAccount) (h : s.sendCoins ctx y z amt = .ok s') : Advances cfg 0 s s' := by
  obtain ⟨hkept, hpays⟩ := sendCoins_kept hs.books h
  obtain ⟨b, rfl, _, htotal, _⟩ := sendCoins_ok h
  exact advances_of_pays hs hkept hpays htotal hy.symm

theorem sendTokens_advances {sender recipient : String} {n : ℤ} (hs : s.Sane cfg)
    (hsender : newModuleAddress sender ≠ cfg.distrAccount)
    (h : s.sendTokens cfg ctx sender recipient n = .ok s') : Advances cfg 0 s s' := by
  obtain ⟨acc, auth, hacc, hsend⟩ := sendTokens_ok h
  have hbooks := getModuleAccount_kept hs.books hacc
  have hsane : ({ s with auth := auth } : App Addr).Sane cfg :=
    ⟨⟨hs.sound.bank, hs.sound.supply, unlocked_iff.mpr hbooks.unlocked, hs.sound.distr⟩,
      hbooks.stored, hs.commission, hs.covered⟩
  obtain ⟨hsane', hsupply, hslack⟩ := sendCoins_advances hsane hsender hsend
  exact ⟨hsane', hsupply, hslack⟩

theorem updatePools_advances {into out : ℤ} (hpools : cfg.PoolsApart) (hs : s.Sane cfg)
    (h : s.updatePools cfg ctx into out = .ok s') : Advances cfg 0 s s' := by
  rcases updatePools_cases h with ⟨_, rfl⟩ | ⟨_, h⟩ | ⟨_, h⟩
  · exact Advances.refl hs
  · exact sendTokens_advances hs hpools.2 h
  · exact sendTokens_advances hs hpools.1 h

/-! ## the distribution keeper -/

/-- payments out of the distribution account, and records in which the commissions are as they were -/
structure Paid (cfg : Config Addr) (s t : App Addr) : Prop where
  kept : Books cfg.distrAccount s → Books cfg.distrAccount t
  supply : t.bank.supply = s.bank.supply
  commission : t.distr.accumulatedCommission = s.distr.accumulatedCommission

theorem Paid.trans (h : Paid cfg s t) (h' : Paid cfg t u) : Paid cfg s u :=
  ⟨fun hk => h'.kept (h.kept hk), h'.supply.trans h.supply, h'.commission.trans h.commission⟩

theorem paid_distr {distr : DistrState Addr}
    (h : distr.accumulatedCommission = s.distr.accumulatedCommission) :
    Paid cfg s { s with distr := distr } :=
  ⟨fun hk => ⟨hk.bank, hk.stored, hk.unlocked⟩, rfl, h⟩

/-- an operation that leaves the module account as far beyond the records as it was -/
theorem advances_of_conserving (hs : s.Sane cfg) (hcons : Conserving cfg s t)
    (hkept : Books cfg.distrAccount t) (hsupply : t.bank.supply = s.bank.supply)
    (hcom : t.distr.CommissionsValid) : Advances cfg 0 s t := by
  refine ⟨⟨hcons.sound, hkept.stored, hcom, fun d => ?_⟩, fun d => ?_, fun d => ?_⟩
  · rw [hcons.slack]
    exact hs.covered d
  · rw [BankState.supplyOf, hsupply, pow_zero, one_mul]
    rfl
  · exact (hcons.slack d).ge

theorem advances_of_paid (hs : s.Sane cfg) (hcons : Conserving cfg s t) (hpaid : Paid cfg s t) :
    Advances cfg 0 s t :=
  advances_of_conserving hs hcons (hpaid.kept hs.books) hpaid.supply
    (hs.commission.congr hpaid.commission)

theorem send_paid {y : Addr} {amt : Coins}
    (h : s.sendCoinsFromModuleToAccount cfg ctx cfg.names.distribution y amt = .ok s') :
    Paid cfg s s' := by
  obtain ⟨_, hsend⟩ := sendCoinsFromModuleToAccount_ok h
  have hdistr := (send_same h).2
  refine ⟨fun hk => (sendCoins_kept hk hsend).1, ?_, by rw [hdistr]⟩
  obtain ⟨b, rfl, _, _, hsupply⟩ := sendCoins_ok hsend
  exact hsupply

theorem payDelegationRewards_paid {op del : Addr} {rewards : DecCoins}
    (h : s.payDelegationRewards cfg ctx op del rewards = .ok s') : Paid cfg s s' := by
  obtain ⟨t, ht, h⟩ := bind_eq_ok.mp h
  obtain ⟨outstanding, _, h⟩ := bind_eq_ok.mp h
  obtain ⟨pool, _, h⟩ := bind_eq_ok.mp h
  cases h
  have hsent : Paid cfg s t := by
    unfold sendRewards at ht
    split at ht
    · cases ht
      exact paid_distr rfl
    · exact send_paid ht
  exact hsent.trans (paid_distr rfl)

theorem initializeDelegation_paid {rules : RewardRules Addr} {op del : Addr}
    (h : s.initializeDelegation rules ctx op del = .ok s') : Paid cfg s s' := by
  obtain ⟨distr, stake, hsame, _, rfl⟩ := initializeDelegation_ok h
  refine paid_distr ?_
  rw [hsame]

/-- **Rewards withdrawn.** -/
theorem withdrawRewards_advances {rules : RewardRules Addr} {delAddr valAddr : Addr}
    (hgov : cfg.GovApart) (hrules : rules.NonNegative) (hs : s.Sane cfg)
    (h : s.withdrawRewards cfg rules ctx delAddr valAddr = .ok s') : Advances cfg 0 s s' := by
  refine advances_of_paid hs (withdrawRewards_conserving hgov hrules hs.sound h) ?_
  obtain ⟨val, del, info, r, rewards, u, distr, _, _, _, hr, _, hu, hdec, hinit⟩ :=
    withdrawRewards_ok.mp h
  have hperiod : Paid cfg s { s with distr := r.1 } :=
    paid_distr (DistrState.incrementValidatorPeriod_ok hs.sound.distr hr).1.commission
  have hsame := (DistrState.decrementReferenceCount_ok hdec).1
  have hdropped : Paid cfg u { u with distr := { distr with
      delegatorStartingInfos := distr.delegatorStartingInfos.del
        (val.operatorAddress, del.delegatorAddress) } } := by
    refine paid_distr ?_
    rw [hsame]
  exact ((hperiod.trans (payDelegationRewards_paid hu)).trans hdropped).trans
    (initializeDelegation_paid hinit)

/-- **Commission withdrawn.** -/
theorem withdrawValidatorCommission_advances {op : Addr} (hgov : cfg.GovApart) (hs : s.Sane cfg)
    (h : s.withdrawValidatorCommission cfg ctx op = .ok s') : Advances cfg 0 s s' := by
  obtain ⟨hsound, _, _, _, hslack⟩ :=
    withdrawValidatorCommission_ok hgov hs.sound (hs.commission op) hs.covered h
  have hle : ∀ d, s.slack cfg d ≤ s'.slack cfg d := by
    intro d
    have hnonneg : 0 ≤ Dec.ofInt (s.strandedCommission cfg op d) :=
      mul_nonneg (strandedCommission_nonneg (hs.commission op) d) Dec.one_pos.le
    rw [hslack]
    linarith
  have hbooks : Books cfg.distrAccount s' ∧ s'.bank.supply = s.bank.supply ∧
      s'.distr.CommissionsValid := by
    rcases withdrawValidatorCommission_cases h with ⟨_, rfl⟩ | ⟨outstanding, hsub, hcase⟩
    · exact ⟨hs.books, rfl, hs.commission⟩
    · have hkept : Books cfg.distrAccount (s.writeOff op outstanding) :=
        ⟨hs.books.bank, hs.books.stored, hs.books.unlocked⟩
      have hcom : (s.writeOff op outstanding).distr.CommissionsValid :=
        hs.commission.put (DecCoins.change_isValid (hs.commission op)) rfl
      rcases hcase with ⟨_, rfl⟩ | hsend | ⟨⟨e, hfail⟩, rfl⟩
      · exact ⟨hkept, rfl, hcom⟩
      · have hpaid := send_paid hsend
        exact ⟨hpaid.kept hkept, hpaid.supply, hcom.congr hpaid.commission⟩
      · -- the payee is blocked, so nothing was sent
        have hblocked := blocked_of_failed hs.sound (hs.commission op) hs.covered hsub hfail
        have hstay : (s.writeOff op outstanding).afterFailedSend cfg ctx
            (s.distr.getDelegatorWithdrawAddr op) (s.wholeCommission op)
              = s.writeOff op outstanding := if_pos (Or.inl hblocked)
        rw [hstay]
        exact ⟨hkept, rfl, hcom⟩
  obtain ⟨hkept, hsupply, hcom⟩ := hbooks
  refine ⟨⟨hsound, hkept.stored, hcom, fun d => (hs.covered d).trans_le (hle d)⟩, fun d => ?_, hle⟩
  rw [BankState.supplyOf, hsupply, pow_zero, one_mul]
  rfl

/-! ## the export -/

theorem clearHistory_advances (hs : s.Sane cfg) : Advances cfg 0 s s.clearHistory :=
  advances_of_paid hs (clearHistory_conserving hs.sound) (paid_distr rfl)

theorem reinitializeValidator_advances {val : Validator Addr} (hs : s.Sane cfg)
    (h : s.reinitializeValidator val = .ok s') : Advances cfg 0 s s' := by
  have hcons := (reinitializeValidator_ok hs.sound h).1
  obtain ⟨pool, _, h⟩ := bind_eq_ok.mp h
  obtain ⟨v, _, h⟩ := bind_eq_ok.mp h
  cases h
  refine advances_of_conserving hs hcons ⟨hs.books.bank, hs.books.stored, hs.books.unlocked⟩ rfl ?_
  exact hs.commission.put ⟨by simp, List.Pairwise.nil⟩ rfl

theorem reinitializeDelegation_paid {rules : RewardRules Addr} {del : Delegation Addr}
    (hs : s.distr.Sound) (h : s.reinitializeDelegation rules ctx del = .ok s') : Paid cfg s s' := by
  obtain ⟨t, ht, h⟩ := bind_eq_ok.mp h
  obtain ⟨val, r, _, hr, rfl⟩ := beforeDelegationCreated_ok (panicOnError_ok.mp ht)
  have hperiod : Paid cfg s { s with distr := r.1 } :=
    paid_distr (DistrState.incrementValidatorPeriod_ok hs hr).1.commission
  exact hperiod.trans (initializeDelegation_paid (panicOnError_ok.mp h))

theorem reinitializeDelegation_advances {rules : RewardRules Addr} {del : Delegation Addr}
    (hctx : ctx.blockHeight = 0) (hs : s.Sane cfg)
    (h : s.reinitializeDelegation rules ctx del = .ok s') : Advances cfg 0 s s' :=
  advances_of_paid hs (reinitializeDelegation_ok hs.sound hctx h).1
    (reinitializeDelegation_paid hs.sound.distr h)

variable {x : ExportConfig Addr}

theorem handleFeeDistribution_advances (hgov : x.cfg.GovApart) (hrules : x.rules.NonNegative)
    (hs : s.Sane x.cfg) (h : s.handleFeeDistribution x ctx = .ok s') :
    Advances x.cfg 0 s s' := by
  obtain ⟨t, ht, h⟩ := bind_eq_ok.mp h
  obtain ⟨u, hu, h⟩ := bind_eq_ok.mp h
  obtain ⟨w, hw, h⟩ := bind_eq_ok.mp h
  have hcommission : Advances x.cfg 0 s t := advances_foldlM hs
    (fun _ _ _ hs hstep => withdrawValidatorCommission_advances hgov hs hstep) ht
  have hrewards : Advances x.cfg 0 t u := advances_foldlM hcommission.sane
    (fun _ _ _ hs hstep => withdrawRewards_advances hgov hrules hs (panicOnError_ok.mp hstep)) hu
  have hcleared := clearHistory_advances hrewards.sane
  have hvalidators : Advances x.cfg 0 u.clearHistory w := advances_foldlM hcleared.sane
    (fun _ _ _ hs hstep => reinitializeValidator_advances hs hstep) hw
  have hdelegations : Advances x.cfg 0 w s' := advances_foldlM hvalidators.sane
    (fun _ _ _ hs hstep => reinitializeDelegation_advances rfl hs hstep) h
  exact (((hcommission.trans hrewards).trans hcleared).trans hvalidators).trans hdelegations

end

end App

/-- the staking and slashing stores are not read -/
theorem App.Sane.records {cfg : Config Addr} {s : App Addr} (h : s.Sane cfg)
    (staking : StakingState Addr) (slashing : SlashingState Addr) :
    ({ s with staking := staking, slashing := slashing } : App Addr).Sane cfg :=
  ⟨⟨h.sound.bank, h.sound.supply, h.sound.unlocked, h.sound.distr⟩, h.stored, h.commission, h.covered⟩

/-- **The zero-height export.** -/
theorem prepForZeroHeightGenesis_advances [ValAddress Addr] [LE Addr] [DecidableLE Addr]
    {x : ExportConfig Addr} {ctx : Context} {l : List String} {s s' : App Addr}
    (hgov : x.cfg.GovApart) (hpools : x.cfg.PoolsApart) (hrules : x.rules.NonNegative)
    (hs : s.Sane x.cfg) (h : prepForZeroHeightGenesis x ctx l s = .ok s') :
    App.Advances x.cfg 0 s s' := by
  obtain ⟨_, _, h⟩ := bind_eq_ok.mp h
  obtain ⟨_, _, h⟩ := bind_eq_ok.mp h
  obtain ⟨t, ht, h⟩ := bind_eq_ok.mp h
  obtain ⟨⟨u, updates⟩, hu, h⟩ := bind_eq_ok.mp h
  cases h
  obtain ⟨y, _, hpaid, _⟩ := App.applyAndReturn_ok.mp hu
  have hfees := App.handleFeeDistribution_advances hgov hrules hs ht
  have hpayment := App.updatePools_advances hpools (hfees.sane.records y.staking t.slashing) hpaid
  refine ⟨hpayment.sane.records u.staking _, fun d => ?_, fun d => ?_⟩
  · have hsupply := hpayment.supply d
    rw [pow_zero, one_mul] at hsupply
    exact hsupply.trans (hfees.supply d)
  · exact (hfees.slack d).trans (hpayment.slack d)

end MeChain
