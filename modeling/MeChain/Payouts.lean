import MeChain.BankProgress
import MeChain.Distribution

/-!
# Payments out of the distribution account

* `App.Sound`        what bank and distribution keep of themselves;
* `slack`            what the module account holds beyond what is recorded; every operation of the
                     keeper leaves it as it is;
* `send_ok`, `send_total`      a payment out of the module account, and when it succeeds;
* `withdrawValidatorCommission_ok`  the exception: commission whose payee may not receive coins;
* `withdrawRewards_conserving`      rewards, by the steps of `withdrawRewards_ok`;
* `SameStaking`                     no operation of the keeper writes staking or slashing.
-/

set_option linter.unusedSectionVars false

namespace MeChain
open Fallible

variable {Addr : Type} [SdkAddress Addr] [DecidableEq Addr]

/-- the account of the distribution module -/
def Config.distrAccount (cfg : Config Addr) : Addr := newModuleAddress cfg.names.distribution

/-- the distribution account is not the gov account, the only module account that may be paid -/
def Config.GovApart (cfg : Config Addr) : Prop :=
  cfg.distrAccount ≠ newModuleAddress cfg.names.gov

instance (cfg : Config Addr) : Decidable cfg.GovApart := inferInstanceAs (Decidable (_ ≠ _))

theorem str_injective {a b : Addr} (h : SdkAddress.str a = SdkAddress.str b) : a = b := by
  have ha := SdkAddress.fromBech32_str a
  rw [h, SdkAddress.fromBech32_str] at ha
  exact (Except.ok.inj ha).symm

theorem blockedAddr_module {cfg : Config Addr} {p : String × List String}
    (hp : p ∈ cfg.names.maccPerms)
    (h : (newModuleAddress p.1 : Addr) ≠ newModuleAddress cfg.names.gov) :
    App.blockedAddr cfg (newModuleAddress p.1) = true := by
  have hmem : SdkAddress.str (newModuleAddress p.1 : Addr) ∈ cfg.names.maccPerms.map
      fun p => SdkAddress.str (newModuleAddress p.1 : Addr) := List.mem_map_of_mem hp
  exact decide_eq_true (List.mem_filter.mpr ⟨hmem, decide_eq_true (fun he => h (str_injective he))⟩)

theorem Config.GovApart.blocked {cfg : Config Addr} (h : cfg.GovApart) :
    App.blockedAddr cfg cfg.distrAccount = true :=
  blockedAddr_module (p := (cfg.names.distribution, [])) (by simp [ModuleNames.maccPerms]) h

/-- neither token pool is the distribution account -/
def Config.PoolsApart (cfg : Config Addr) : Prop :=
  newModuleAddress cfg.names.bondedPool ≠ cfg.distrAccount ∧
    newModuleAddress cfg.names.notBondedPool ≠ cfg.distrAccount

instance (cfg : Config Addr) : Decidable cfg.PoolsApart := inferInstanceAs (Decidable (_ ∧ _))

/-- neither token pool is the gov account -/
def Config.PoolsUnpaid (cfg : Config Addr) : Prop :=
  (newModuleAddress cfg.names.bondedPool : Addr) ≠ newModuleAddress cfg.names.gov ∧
    (newModuleAddress cfg.names.notBondedPool : Addr) ≠ newModuleAddress cfg.names.gov

instance (cfg : Config Addr) : Decidable cfg.PoolsUnpaid := inferInstanceAs (Decidable (_ ∧ _))

theorem getModuleAddress_distribution (cfg : Config Addr) :
    AuthState.getModuleAddress cfg.names cfg.names.distribution = some cfg.distrAccount := by
  have hfound : AuthState.permissionsFor cfg.names cfg.names.distribution = some [] :=
    AuthState.permissionsFor_listed (p := (cfg.names.distribution, []))
      (by simp [ModuleNames.maccPerms])
  rw [AuthState.getModuleAddress, hfound]
  rfl

namespace App

def distrBalance (cfg : Config Addr) (s : App Addr) (d : String) : ℤ :=
  s.bank.balance cfg.distrAccount d

/-- what the module account holds beyond what is recorded -/
def slack (cfg : Config Addr) (s : App Addr) (d : String) : Dec :=
  Dec.ofInt (s.distrBalance cfg d) - s.distr.totalOf d

/-- What bank and distribution keep of themselves: a well-formed bank whose supply is the sum of the
balances, a module account in which nothing is locked, records that are not negative. -/
structure Sound (cfg : Config Addr) (s : App Addr) : Prop where
  bank : s.bank.WellFormed
  supply : ∀ d, s.bank.supplyOf d = s.bank.total d
  unlocked : ∀ ctx d, s.lockedCoins ctx cfg.distrAccount d = 0
  distr : s.distr.Sound

/-- an operation of the distribution keeper leaves staking and slashing alone -/
structure SameStaking (s t : App Addr) : Prop where
  staking : t.staking = s.staking
  slashing : t.slashing = s.slashing

theorem SameStaking.refl (s : App Addr) : SameStaking s s := ⟨rfl, rfl⟩

theorem SameStaking.trans {s t u : App Addr} (h : SameStaking s t) (h' : SameStaking t u) :
    SameStaking s u := ⟨h'.staking.trans h.staking, h'.slashing.trans h.slashing⟩

section
variable {cfg : Config Addr} {ctx : Context} {s s' : App Addr} {y : Addr} {amt : Coins}

/-! ## one payment -/

theorem send_same (h : s.sendCoinsFromModuleToAccount cfg ctx cfg.names.distribution y amt = .ok s') :
    SameStaking s s' ∧ s'.distr = s.distr := by
  obtain ⟨_, hsend⟩ := sendCoinsFromModuleToAccount_ok h
  obtain ⟨b, rfl, _⟩ := sendCoins_ok hsend
  exact ⟨⟨rfl, rfl⟩, rfl⟩

theorem lockedCoins_ensureAccount {x : Addr} (hx : x ≠ y) (b : BankState Addr) (ctx : Context)
    (d : String) : ({ s with bank := b, auth := s.auth.ensureAccount y } : App Addr).lockedCoins ctx x d
      = s.lockedCoins ctx x d := by
  have hget : (s.auth.ensureAccount y).getAccount x = s.auth.getAccount x := by
    unfold AuthState.ensureAccount
    split
    · rfl
    · rw [AuthState.getAccount_setAccount]
      exact if_neg hx
  unfold lockedCoins
  rw [show ({ s with bank := b, auth := s.auth.ensureAccount y } : App Addr).auth.getAccount x
    = s.auth.getAccount x from hget]

/-- **A payment** out of the module account. -/
theorem send_ok (hgov : cfg.GovApart) (hs : s.Sound cfg)
    (h : s.sendCoinsFromModuleToAccount cfg ctx cfg.names.distribution y amt = .ok s') :
    s'.Sound cfg ∧ ∀ d, s'.distrBalance cfg d = s.distrBalance cfg d - amt.amountOf d := by
  obtain ⟨hblocked, hsend⟩ := sendCoinsFromModuleToAccount_ok h
  have hbank := wellFormed_sendCoins hs.bank hsend
  obtain ⟨b, rfl, hl, ht, hsup⟩ := sendCoins_ok hsend
  have hne : cfg.distrAccount ≠ y := by
    rintro rfl
    rw [hgov.blocked] at hblocked
    cases hblocked
  refine ⟨⟨hbank, fun d => ?_, fun ctx d => ?_, hs.distr⟩, fun d => ?_⟩
  · show b.supplyOf d = b.total d
    rw [ht, ← hs.supply, BankState.supplyOf, hsup]
    rfl
  · rw [lockedCoins_ensureAccount hne]
    exact hs.unlocked ctx d
  · have hd := congrFun (congrFun hl cfg.distrAccount) d
    rw [Ledger.credit_ne _ hne] at hd
    exact hd.trans ((Ledger.credit_self _ _ _ d).trans (sub_eq_add_neg _ _).symm)

theorem send_total (hs : s.Sound cfg) (hblocked : blockedAddr cfg y = false) (hv : amt.IsValid)
    (hfunds : ∀ c ∈ amt, c.amount ≤ s.distrBalance cfg c.denom) :
    ∃ s', s.sendCoinsFromModuleToAccount cfg ctx cfg.names.distribution y amt = .ok s' := by
  have hsend : ∃ s', s.sendCoins ctx cfg.distrAccount y amt = .ok s' := sendCoins_total hs.bank
    (fun d => by rw [← hs.supply]; exact hs.bank.supply d) hv (fun c hc => by
      rw [spendableCoins_of_unlocked (hs.unlocked ctx c.denom)]
      exact hfunds c hc)
  obtain ⟨s', hs'⟩ := hsend
  refine ⟨s', ?_⟩
  unfold sendCoinsFromModuleToAccount
  rw [getModuleAddress_distribution]
  dsimp only
  rw [if_neg (by rw [hblocked]; simp)]
  exact hs'

/-- whole coins that are outstanding are in the module account, when the recorded amounts are covered to
less than a unit -/
theorem covered_funds {op : Addr} (hs : s.Sound cfg) (hcover : ∀ d, -Dec.one < s.slack cfg d)
    (hv : amt.IsValid) (hle : ∀ d, Dec.ofInt (amt.amountOf d) ≤ s.distr.outstandingOf op d) :
    ∀ c ∈ amt, c.amount ≤ s.distrBalance cfg c.denom := by
  intro c hc
  have hnodup : (amt.map Coin.denom).Nodup := List.pairwise_map.mpr (BankState.denoms_ne hv)
  have hle' := hle c.denom
  rw [Coins.amountOf_of_mem hnodup hc] at hle'
  have htotal := DistrState.outstandingOf_le_totalOf
    (fun op => hs.distr.outstanding op c.denom) (hs.distr.pool c.denom) op
  have hcov := hcover c.denom
  unfold slack Dec.ofInt at hcov
  unfold Dec.ofInt at hle'
  have hlt : c.amount * Dec.one < (s.distrBalance cfg c.denom + 1) * Dec.one := by
    linarith
  exact Int.lt_add_one_iff.mp (lt_of_mul_lt_mul_right hlt Dec.one_pos.le)

/-! ## commission -/

/-- the whole coins of a validator's commission -/
def wholeCommission (s : App Addr) (op : Addr) : Coins :=
  DecCoins.truncated (s.distr.getValidatorAccumulatedCommission op)

/-- commission that nobody receives: its payee may not be paid -/
def strandedCommission (cfg : Config Addr) (s : App Addr) (op : Addr) (d : String) : ℤ :=
  if blockedAddr cfg (s.distr.getDelegatorWithdrawAddr op) then (s.wholeCommission op).amountOf d else 0

/-- the records after the commission of `op` was written off -/
def writeOff (s : App Addr) (op : Addr) (outstanding : DecCoins) : App Addr :=
  { s with distr := { s.distr.setValidatorOutstandingRewards op outstanding with
    accumulatedCommission := s.distr.accumulatedCommission.put
      (op, DecCoins.change (s.distr.getValidatorAccumulatedCommission op)) } }

/-- a call whose error is dropped returned, or left behind what it had written -/
theorem dropError_ok {failed : App Addr} {x : Res (App Addr)} (h : dropError failed x = .ok s') :
    x = .ok s' ∨ (∃ e, x = .error e) ∧ s' = failed := by
  cases x with
  | ok t =>
    cases h
    exact Or.inl rfl
  | error e =>
    cases e with
    | panic msg => cases h
    | error e =>
      cases h
      exact Or.inr ⟨⟨_, rfl⟩, rfl⟩

theorem withdrawValidatorCommission_cases {op : Addr}
    (h : s.withdrawValidatorCommission cfg ctx op = .ok s') :
    (DecCoins.IsZero (s.distr.getValidatorAccumulatedCommission op) ∧ s' = s) ∨
    ∃ outstanding, DecCoins.sub (s.distr.getValidatorOutstandingRewards op)
        (DecCoins.ofCoins (s.wholeCommission op)) = .ok outstanding ∧
      (((s.wholeCommission op).IsZero ∧ s' = s.writeOff op outstanding) ∨
        (s.writeOff op outstanding).sendCoinsFromModuleToAccount cfg ctx cfg.names.distribution
          (s.distr.getDelegatorWithdrawAddr op) (s.wholeCommission op) = .ok s' ∨
        (∃ e, (s.writeOff op outstanding).sendCoinsFromModuleToAccount cfg ctx cfg.names.distribution
          (s.distr.getDelegatorWithdrawAddr op) (s.wholeCommission op) = .error e) ∧
        s' = (s.writeOff op outstanding).afterFailedSend cfg ctx
          (s.distr.getDelegatorWithdrawAddr op) (s.wholeCommission op)) := by
  unfold withdrawValidatorCommission at h
  by_cases hz : DecCoins.IsZero (s.distr.getValidatorAccumulatedCommission op)
  · rw [if_pos hz] at h
    cases h
    exact Or.inl ⟨hz, rfl⟩
  · rw [if_neg hz] at h
    obtain ⟨outstanding, hout, h⟩ := bind_eq_ok.mp h
    refine Or.inr ⟨outstanding, hout, ?_⟩
    change (if (s.wholeCommission op).IsZero then .ok (s.writeOff op outstanding) else
      dropError ((s.writeOff op outstanding).afterFailedSend cfg ctx
        (s.distr.getDelegatorWithdrawAddr op) (s.wholeCommission op))
      ((s.writeOff op outstanding).sendCoinsFromModuleToAccount cfg ctx cfg.names.distribution
        (s.distr.getDelegatorWithdrawAddr op) (s.wholeCommission op)) : Res (App Addr))
      = .ok s' at h
    by_cases hw : (s.wholeCommission op).IsZero
    · rw [if_pos hw] at h
      cases h
      exact Or.inl ⟨hw, rfl⟩
    · rw [if_neg hw] at h
      exact Or.inr (dropError_ok h)

theorem writeOff_ok {op : Addr} {outstanding : DecCoins} (hs : s.Sound cfg)
    (hsub : DecCoins.sub (s.distr.getValidatorOutstandingRewards op)
      (DecCoins.ofCoins (s.wholeCommission op)) = .ok outstanding) :
    (s.writeOff op outstanding).Sound cfg ∧
    (∀ d, Dec.ofInt ((s.wholeCommission op).amountOf d) ≤ s.distr.outstandingOf op d) ∧
    ∀ d, (s.writeOff op outstanding).slack cfg d
      = s.slack cfg d + Dec.ofInt ((s.wholeCommission op).amountOf d) := by
  have hd := DecCoins.amountOf_sub hsub
  simp only [DecCoins.amountOf_ofCoins] at hd
  have hof : ∀ op' d, (s.writeOff op outstanding).distr.outstandingOf op' d
      = if op' = op then DecCoins.amountOf outstanding d else s.distr.outstandingOf op' d :=
    fun op' d => DistrState.outstandingOf_set s.distr op op' outstanding d
  refine ⟨⟨hs.bank, hs.supply, hs.unlocked, ⟨fun op' d => ?_, hs.distr.current, hs.distr.pool⟩⟩,
    fun d => ?_, fun d => ?_⟩
  · rw [hof]
    split
    · exact (hd d).2
    · exact hs.distr.outstanding op' d
  · have h1 := hd d
    change _ = s.distr.outstandingOf op d - _ ∧ _ at h1
    linarith [h1.1, h1.2]
  · have h1 := (hd d).1
    have h2 := DistrState.totalOf_set s.distr op outstanding d
    change _ = s.distr.outstandingOf op d - _ at h1
    show Dec.ofInt (s.distrBalance cfg d) - (s.distr.setValidatorOutstandingRewards op
      outstanding).totalOf d = Dec.ofInt (s.distrBalance cfg d) - s.distr.totalOf d + _
    linarith

theorem strandedCommission_zero {op : Addr} {d : String}
    (h : (s.wholeCommission op).amountOf d = 0) : s.strandedCommission cfg op d = 0 := by
  unfold strandedCommission
  rw [h, ite_self]

theorem wholeCommission_zero {op : Addr}
    (hcom : DecCoins.IsValid (s.distr.getValidatorAccumulatedCommission op))
    (hz : DecCoins.IsZero (s.distr.getValidatorAccumulatedCommission op)) :
    s.wholeCommission op = [] := by
  have hnil : s.distr.getValidatorAccumulatedCommission op = [] := by
    refine List.eq_nil_iff_forall_not_mem.mpr (fun c hc => ?_)
    have hpos := (hcom.1 c hc).2
    rw [hz c hc] at hpos
    exact lt_irrefl _ hpos
  unfold wholeCommission
  rw [hnil]
  rfl

/-- **A payment of commission fails for a blocked payee only**: the module account covers it. -/
theorem blocked_of_failed {op : Addr} {outstanding : DecCoins} {e : Abort} (hs : s.Sound cfg)
    (hcom : DecCoins.IsValid (s.distr.getValidatorAccumulatedCommission op))
    (hcover : ∀ d, -Dec.one < s.slack cfg d)
    (hsub : DecCoins.sub (s.distr.getValidatorOutstandingRewards op)
      (DecCoins.ofCoins (s.wholeCommission op)) = .ok outstanding)
    (h : (s.writeOff op outstanding).sendCoinsFromModuleToAccount cfg ctx cfg.names.distribution
      (s.distr.getDelegatorWithdrawAddr op) (s.wholeCommission op) = .error e) :
    blockedAddr cfg (s.distr.getDelegatorWithdrawAddr op) = true := by
  obtain ⟨hsound, hle, _⟩ := writeOff_ok hs hsub
  by_contra hno
  have hvalid : (s.wholeCommission op).IsValid := DecCoins.truncated_isValid hcom
  have hfunds := covered_funds hs hcover hvalid hle
  have hpaid : ∃ t, (s.writeOff op outstanding).sendCoinsFromModuleToAccount cfg ctx
      cfg.names.distribution (s.distr.getDelegatorWithdrawAddr op) (s.wholeCommission op)
        = .ok t :=
    send_total hsound (by simpa using hno) hvalid hfunds
  obtain ⟨t, ht⟩ := hpaid
  rw [h] at ht
  cases ht

/-- **Commission withdrawn**, when the recorded amounts are covered to less than a unit: what the
payee may not receive is dropped from the records and stays in the module account. -/
theorem withdrawValidatorCommission_ok {op : Addr} (hgov : cfg.GovApart) (hs : s.Sound cfg)
    (hcom : DecCoins.IsValid (s.distr.getValidatorAccumulatedCommission op))
    (hcover : ∀ d, -Dec.one < s.slack cfg d)
    (h : s.withdrawValidatorCommission cfg ctx op = .ok s') :
    s'.Sound cfg ∧ SameStaking s s' ∧ s'.distr.withdrawAddrs = s.distr.withdrawAddrs ∧
    (∀ op', op' ≠ op → s'.distr.getValidatorAccumulatedCommission op'
      = s.distr.getValidatorAccumulatedCommission op') ∧
    ∀ d, s'.slack cfg d = s.slack cfg d + Dec.ofInt (s.strandedCommission cfg op d) := by
  rcases withdrawValidatorCommission_cases h with ⟨hz, rfl⟩ | ⟨outstanding, hsub, hcase⟩
  · refine ⟨hs, SameStaking.refl _, rfl, fun _ _ => rfl, fun d => ?_⟩
    have hzero : (s'.wholeCommission op).amountOf d = 0 := by
      rw [wholeCommission_zero hcom hz]
      rfl
    rw [strandedCommission_zero hzero]
    exact (add_zero _).symm
  · obtain ⟨hsound, _, hslack⟩ := writeOff_ok hs hsub
    have hother : ∀ op', op' ≠ op →
        (s.writeOff op outstanding).distr.getValidatorAccumulatedCommission op'
          = s.distr.getValidatorAccumulatedCommission op' := fun op' hne =>
      Table.lookupD_put_ne _ hne _
    rcases hcase with ⟨hz, rfl⟩ | hsend | ⟨⟨e, hfail⟩, rfl⟩
    · refine ⟨hsound, ⟨rfl, rfl⟩, rfl, hother, fun d => ?_⟩
      have hzero : (s.wholeCommission op).amountOf d = 0 := Coins.amountOf_of_isZero hz d
      rw [hslack, strandedCommission_zero hzero, hzero]
    · have hblocked := (sendCoinsFromModuleToAccount_ok hsend).1
      obtain ⟨hsame, hdistr⟩ := send_same hsend
      obtain ⟨hsound', hbal⟩ := send_ok hgov hsound hsend
      refine ⟨hsound', ⟨hsame.staking, hsame.slashing⟩, by rw [hdistr]; rfl,
        fun op' hne => by rw [hdistr]; exact hother op' hne, fun d => ?_⟩
      rw [strandedCommission, hblocked, if_neg (by simp)]
      have hw := hslack d
      unfold slack at hw ⊢
      rw [hbal, hdistr]
      unfold Dec.ofInt at *
      linarith
    · have hblocked := blocked_of_failed hs hcom hcover hsub hfail
      have hstay : (s.writeOff op outstanding).afterFailedSend cfg ctx
          (s.distr.getDelegatorWithdrawAddr op) (s.wholeCommission op) = s.writeOff op outstanding :=
        if_pos (Or.inl hblocked)
      rw [hstay]
      refine ⟨hsound, ⟨rfl, rfl⟩, rfl, hother, fun d => ?_⟩
      rw [hslack, strandedCommission, if_pos hblocked]

/-! ## delegations -/

/-- an operation after which the module account covers the records as before -/
structure Conserving (cfg : Config Addr) (s t : App Addr) : Prop where
  sound : t.Sound cfg
  same : SameStaking s t
  slack : ∀ d, t.slack cfg d = s.slack cfg d

theorem Conserving.refl (h : s.Sound cfg) : Conserving cfg s s :=
  ⟨h, SameStaking.refl _, fun _ => rfl⟩

theorem Conserving.trans {t : App Addr} (h : Conserving cfg s t) (h' : Conserving cfg t s') :
    Conserving cfg s s' :=
  ⟨h'.sound, h.same.trans h'.same, fun d => (h'.slack d).trans (h.slack d)⟩

/-- records replaced by records of the same total -/
theorem conserving_distr {distr : DistrState Addr} (hs : s.Sound cfg) (hdistr : distr.Sound)
    (htotal : ∀ d, distr.totalOf d = s.distr.totalOf d) :
    Conserving cfg s { s with distr := distr } where
  sound := ⟨hs.bank, hs.supply, hs.unlocked, hdistr⟩
  same := ⟨rfl, rfl⟩
  slack d := congrArg (fun x => Dec.ofInt (s.distrBalance cfg d) - x) (htotal d)

/-- the starting info of a delegation: it refers to the last period that ended -/
theorem initializeDelegation_ok {rules : RewardRules Addr} {op del : Addr}
    (h : s.initializeDelegation rules ctx op del = .ok s') :
    ∃ distr stake, DistrState.SameButHistory s.distr distr ∧
      (∀ op' q, distr.references op' q
        = if (op', q) = (op, DistrState.previousPeriod
            (s.distr.getValidatorCurrentRewards op).period)
          then s.distr.references op q + 1 else s.distr.references op' q) ∧
      s' = { s with distr := { distr with
        delegatorStartingInfos := s.distr.delegatorStartingInfos.put
          ((op, del), ⟨DistrState.previousPeriod (s.distr.getValidatorCurrentRewards op).period,
            stake, ctx.blockHeight⟩) } } := by
  obtain ⟨distr, hdistr, h⟩ := bind_eq_ok.mp h
  obtain ⟨_, _, h⟩ := bind_eq_ok.mp h
  obtain ⟨_, _, h⟩ := bind_eq_ok.mp h
  obtain ⟨stake, _, h⟩ := bind_eq_ok.mp h
  cases h
  obtain ⟨hsame, hrefs⟩ := DistrState.incrementReferenceCount_ok hdistr
  refine ⟨distr, stake, hsame, fun op' q => ?_, ?_⟩
  · rw [hrefs]
    by_cases he : (op', q) = (op, DistrState.previousPeriod
        (s.distr.getValidatorCurrentRewards op).period)
    · rw [if_pos he, if_pos he, (Prod.mk.inj he).2]
    · rw [if_neg he, if_neg he]
  · rw [hsame]

theorem initializeDelegation_conserving {rules : RewardRules Addr} {op del : Addr}
    (hs : s.Sound cfg) (h : s.initializeDelegation rules ctx op del = .ok s') :
    Conserving cfg s s' := by
  obtain ⟨distr, stake, hsame, _, rfl⟩ := initializeDelegation_ok h
  rw [hsame]
  exact conserving_distr hs ⟨hs.distr.outstanding, hs.distr.current, hs.distr.pool⟩ (fun _ => rfl)

theorem delegationRewards_nonneg {rules : RewardRules Addr} {val : Validator Addr}
    {del : Delegation Addr} {period : Nat} {rewards : DecCoins} (hrules : rules.NonNegative)
    (hs : s.distr.Sound) (h : s.delegationRewards rules ctx val del period = .ok rewards) :
    ∀ c ∈ rewards, 0 ≤ c.amount := by
  obtain ⟨raw, hraw, h⟩ := bind_eq_ok.mp h
  cases h
  exact DecCoins.intersect_nonneg (hrules _ _ _ _ _ _ hraw) (hs.outstanding _)

/-- the whole coins leave the records and the module account, the change goes to the pool -/
theorem payDelegationRewards_conserving {op del : Addr} {rewards : DecCoins} (hgov : cfg.GovApart)
    (hs : s.Sound cfg) (hrew : ∀ c ∈ rewards, 0 ≤ c.amount)
    (h : s.payDelegationRewards cfg ctx op del rewards = .ok s') : Conserving cfg s s' := by
  obtain ⟨t, ht, h⟩ := bind_eq_ok.mp h
  obtain ⟨outstanding, hout, h⟩ := bind_eq_ok.mp h
  obtain ⟨pool, hpool, h⟩ := bind_eq_ok.mp h
  cases h
  have hpaid : t.Sound cfg ∧ SameStaking s t ∧ t.distr = s.distr ∧
      ∀ d, t.distrBalance cfg d = s.distrBalance cfg d - (DecCoins.truncated rewards).amountOf d := by
    unfold sendRewards at ht
    by_cases hz : (DecCoins.truncated rewards).IsZero
    · rw [if_pos (show (DecCoins.truncateDecimal rewards).1.IsZero from hz)] at ht
      cases ht
      refine ⟨hs, SameStaking.refl _, rfl, fun d => ?_⟩
      rw [Coins.amountOf_of_isZero hz, sub_zero]
    · rw [if_neg (show ¬ (DecCoins.truncateDecimal rewards).1.IsZero from hz)] at ht
      obtain ⟨hsame, hdistr⟩ := send_same ht
      obtain ⟨hsound, hbal⟩ := send_ok hgov hs ht
      exact ⟨hsound, hsame, hdistr, hbal⟩
  obtain ⟨hsound, hsame, hdistr, hbal⟩ := hpaid
  have ho := DecCoins.amountOf_sub hout
  have hp := DecCoins.amountOf_safeAdd hpool
  have hchange := DecCoins.amountOf_nonneg (DecCoins.change_nonneg hrew)
  refine ⟨⟨hsound.bank, hsound.supply, hsound.unlocked, ⟨fun op' d => ?_, ?_, fun d => ?_⟩⟩,
    ⟨hsame.staking, hsame.slashing⟩, fun d => ?_⟩
  · show 0 ≤ (t.distr.setValidatorOutstandingRewards op outstanding).outstandingOf op' d
    rw [DistrState.outstandingOf_set]
    split
    · exact (ho d).2
    · exact hsound.distr.outstanding op' d
  · exact hsound.distr.current
  · show 0 ≤ DecCoins.amountOf pool d
    rw [hp]
    exact add_nonneg (hsound.distr.pool d) (hchange d)
  · have hd := (ho d).1
    have htrunc := DecCoins.amountOf_truncateDecimal rewards d
    have hpd := hp d
    change _ = s.distr.outstandingOf op d - _ at hd
    change _ = _ + DecCoins.amountOf (DecCoins.change rewards) d at hpd
    show Dec.ofInt (t.distrBalance cfg d) - DistrState.totalOf _ d = _
    rw [DistrState.totalOf_replace, hbal, hpd, hd, hdistr]
    unfold slack Dec.ofInt at *
    linarith

/-- the steps of a withdrawal: a period ends, its rewards are paid, and the delegation starts anew -/
theorem withdrawRewards_ok {rules : RewardRules Addr} {delAddr valAddr : Addr} :
    s.withdrawRewards cfg rules ctx delAddr valAddr = .ok s' ↔
    ∃ (val : Validator Addr) (del : Delegation Addr) (info : (Addr × Addr) × DelegatorStartingInfo)
      (r : DistrState Addr × Nat) (rewards : DecCoins) (u : App Addr) (distr : DistrState Addr),
      s.staking.validators.get valAddr = some val ∧
      s.staking.delegations.get (delAddr, valAddr) = some del ∧
      s.distr.delegatorStartingInfos.get (val.operatorAddress, del.delegatorAddress) = some info ∧
      s.distr.incrementValidatorPeriod val = .ok r ∧
      ({ s with distr := r.1 } : App Addr).delegationRewards rules ctx val del r.2 = .ok rewards ∧
      ({ s with distr := r.1 } : App Addr).payDelegationRewards cfg ctx val.operatorAddress
        del.delegatorAddress rewards = .ok u ∧
      u.distr.decrementReferenceCount val.operatorAddress info.2.previousPeriod = .ok distr ∧
      ({ u with distr := { distr with
        delegatorStartingInfos := distr.delegatorStartingInfos.del
          (val.operatorAddress, del.delegatorAddress) } } : App Addr).initializeDelegation
            rules ctx valAddr delAddr = .ok s' := by
  constructor
  · intro h
    unfold withdrawRewards at h
    cases hval : s.staking.validators.get valAddr with
    | none => simp [hval, goError] at h
    | some val =>
      cases hdel : s.staking.delegations.get (delAddr, valAddr) with
      | none => simp [hval, hdel, goError] at h
      | some del =>
        simp only [hval, hdel] at h
        obtain ⟨t, ht, h⟩ := bind_eq_ok.mp h
        unfold withdrawDelegationRewards at ht
        cases hinfo : s.distr.delegatorStartingInfos.get
            (val.operatorAddress, del.delegatorAddress) with
        | none => simp [hinfo, goError] at ht
        | some info =>
          simp only [hinfo] at ht
          obtain ⟨r, hr, ht⟩ := bind_eq_ok.mp ht
          obtain ⟨rewards, hrewards, ht⟩ := bind_eq_ok.mp ht
          obtain ⟨u, hu, ht⟩ := bind_eq_ok.mp ht
          obtain ⟨distr, hdec, ht⟩ := bind_eq_ok.mp ht
          cases ht
          exact ⟨val, del, info, r, rewards, u, distr, rfl, rfl, hinfo, hr, hrewards, hu, hdec, h⟩
  · rintro ⟨val, del, info, r, rewards, u, distr, hval, hdel, hinfo, hr, hrewards, hu, hdec, hinit⟩
    unfold withdrawRewards
    simp only [hval, hdel]
    refine bind_eq_ok.mpr ⟨_, ?_, hinit⟩
    unfold withdrawDelegationRewards
    simp only [hinfo]
    exact bind_eq_ok.mpr ⟨r, hr, bind_eq_ok.mpr ⟨rewards, hrewards, bind_eq_ok.mpr ⟨u, hu,
      bind_eq_ok.mpr ⟨distr, hdec, rfl⟩⟩⟩⟩

/-- **Rewards withdrawn.** -/
theorem withdrawRewards_conserving {rules : RewardRules Addr} {delAddr valAddr : Addr}
    (hgov : cfg.GovApart) (hrules : rules.NonNegative) (hs : s.Sound cfg)
    (h : s.withdrawRewards cfg rules ctx delAddr valAddr = .ok s') : Conserving cfg s s' := by
  obtain ⟨val, del, info, r, rewards, u, distr, _, _, _, hr, hrewards, hu, hdec, hinit⟩ :=
    withdrawRewards_ok.mp h
  have hshift := (DistrState.incrementValidatorPeriod_ok hs.distr hr).1
  have h1 := conserving_distr hs hshift.sound hshift.total
  have h2 := payDelegationRewards_conserving hgov h1.sound
    (delegationRewards_nonneg hrules h1.sound.distr hrewards) hu
  have hsame := (DistrState.decrementReferenceCount_ok hdec).1
  have h3 : Conserving cfg u { u with distr := { distr with
      delegatorStartingInfos := distr.delegatorStartingInfos.del
        (val.operatorAddress, del.delegatorAddress) } } := by
    rw [hsame]
    exact conserving_distr h2.sound ⟨h2.sound.distr.outstanding, h2.sound.distr.current,
      h2.sound.distr.pool⟩ (fun _ => rfl)
  exact ((h1.trans h2).trans h3).trans (initializeDelegation_conserving h3.sound hinit)

/-- the hook `BeforeDelegationCreated` -/
theorem beforeDelegationCreated_ok {valAddr : Addr} (h : s.beforeDelegationCreated valAddr = .ok s') :
    ∃ val r, s.staking.validators.get valAddr = some val ∧
      s.distr.incrementValidatorPeriod val = .ok r ∧ s' = { s with distr := r.1 } := by
  obtain ⟨val, hval, h⟩ := bind_eq_ok.mp h
  obtain ⟨r, hr, h⟩ := bind_eq_ok.mp h
  cases h
  exact ⟨val, r, deref_ok.mp hval, hr, rfl⟩

/-- a payment leaves the records -/
theorem sendRewards_distr {del : Addr} (h : s.sendRewards cfg ctx del amt = .ok s') :
    s'.distr = s.distr := by
  unfold sendRewards at h
  by_cases hz : amt.IsZero
  · rw [if_pos hz] at h
    cases h
    rfl
  · rw [if_neg hz] at h
    exact (send_same h).2

/-! ## staking and slashing

These need nothing of the state: no operation of the keeper writes the other stores. -/

theorem sendRewards_same {del : Addr} (h : s.sendRewards cfg ctx del amt = .ok s') :
    SameStaking s s' := by
  unfold sendRewards at h
  by_cases hz : amt.IsZero
  · rw [if_pos hz] at h
    cases h
    exact SameStaking.refl s
  · rw [if_neg hz] at h
    exact (send_same h).1

theorem payDelegationRewards_same {op del : Addr} {rewards : DecCoins}
    (h : s.payDelegationRewards cfg ctx op del rewards = .ok s') : SameStaking s s' := by
  obtain ⟨t, ht, h⟩ := bind_eq_ok.mp h
  obtain ⟨outstanding, _, h⟩ := bind_eq_ok.mp h
  obtain ⟨pool, _, h⟩ := bind_eq_ok.mp h
  cases h
  have hsame := sendRewards_same ht
  exact ⟨hsame.staking, hsame.slashing⟩

theorem initializeDelegation_same {rules : RewardRules Addr} {op del : Addr}
    (h : s.initializeDelegation rules ctx op del = .ok s') : SameStaking s s' := by
  obtain ⟨distr, stake, _, _, rfl⟩ := initializeDelegation_ok h
  exact ⟨rfl, rfl⟩

theorem withdrawValidatorCommission_same {op : Addr}
    (h : s.withdrawValidatorCommission cfg ctx op = .ok s') : SameStaking s s' := by
  rcases withdrawValidatorCommission_cases h with ⟨_, rfl⟩ | ⟨outstanding, _, hcase⟩
  · exact SameStaking.refl _
  · rcases hcase with ⟨_, rfl⟩ | hsend | ⟨_, rfl⟩
    · exact ⟨rfl, rfl⟩
    · have hsame := (send_same hsend).1
      exact ⟨hsame.staking, hsame.slashing⟩
    · unfold afterFailedSend
      split
      · exact ⟨rfl, rfl⟩
      · exact ⟨rfl, rfl⟩

theorem withdrawRewards_same {rules : RewardRules Addr} {delAddr valAddr : Addr}
    (h : s.withdrawRewards cfg rules ctx delAddr valAddr = .ok s') : SameStaking s s' := by
  obtain ⟨_, _, _, _, _, u, _, _, _, _, _, _, hu, _, hinit⟩ := withdrawRewards_ok.mp h
  have hpaid := payDelegationRewards_same hu
  have hnew := initializeDelegation_same hinit
  exact ⟨hnew.staking.trans hpaid.staking, hnew.slashing.trans hpaid.slashing⟩

end

end App

end MeChain
