import MeChain.Export.FeeDistribution
import MeChain.PayoutsProgress

/-!
# When the fee distribution completes

* `Referenced`            every period has the references of those who refer to it;
* `RewardRules.Local`     what `CalculateDelegationRewards` reads;
* `FeesPayable`           what the fee distribution needs of the state it starts from;
* `CommissionPaid`, `Pending`   between two withdrawals of commission, and of rewards;
* `withdrawAllCommission_total`, `withdrawAllRewards_total`   all of them;
* `handleFeeDistribution_total`   all phases;
* `handleFeeDistribution_untouched`   accounts that may not be paid keep what they have.
-/

set_option linter.unusedSectionVars false

namespace MeChain
open Fallible

variable {Addr : Type} [SdkAddress Addr] [DecidableEq Addr]

/-! ## who refers to a period -/

namespace DistrState

/-- the periods that the slash events of a validator ended -/
def slashPeriods (s : DistrState Addr) (op : Addr) : List Nat :=
  (s.slashEvents.rows.filter fun e => e.1.1 = op).map fun e => e.2.validatorPeriod

/-- the period at which a delegation started -/
def startingPeriod (s : DistrState Addr) (del : Delegation Addr) : Option Nat :=
  (s.delegatorStartingInfos.get (del.validatorAddress, del.delegatorAddress)).map
    fun e => e.2.previousPeriod

/-- how many of the delegations started at a period, how many slash events ended it, and whether it is
the last one that ended -/
def claims (s : DistrState Addr) (dels : List (Delegation Addr)) (op : Addr) (k : Nat) : Nat :=
  dels.countP (fun del => del.validatorAddress = op ∧ s.startingPeriod del = some k)
    + (s.slashPeriods op).count k + if k = previousPeriod (s.currentPeriod op) then 1 else 0

/-- the periods of the validators with delegations have the references that are laid on them -/
def Referenced (s : DistrState Addr) (dels : List (Delegation Addr)) : Prop :=
  ∀ del ∈ dels, ∀ k, s.claims dels del.validatorAddress k ≤ s.references del.validatorAddress k

/-- the records with the current period of a validator ended at a ratio -/
def ended (s : DistrState Addr) (op : Addr) (ratio : DecCoins) : DistrState Addr :=
  { s with historicalRewards := s.historicalRewards.put ((op, s.currentPeriod op), ⟨ratio, 1⟩) }

end DistrState

/-- `CalculateDelegationRewards` reads the starting info of the delegation, the slash events of the
validator, and the ratios of the periods that these name and of the one that ends. -/
def RewardRules.Local (rules : RewardRules Addr) : Prop :=
  ∀ (ctx : Context) (s t : App Addr) (val : Validator Addr) (del : Delegation Addr)
    (info : (Addr × Addr) × DelegatorStartingInfo) (p q : Nat),
    del.validatorAddress = val.operatorAddress →
    s.distr.delegatorStartingInfos.get (val.operatorAddress, del.delegatorAddress) = some info →
    t.distr.delegatorStartingInfos.get (val.operatorAddress, del.delegatorAddress) = some info →
    t.distr.slashEvents = s.distr.slashEvents →
    (∀ k, k = info.2.previousPeriod ∨ k ∈ s.distr.slashPeriods val.operatorAddress →
      k ≤ p ∧ k ≤ q ∧ t.distr.ratio val.operatorAddress k = s.distr.ratio val.operatorAddress k) →
    t.distr.ratio val.operatorAddress q = s.distr.ratio val.operatorAddress p →
    rules.calculateDelegationRewards ctx t val del q
      = rules.calculateDelegationRewards ctx s val del p

theorem RewardRules.unslashed_local : (unslashed : RewardRules Addr).Local := by
  intro ctx s t val del info p q hop hs ht _ hratio hend
  obtain ⟨hp, hq, hstart⟩ := hratio _ (Or.inl rfl)
  have hs' : s.distr.delegatorStartingInfos.lookupD (val.operatorAddress, del.delegatorAddress)
      ⟨0, 0, 0⟩ = info.2 := Table.lookupD_of_get hs _
  have ht' : t.distr.delegatorStartingInfos.lookupD (val.operatorAddress, del.delegatorAddress)
      ⟨0, 0, 0⟩ = info.2 := Table.lookupD_of_get ht _
  unfold DistrState.ratio at hstart hend
  unfold unslashed
  dsimp only
  rw [hs', ht', if_neg (not_lt.mpr hp), if_neg (not_lt.mpr hq), hstart, hend]

namespace App

/-! ## what it needs -/

/-- the rewards of a delegation up to now can be computed, and its payee may receive coins -/
def Withdrawable (x : ExportConfig Addr) (ctx : Context) (s : App Addr) (del : Delegation Addr) :
    Prop :=
  ∃ val info ratio rewards,
    s.staking.validators.get del.validatorAddress = some val ∧
    s.distr.delegatorStartingInfos.get (del.validatorAddress, del.delegatorAddress)
      = some ((del.validatorAddress, del.delegatorAddress), info) ∧
    info.previousPeriod < s.distr.currentPeriod del.validatorAddress ∧
    s.distr.nextRatio val = .ok ratio ∧ DecCoins.IsValid ratio ∧
    x.rules.calculateDelegationRewards ctx
        { s with distr := s.distr.ended del.validatorAddress ratio } val del
        (s.distr.currentPeriod del.validatorAddress) = .ok rewards ∧
    DecCoins.IsValid rewards ∧
    (∃ stake, x.rules.tokensFromSharesTruncated val del.shares = .ok stake) ∧
    blockedAddr x.cfg (s.distr.getDelegatorWithdrawAddr del.delegatorAddress) = false

/-- What the fee distribution needs: sound stores, a module account that covers the records to less than
a unit, commission and current rewards that are outstanding, periods that are referred to as often as
the delegations need them, and delegations whose rewards can be computed and paid. -/
structure FeesPayable (x : ExportConfig Addr) (ctx : Context) (s : App Addr) : Prop where
  sound : s.Sound x.cfg
  covered : ∀ d, -Dec.one < s.slack x.cfg d
  commission : s.ValidCommission
  listed : s.distr.Listed
  due : ∀ v ∈ s.staking.validators.rows, ∀ d,
    Dec.ofInt ((s.wholeCommission v.operatorAddress).amountOf d)
      + DecCoins.amountOf (s.distr.getValidatorCurrentRewards v.operatorAddress).rewards d
      ≤ s.distr.outstandingOf v.operatorAddress d
  slashed : ∀ op, ∀ k ∈ s.distr.slashPeriods op, k < s.distr.currentPeriod op
  referenced : s.distr.Referenced s.staking.delegations.rows
  delegations : ∀ del ∈ s.staking.delegations.rows, Withdrawable x ctx s del

section
variable {x : ExportConfig Addr} {ctx : Context} {s t t' : App Addr}

/-! ## commission -/

/-- Between two withdrawals of commission: those done were paid out of what is outstanding, and the
records of the others are as they were. -/
structure CommissionPaid (x : ExportConfig Addr) (s : App Addr) (done : List (Validator Addr))
    (t : App Addr) : Prop where
  sound : t.Sound x.cfg
  covered : ∀ d, -Dec.one < t.slack x.cfg d
  listed : t.distr.Listed
  staking : t.staking = s.staking
  frame : t.distr = { s.distr with
    outstandingRewards := t.distr.outstandingRewards
    accumulatedCommission := t.distr.accumulatedCommission }
  others : ∀ op ∉ done.map Validator.operatorAddress,
    t.distr.getValidatorOutstandingRewards op = s.distr.getValidatorOutstandingRewards op ∧
    t.distr.getValidatorAccumulatedCommission op = s.distr.getValidatorAccumulatedCommission op
  paid : ∀ v ∈ done, ∀ d, t.distr.outstandingOf v.operatorAddress d
    + Dec.ofInt ((s.wholeCommission v.operatorAddress).amountOf d)
      = s.distr.outstandingOf v.operatorAddress d

theorem CommissionPaid.step {done : List (Validator Addr)} {v : Validator Addr}
    (hgov : x.cfg.GovApart) (h : FeesPayable x ctx s) (hv : v ∈ s.staking.validators.rows)
    (hnew : v.operatorAddress ∉ done.map Validator.operatorAddress) (hI : CommissionPaid x s done t) :
    ∃ t', t.withdrawValidatorCommission x.cfg ctx v.operatorAddress = .ok t' ∧
      CommissionPaid x s (done ++ [v]) t' := by
  obtain ⟨hout, hcom⟩ := hI.others _ hnew
  have hvalid : DecCoins.IsValid (t.distr.getValidatorAccumulatedCommission v.operatorAddress) := by
    rw [hcom]
    exact h.commission v hv
  have hwhole : t.wholeCommission v.operatorAddress = s.wholeCommission v.operatorAddress :=
    congrArg DecCoins.truncated hcom
  have houtOf : ∀ d, t.distr.outstandingOf v.operatorAddress d
      = s.distr.outstandingOf v.operatorAddress d := fun d =>
    congrArg (fun cs => DecCoins.amountOf cs d) hout
  have hdue : ∀ d, Dec.ofInt ((t.wholeCommission v.operatorAddress).amountOf d)
      ≤ t.distr.outstandingOf v.operatorAddress d := by
    intro d
    have hd := h.due v hv d
    have hcur := h.sound.distr.current v.operatorAddress d
    rw [hwhole, houtOf]
    linarith
  obtain ⟨t', ht'⟩ := withdrawValidatorCommission_total ctx hI.sound hI.listed hvalid hI.covered hdue
  obtain ⟨hsound, hsame, _, hcom', hslack⟩ :=
    withdrawValidatorCommission_ok hgov hI.sound hvalid hI.covered ht'
  obtain ⟨hlisted, hframe, hout', hown⟩ := withdrawValidatorCommission_records hI.listed hvalid ht'
  refine ⟨t', ht', hsound, fun d => ?_, hlisted, hsame.staking.trans hI.staking, ?_,
    fun op hop => ?_, fun w hw d => ?_⟩
  · have hnn : 0 ≤ Dec.ofInt (t.strandedCommission x.cfg v.operatorAddress d) :=
      mul_nonneg (strandedCommission_nonneg hvalid d) Dec.one_pos.le
    rw [hslack]
    linarith [hI.covered d]
  · rw [hframe, hI.frame]
  · rw [List.map_append, List.mem_append, not_or, List.map_singleton, List.mem_singleton] at hop
    obtain ⟨h1, h2⟩ := hI.others op hop.1
    exact ⟨(hout' op hop.2).trans h1, (hcom' op hop.2).trans h2⟩
  · rcases List.mem_append.mp hw with hw | hw
    · have hne : w.operatorAddress ≠ v.operatorAddress := fun he =>
        hnew (he ▸ List.mem_map_of_mem hw)
      rw [← hI.paid w hw d]
      exact congrArg (fun cs => DecCoins.amountOf cs d + _) (hout' _ hne)
    · rw [List.mem_singleton.mp hw, ← houtOf, ← hwhole]
      exact hown d

theorem withdrawAllCommission_total (hgov : x.cfg.GovApart) (h : FeesPayable x ctx s) :
    ∃ t, s.withdrawAllCommission x.cfg ctx = .ok t ∧
      CommissionPaid x s s.staking.validators.rows t := by
  refine foldlM_total (I := fun done t => CommissionPaid x s done t)
    ⟨h.sound, h.covered, h.listed, rfl, rfl, fun _ _ => ⟨rfl, rfl⟩, by simp⟩ ?_
  intro done v rest t hl hI
  have hv : v ∈ s.staking.validators.rows := by
    rw [hl]
    simp
  have hnew : v.operatorAddress ∉ done.map Validator.operatorAddress := by
    intro hd
    obtain ⟨w, hw, he⟩ := List.mem_map.mp hd
    exact (split_of_pairwise (List.pairwise_map.mp s.staking.validators.nodup) hl).1 w hw he
  exact hI.step hgov h hv hnew

/-! ## rewards -/

/-- Between two withdrawals: what `s` recorded of the delegations still to come is as it was. -/
structure Pending (x : ExportConfig Addr) (s : App Addr) (rest : List (Delegation Addr)) (t : App Addr) :
    Prop where
  sound : t.Sound x.cfg
  covered : ∀ d, -Dec.one < t.slack x.cfg d
  staking : t.staking = s.staking
  listed : t.distr.Listed
  due : ∀ v ∈ s.staking.validators.rows, ∀ d,
    DecCoins.amountOf (t.distr.getValidatorCurrentRewards v.operatorAddress).rewards d
      ≤ t.distr.outstandingOf v.operatorAddress d
  withdrawAddrs : t.distr.withdrawAddrs = s.distr.withdrawAddrs
  slashEvents : t.distr.slashEvents = s.distr.slashEvents
  infos : ∀ del ∈ rest,
    t.distr.delegatorStartingInfos.get (del.validatorAddress, del.delegatorAddress)
      = s.distr.delegatorStartingInfos.get (del.validatorAddress, del.delegatorAddress)
  later : ∀ op, s.distr.currentPeriod op ≤ t.distr.currentPeriod op
  ratio : ∀ del ∈ rest, ∀ val ratio, s.staking.validators.get del.validatorAddress = some val →
    s.distr.nextRatio val = .ok ratio → DecCoins.IsValid ratio → t.distr.nextRatio val = .ok ratio
  kept : ∀ op k, k < s.distr.currentPeriod op → t.distr.references op k ≠ 0 →
    t.distr.ratio op k = s.distr.ratio op k
  referenced : t.distr.Referenced rest

theorem CommissionPaid.pending (h : FeesPayable x ctx s)
    (hpaid : CommissionPaid x s s.staking.validators.rows t) :
    Pending x s s.staking.delegations.rows t := by
  have hframe := hpaid.frame
  have hcurrent : ∀ op,
      t.distr.getValidatorCurrentRewards op = s.distr.getValidatorCurrentRewards op := by
    intro op
    rw [hframe]
    rfl
  refine ⟨hpaid.sound, hpaid.covered, hpaid.staking, hpaid.listed, fun v hv d => ?_, by rw [hframe],
    by rw [hframe], fun _ _ => by rw [hframe], fun op => ?_, fun _ _ val ratio _ hnext _ => ?_,
    fun op k _ _ => ?_, fun del hdel k => ?_⟩
  · have hd := h.due v hv d
    rw [← hpaid.paid v hv d] at hd
    rw [hcurrent]
    linarith
  · unfold DistrState.currentPeriod
    rw [hcurrent]
  · rw [← hnext, hframe]
    rfl
  · rw [hframe]
    rfl
  · refine le_trans (le_of_eq ?_) ((h.referenced del hdel k).trans (le_of_eq ?_))
    · rw [hframe]
      rfl
    · rw [hframe]
      rfl

theorem slashPeriods_congr {s t : DistrState Addr} (h : t.slashEvents = s.slashEvents) (op : Addr) :
    t.slashPeriods op = s.slashPeriods op := by
  unfold DistrState.slashPeriods
  rw [h]

theorem referenced_last {s : DistrState Addr} {dels : List (Delegation Addr)}
    {del : Delegation Addr} (h : s.Referenced dels) (hdel : del ∈ dels) :
    s.references del.validatorAddress
      (DistrState.previousPeriod (s.currentPeriod del.validatorAddress)) ≠ 0 := by
  have hle := h del hdel (DistrState.previousPeriod (s.currentPeriod del.validatorAddress))
  unfold DistrState.claims at hle
  rw [if_pos rfl] at hle
  omega

theorem claims_start_pos {s : DistrState Addr} {dels : List (Delegation Addr)} {del : Delegation Addr}
    {k : Nat} (hdel : del ∈ dels) (hk : s.startingPeriod del = some k) :
    (if k = DistrState.previousPeriod (s.currentPeriod del.validatorAddress) then 1 else 0)
      < s.claims dels del.validatorAddress k := by
  have hpos : 0 < dels.countP
      (fun e => e.validatorAddress = del.validatorAddress ∧ s.startingPeriod e = some k) :=
    List.countP_pos_iff.mpr ⟨del, hdel, by simp [hk]⟩
  unfold DistrState.claims
  omega

theorem claims_slash_pos {s : DistrState Addr} {op : Addr} {k : Nat} (dels : List (Delegation Addr))
    (hk : k ∈ s.slashPeriods op) :
    (if k = DistrState.previousPeriod (s.currentPeriod op) then 1 else 0) < s.claims dels op k := by
  have hpos : 0 < (s.slashPeriods op).count k := List.count_pos_iff.mpr hk
  unfold DistrState.claims
  omega

theorem startingPeriod_of_get {s : DistrState Addr} {del : Delegation Addr} {k : Addr × Addr}
    {info : DelegatorStartingInfo}
    (h : s.delegatorStartingInfos.get (del.validatorAddress, del.delegatorAddress) = some (k, info)) :
    s.startingPeriod del = some info.previousPeriod := by
  unfold DistrState.startingPeriod
  rw [h]
  rfl

/-- the rewards of a delegation still to come can be computed as at the start -/
theorem Pending.rewards {rest : List (Delegation Addr)} {del : Delegation Addr} {val : Validator Addr}
    {info : DelegatorStartingInfo} {ratio : DecCoins} (hlocal : x.rules.Local) (h : Pending x s rest t)
    (hslashed : ∀ op, ∀ k ∈ s.distr.slashPeriods op, k < s.distr.currentPeriod op)
    (hdel : del ∈ rest) (hval : s.staking.validators.get del.validatorAddress = some val)
    (hinfo : s.distr.delegatorStartingInfos.get (del.validatorAddress, del.delegatorAddress)
      = some ((del.validatorAddress, del.delegatorAddress), info))
    (hearlier : info.previousPeriod < s.distr.currentPeriod del.validatorAddress)
    (hratio : t.distr.nextRatio val = .ok ratio) {r : DistrState Addr × Nat}
    (hr : t.distr.incrementValidatorPeriod val = .ok r) :
    x.rules.calculateDelegationRewards ctx { t with distr := r.1 } val del r.2
      = x.rules.calculateDelegationRewards ctx
        { s with distr := s.distr.ended del.validatorAddress ratio } val del
        (s.distr.currentPeriod del.validatorAddress) := by
  have hop : val.operatorAddress = del.validatorAddress := Table.get_key hval
  have hended := DistrState.incrementValidatorPeriod_records h.listed hr
  obtain ⟨hshift, hnumber, _, hrefs⟩ := DistrState.incrementValidatorPeriod_ok h.listed.sound hr
  have hlater := h.later del.validatorAddress
  have hnumber' : r.2 = t.distr.currentPeriod del.validatorAddress := by
    rw [← hop]
    exact hnumber
  have hstart := startingPeriod_of_get ((h.infos del hdel).trans hinfo)
  refine hlocal ctx _ _ val del ((del.validatorAddress, del.delegatorAddress), info) _ _ hop.symm ?_ ?_
    ?_ (fun k hk => ?_) ?_
  · rw [hop]
    exact hinfo
  · rw [hop]
    show r.1.delegatorStartingInfos.get (del.validatorAddress, del.delegatorAddress) = _
    rw [hshift.startingInfos, h.infos del hdel]
    exact hinfo
  · exact hended.slashEvents.trans h.slashEvents
  · rw [hop] at hk ⊢
    change k = info.previousPeriod ∨ k ∈ s.distr.slashPeriods del.validatorAddress at hk
    have hlt : k < s.distr.currentPeriod del.validatorAddress := by
      rcases hk with rfl | hk
      · exact hearlier
      · exact hslashed _ k hk
    have hclaims : (if k = DistrState.previousPeriod (t.distr.currentPeriod del.validatorAddress)
        then 1 else 0) < t.distr.references del.validatorAddress k := by
      refine lt_of_lt_of_le ?_ (h.referenced del hdel k)
      rcases hk with rfl | hk
      · exact claims_start_pos hdel hstart
      · rw [← slashPeriods_congr h.slashEvents] at hk
        exact claims_slash_pos rest hk
    have hne : (del.validatorAddress, k) ≠ (val.operatorAddress, r.2) := fun he => by
      have hkr := (Prod.mk.inj he).2
      omega
    have hstays : r.1.references del.validatorAddress k ≠ 0 := by
      rw [hrefs, if_neg hne]
      split
      · rename_i he
        rw [← hnumber', ← (Prod.mk.inj he).2, if_pos rfl] at hclaims
        omega
      · omega
    have hkept : r.1.ratio del.validatorAddress k = t.distr.ratio del.validatorAddress k :=
      hended.kept _ k hne hstays
    have hold : (s.distr.ended del.validatorAddress ratio).ratio del.validatorAddress k
        = s.distr.ratio del.validatorAddress k := by
      unfold DistrState.ratio DistrState.getValidatorHistoricalRewards DistrState.ended
      rw [Table.lookupD_put_ne _ (fun he => hlt.ne (Prod.mk.inj he).2)]
    refine ⟨hlt.le, by omega, ?_⟩
    show r.1.ratio _ k = (s.distr.ended _ ratio).ratio _ k
    rw [hkept, hold]
    exact h.kept _ k hlt (by omega)
  · have hnew := hended.ratio
    rw [hratio] at hnew
    rw [hop] at hnew ⊢
    show r.1.ratio _ r.2 = (s.distr.ended _ ratio).ratio _ _
    rw [← Except.ok.inj hnew]
    unfold DistrState.ratio DistrState.getValidatorHistoricalRewards DistrState.ended
    rw [Table.lookupD_put_self]

theorem LetGo.referenced {s t : DistrState Addr} {val : Validator Addr} {del : Delegation Addr}
    {rest : List (Delegation Addr)} {info : DelegatorStartingInfo}
    (hop : val.operatorAddress = del.validatorAddress)
    (h : LetGo s val del.delegatorAddress info 2 t) (hrefs : s.Referenced (del :: rest))
    (hstart : s.startingPeriod del = some info.previousPeriod)
    (hsame : ∀ e ∈ rest, t.startingPeriod e = s.startingPeriod e)
    (hearlier : ∀ e ∈ rest, ∀ k, s.startingPeriod e = some k → k < s.currentPeriod e.validatorAddress)
    (hslashed : ∀ k ∈ s.slashPeriods val.operatorAddress, k < s.currentPeriod val.operatorAddress) :
    t.Referenced rest := by
  intro e he k
  have hbase := hrefs e (List.mem_cons_of_mem _ he) k
  have hcount : rest.countP
        (fun d => d.validatorAddress = e.validatorAddress ∧ t.startingPeriod d = some k)
      = rest.countP
        (fun d => d.validatorAddress = e.validatorAddress ∧ s.startingPeriod d = some k) :=
    List.countP_congr (fun d hd => by rw [hsame d hd])
  unfold DistrState.claims at hbase ⊢
  rw [List.countP_cons] at hbase
  rw [hcount, slashPeriods_congr h.slashEvents, h.references]
  by_cases hv : e.validatorAddress = val.operatorAddress
  · have hcurrent : t.currentPeriod e.validatorAddress = s.currentPeriod val.operatorAddress + 1 := by
      unfold DistrState.currentPeriod
      rw [h.current, if_pos hv]
      rfl
    rw [hcurrent, DistrState.previousPeriod_succ]
    by_cases hk : k = s.currentPeriod val.operatorAddress
    · -- nobody started at the period that ended, and no slash event ended it
      have hnone : rest.countP (fun d => d.validatorAddress = e.validatorAddress ∧
          s.startingPeriod d = some k) = 0 := by
        refine List.countP_eq_zero.mpr (fun d hd => ?_)
        rw [decide_eq_true_eq]
        rintro ⟨hd', hdk⟩
        have hlt := hearlier d hd k hdk
        rw [hd', hv] at hlt
        omega
      have hunslashed : (s.slashPeriods e.validatorAddress).count k = 0 := by
        refine List.count_eq_zero.mpr (fun hmem => ?_)
        rw [hv] at hmem
        have hlt := hslashed k hmem
        omega
      rw [hnone, hunslashed, if_pos hk, if_pos (by rw [hv, hk])]
      omega
    · have hdel : decide (del.validatorAddress = val.operatorAddress ∧ s.startingPeriod del = some k)
          = true ↔ k = info.previousPeriod := by
        rw [decide_eq_true_eq, hstart, Option.some.injEq]
        exact ⟨fun h => h.2.symm, fun h => ⟨hop.symm, h.symm⟩⟩
      rw [hv] at hbase ⊢
      simp only [hdel, Prod.mk.injEq, true_and, if_neg hk] at hbase ⊢
      split at hbase
      · rename_i hp
        simp only [if_pos hp]
        omega
      · rename_i hp
        simp only [if_neg hp]
        omega
  · have hcurrent : t.currentPeriod e.validatorAddress = s.currentPeriod e.validatorAddress := by
      unfold DistrState.currentPeriod
      rw [h.current, if_neg hv]
    rw [hcurrent, if_neg (fun he' => hv (Prod.mk.inj he').1),
      if_neg (fun he' => hv (Prod.mk.inj he').1), if_neg (fun he' => hv (Prod.mk.inj he').1)]
    omega

/-- the next withdrawal succeeds -/
theorem Pending.pays {rest : List (Delegation Addr)} {del : Delegation Addr}
    (hgov : x.cfg.GovApart) (hlocal : x.rules.Local)
    (hslashed : ∀ op, ∀ k ∈ s.distr.slashPeriods op, k < s.distr.currentPeriod op)
    (hdel : Withdrawable x ctx s del) (hrow : del ∈ s.staking.delegations.rows)
    (h : Pending x s (del :: rest) t) : ∃ t' val info,
      t.withdrawRewards x.cfg x.rules ctx del.delegatorAddress del.validatorAddress = .ok t' ∧
      s.staking.validators.get del.validatorAddress = some val ∧
      t.distr.startingPeriod del = some info.previousPeriod ∧ Conserving x.cfg t t' ∧
      LetGo t.distr val del.delegatorAddress info 2 t'.distr := by
  obtain ⟨val, info, ratio, cs, hval, hinfo, hearlier, hratio, hvalid, hcs, hcsValid, hstake,
    hpayee⟩ := hdel
  have hfirst := List.mem_cons_self (a := del) (l := rest)
  have hratio' := h.ratio del hfirst val ratio hval hratio hvalid
  have hinfo' := (h.infos del hfirst).trans hinfo
  have hstart := startingPeriod_of_get hinfo'
  have hdue := h.due val (Table.mem_of_get hval)
  rw [Table.get_key hval] at hdue
  obtain ⟨t', ht', hcons, hlet⟩ := withdrawRewards_total ctx hgov h.sound h.listed h.covered
    (by rw [h.staking]; exact hval) (by rw [h.staking]; exact Table.mem_rows_iff.mp hrow) hinfo' hdue
    (lt_of_lt_of_le hearlier (h.later del.validatorAddress)) (referenced_last h.referenced hfirst)
    (lt_of_lt_of_le (claims_start_pos hfirst hstart) (h.referenced del hfirst _)) ⟨ratio, hratio'⟩
    (fun r hr => ⟨cs, (h.rewards hlocal hslashed hfirst hval hinfo hearlier hratio' hr).trans hcs,
      hcsValid⟩) hstake
    (by rw [DistrState.getDelegatorWithdrawAddr, h.withdrawAddrs]; exact hpayee)
  exact ⟨t', val, info, ht', hval, hstart, hcons, hlet⟩

theorem Pending.next {rest : List (Delegation Addr)} {del : Delegation Addr} {val : Validator Addr}
    {info : DelegatorStartingInfo}
    (hslashed : ∀ op, ∀ k ∈ s.distr.slashPeriods op, k < s.distr.currentPeriod op)
    (hall : ∀ e ∈ rest, Withdrawable x ctx s e) (hnew : ∀ e ∈ rest, del.key ≠ e.key)
    (hval : s.staking.validators.get del.validatorAddress = some val)
    (hstart : t.distr.startingPeriod del = some info.previousPeriod) (hcons : Conserving x.cfg t t')
    (hlet : LetGo t.distr val del.delegatorAddress info 2 t'.distr)
    (h : Pending x s (del :: rest) t) : Pending x s rest t' := by
  have hop : val.operatorAddress = del.validatorAddress := Table.get_key hval
  have hmem : val ∈ s.staking.validators.rows := Table.mem_of_get hval
  have hlt : ∀ e ∈ rest, ∀ k, t.distr.startingPeriod e = some k →
      k < t.distr.currentPeriod e.validatorAddress := by
    intro e he k hk
    obtain ⟨_, info', _, _, _, hinfo', hlt, _⟩ := hall e he
    rw [startingPeriod_of_get ((h.infos e (List.mem_cons_of_mem _ he)).trans hinfo')] at hk
    cases hk
    exact lt_of_lt_of_le hlt (h.later e.validatorAddress)
  have hinfos : ∀ e ∈ rest,
      t'.distr.delegatorStartingInfos.get (e.validatorAddress, e.delegatorAddress)
        = t.distr.delegatorStartingInfos.get (e.validatorAddress, e.delegatorAddress) := by
    intro e he
    refine hlet.infos _ (fun hk => hnew e he ?_)
    rw [hop] at hk
    exact Prod.ext (Prod.mk.inj hk).2.symm (Prod.mk.inj hk).1.symm
  have hrefs : t'.distr.Referenced rest := LetGo.referenced hop hlet h.referenced hstart
    (fun e he => by unfold DistrState.startingPeriod; rw [hinfos e he]) hlt (fun k hk => by
      rw [slashPeriods_congr h.slashEvents] at hk
      exact lt_of_lt_of_le (hslashed _ k hk) (h.later _))
  refine ⟨hcons.sound, fun d => by rw [hcons.slack]; exact h.covered d,
    hcons.same.staking.trans h.staking, hlet.listed, fun v hv d => ?_,
    hlet.withdrawAddrs.trans h.withdrawAddrs, hlet.slashEvents.trans h.slashEvents,
    fun e he => (hinfos e he).trans (h.infos e (List.mem_cons_of_mem _ he)), fun op => ?_,
    fun e he v ratio hv hnext hvalid => ?_, fun op k hk hk' => ?_, hrefs⟩
  · rw [hlet.current]
    by_cases hv' : v.operatorAddress = val.operatorAddress
    · rw [if_pos hv']
      exact hcons.sound.distr.outstanding v.operatorAddress d
    · rw [if_neg hv', DistrState.outstandingOf, hlet.outstanding _ hv']
      exact h.due v hv d
  · refine (h.later op).trans ?_
    unfold DistrState.currentPeriod
    rw [hlet.current]
    split
    · rename_i he
      rw [he]
      exact Nat.le_succ _
    · exact le_refl _
  · have hold := h.ratio e (List.mem_cons_of_mem _ he) v ratio hv hnext hvalid
    have hlast := referenced_last hrefs he
    rw [← Table.get_key hv] at hlast
    exact hlet.nextRatio hold hvalid (Table.eq_of_key (Table.mem_of_get hv) hmem) hlast
  · have hne : (op, k) ≠ (val.operatorAddress, t.distr.currentPeriod val.operatorAddress) := by
      intro he
      have hle := h.later op
      rw [(Prod.mk.inj he).2, ← (Prod.mk.inj he).1] at hk
      omega
    rw [hlet.kept op k hne hk']
    rw [hlet.references, if_neg hne] at hk'
    exact h.kept op k hk (fun h0 => hk' (by rw [h0, Nat.zero_sub, Nat.zero_sub]))

theorem withdrawAllRewards_total (hgov : x.cfg.GovApart) (hlocal : x.rules.Local)
    (hslashed : ∀ op, ∀ k ∈ s.distr.slashPeriods op, k < s.distr.currentPeriod op)
    (hall : ∀ del ∈ s.staking.delegations.rows, Withdrawable x ctx s del)
    (h : Pending x s s.staking.delegations.rows t) :
    ∃ t', t.withdrawAllRewards x ctx s.staking.delegations.rows = .ok t' ∧ Pending x s [] t' := by
  refine foldlM_total_rest (I := fun _ rest u => Pending x s rest u) h (fun done del rest u hl hI => ?_)
  have hrows : ∀ e ∈ del :: rest, e ∈ s.staking.delegations.rows := by
    intro e he
    rw [hl]
    exact List.mem_append_right _ he
  have hnew := (split_of_pairwise (List.pairwise_map.mp s.staking.delegations.nodup) hl).2
  have hrow := hrows del (List.mem_cons_self ..)
  obtain ⟨u', val, info, hu', hval, hstart, hcons, hlet⟩ :=
    hI.pays hgov hlocal hslashed (hall del hrow) hrow
  exact ⟨u', panicOnError_ok.mpr hu', hI.next hslashed
    (fun e he => hall e (hrows e (List.mem_cons_of_mem _ he))) hnew hval hstart hcons hlet⟩

/-! ## validators and delegations started anew -/

/-- a validator whose periods start afresh: no rewards, and a last period that is referred to -/
structure Renewed (s : DistrState Addr) (op : Addr) : Prop where
  rewards : (s.getValidatorCurrentRewards op).rewards = []
  last : s.references op (DistrState.previousPeriod (s.currentPeriod op)) ≠ 0
  ratio : s.ratio op (DistrState.previousPeriod (s.currentPeriod op)) = []

theorem Renewed.mono {s t : DistrState Addr} {op : Addr} (h : Renewed s op)
    (hcurrent : t.getValidatorCurrentRewards op = s.getValidatorCurrentRewards op)
    (hrefs : ∀ k, s.references op k ≤ t.references op k)
    (hratio : ∀ k, t.references op k ≠ 0 → t.ratio op k = s.ratio op k) : Renewed t op := by
  have hperiod : t.currentPeriod op = s.currentPeriod op := congrArg CurrentRewards.period hcurrent
  have hlast : t.references op (DistrState.previousPeriod (t.currentPeriod op)) ≠ 0 := by
    have hle := hrefs (DistrState.previousPeriod (t.currentPeriod op))
    have hold := h.last
    rw [← hperiod] at hold
    omega
  refine ⟨by rw [hcurrent]; exact h.rewards, hlast, ?_⟩
  rw [hratio _ hlast, hperiod]
  exact h.ratio

theorem reinitializeValidator_total {val : Validator Addr} (hlisted : s.distr.Listed)
    (hval : s.staking.validators.get val.operatorAddress = some val) :
    ∃ t, s.reinitializeValidator val = .ok t ∧ t.staking = s.staking ∧ t.distr.Listed ∧
      Renewed t.distr val.operatorAddress ∧
      ∀ op, Renewed s.distr op → Renewed t.distr op := by
  obtain ⟨pool, hpool⟩ := DecCoins.safeAdd_total hlisted.pool
    (hlisted.outstanding val.operatorAddress) (fun d => by
      have hout := hlisted.sound.outstanding val.operatorAddress d
      have hnn := hlisted.sound.pool d
      exact hlisted.part_fits val.operatorAddress (d := d) (add_nonneg hnn hout) (add_comm _ _).le)
  have hnil : DecCoins.IsValid [] := ⟨by simp, List.Pairwise.nil⟩
  have hreplaced : DistrState.Listed
      { s.distr.setValidatorOutstandingRewards val.operatorAddress [] with communityPool := pool } :=
    hlisted.replaced hnil (DecCoins.safeAdd_isValid hlisted.pool (hlisted.outstanding _) hpool)
      (fun d => by
        rw [DecCoins.amountOf_safeAdd hpool, DecCoins.amountOf_nil, zero_add]
        exact (add_comm _ _).le)
  have hcurrent : ∀ op, (DistrState.initializeValidator { s.distr with communityPool := pool }
      val.operatorAddress).getValidatorCurrentRewards op
      = if op = val.operatorAddress then ⟨[], 1⟩ else s.distr.getValidatorCurrentRewards op :=
    fun op => Table.lookupD_put _ _ _ _
  have hhist : ∀ op k, (DistrState.initializeValidator { s.distr with communityPool := pool }
      val.operatorAddress).getValidatorHistoricalRewards op k
      = if (op, k) = (val.operatorAddress, 0) then ⟨[], 1⟩
        else s.distr.getValidatorHistoricalRewards op k :=
    fun op k => Table.lookupD_put _ _ _ _
  have hnew : Renewed (DistrState.initializeValidator { s.distr with communityPool := pool }
      val.operatorAddress) val.operatorAddress := by
    have hprev : DistrState.previousPeriod ((DistrState.initializeValidator
        { s.distr with communityPool := pool } val.operatorAddress).currentPeriod
          val.operatorAddress) = 0 := by
      unfold DistrState.currentPeriod
      rw [hcurrent, if_pos rfl]
      rfl
    refine ⟨by rw [hcurrent, if_pos rfl], ?_, ?_⟩
    · unfold DistrState.references
      rw [hprev, hhist, if_pos rfl]
      exact one_ne_zero
    · unfold DistrState.ratio
      rw [hprev, hhist, if_pos rfl]
  refine ⟨_, bind_eq_ok.mpr ⟨pool, hpool, bind_eq_ok.mpr ⟨val, deref_ok.mpr hval, rfl⟩⟩, rfl,
    ⟨hreplaced.outstanding, fun op => ?_, hreplaced.pool, hreplaced.fits⟩, hnew, fun op h => ?_⟩
  · rw [hcurrent]
    split
    · exact hnil
    · exact hlisted.current op
  · by_cases hop : op = val.operatorAddress
    · rw [hop]
      exact hnew
    · have hhist' : ∀ k, (DistrState.initializeValidator { s.distr with communityPool := pool }
          val.operatorAddress).getValidatorHistoricalRewards op k
          = s.distr.getValidatorHistoricalRewards op k := fun k =>
        (hhist op k).trans (if_neg (fun he => hop (Prod.mk.inj he).1))
      exact h.mono ((hcurrent op).trans (if_neg hop))
        (fun k => (congrArg HistoricalRewards.referenceCount (hhist' k)).ge)
        (fun k _ => congrArg HistoricalRewards.cumulativeRewardRatio (hhist' k))

theorem reinitializeValidators_total (hlisted : s.distr.Listed) :
    ∃ t, s.staking.validators.rows.foldlM reinitializeValidator s = .ok t ∧
      t.staking = s.staking ∧ t.distr.Listed ∧
      ∀ v ∈ s.staking.validators.rows, Renewed t.distr v.operatorAddress := by
  refine foldlM_total (I := fun (done : List (Validator Addr)) (t : App Addr) =>
    t.staking = s.staking ∧ t.distr.Listed ∧ ∀ v ∈ done, Renewed t.distr v.operatorAddress)
    ⟨rfl, hlisted, by simp⟩ ?_
  intro done v rest t hl hI
  obtain ⟨hstaking, hlisted', hdone⟩ := hI
  have hv : s.staking.validators.get v.operatorAddress = some v :=
    Table.mem_rows_iff.mp (by rw [hl]; simp)
  obtain ⟨t', ht', hsame, hlisted'', hnew, hold⟩ :=
    reinitializeValidator_total hlisted' (by rw [hstaking]; exact hv)
  refine ⟨t', ht', hsame.trans hstaking, hlisted'', fun w hw => ?_⟩
  rcases List.mem_append.mp hw with hw | hw
  · exact hold _ (hdone w hw)
  · rw [List.mem_singleton.mp hw]
    exact hnew

theorem Renewed.increment {s : DistrState Addr} {op : Addr} {val : Validator Addr}
    {r : DistrState Addr × Nat} (hlisted : s.Listed) (hratio : s.nextRatio val = .ok [])
    (hr : s.incrementValidatorPeriod val = .ok r) (h : Renewed s op) : Renewed r.1 op := by
  have hended := DistrState.incrementValidatorPeriod_records hlisted hr
  obtain ⟨_, hnumber, _, hrefs⟩ := DistrState.incrementValidatorPeriod_ok hlisted.sound hr
  have hcurrent := hended.current op
  by_cases hop : op = val.operatorAddress
  · rw [if_pos hop] at hcurrent
    have hlast : DistrState.previousPeriod (r.1.currentPeriod op) = r.2 := by
      unfold DistrState.currentPeriod
      rw [hcurrent]
      exact DistrState.previousPeriod_succ r.2
    have hnew := hended.ratio
    rw [hratio] at hnew
    refine ⟨by rw [hcurrent], ?_, ?_⟩
    · rw [hlast, hrefs, if_pos (by rw [hop])]
      exact one_ne_zero
    · rw [hlast, hop]
      exact (Except.ok.inj hnew).symm
  · rw [if_neg hop] at hcurrent
    have hne : ∀ k q : Nat, (op, k) ≠ (val.operatorAddress, q) := fun k q he => hop (Prod.mk.inj he).1
    refine h.mono hcurrent (fun k => ?_) (fun k hk => hended.kept op k (hne k _) hk)
    rw [hrefs, if_neg (hne k _), if_neg (hne k _)]

theorem reinitializeDelegation_total {rules : RewardRules Addr} {del : Delegation Addr}
    {val : Validator Addr} {tokens : ℤ} (ctx : Context) (hlisted : s.distr.Listed)
    (hval : s.staking.validators.get del.validatorAddress = some val)
    (htokens : val.tokens = some tokens)
    (hdel : s.staking.delegations.get (del.delegatorAddress, del.validatorAddress) = some del)
    (hstake : ∃ stake, rules.tokensFromSharesTruncated val del.shares = .ok stake)
    (hnew : Renewed s.distr del.validatorAddress) :
    ∃ t, s.reinitializeDelegation rules ctx del = .ok t ∧ t.staking = s.staking ∧ t.distr.Listed ∧
      ∀ op, Renewed s.distr op → Renewed t.distr op := by
  have hop : val.operatorAddress = del.validatorAddress := Table.get_key hval
  have hnew' := hnew
  rw [← hop] at hnew'
  have hnil : DecCoins.IsValid [] := ⟨by simp, List.Pairwise.nil⟩
  have hratio : s.distr.nextRatio val = .ok [] :=
    DistrState.nextRatio_of_no_rewards htokens hnew'.rewards hnew'.ratio hnil
  obtain ⟨r, hr⟩ := DistrState.incrementValidatorPeriod_total hlisted (fun d => by
    rw [hnew'.rewards]
    exact hlisted.sound.outstanding val.operatorAddress d) hnew'.last ⟨_, hratio⟩
  have hended := DistrState.incrementValidatorPeriod_records hlisted hr
  obtain ⟨_, _, _, hrefs⟩ := DistrState.incrementValidatorPeriod_ok hlisted.sound hr
  have hprev : DistrState.previousPeriod (r.1.currentPeriod del.validatorAddress) = r.2 := by
    unfold DistrState.currentPeriod
    rw [hended.current, if_pos hop.symm]
    exact DistrState.previousPeriod_succ r.2
  have hroom : r.1.references del.validatorAddress
      (DistrState.previousPeriod (r.1.currentPeriod del.validatorAddress)) ≤ 2 := by
    rw [hprev, hrefs, if_pos (by rw [hop])]
    omega
  obtain ⟨t, ht⟩ : ∃ t, ({ s with distr := r.1 } : App Addr).initializeDelegation rules ctx
      del.validatorAddress del.delegatorAddress = .ok t :=
    initializeDelegation_total hroom hval hdel hstake
  have hkept := initializeDelegation_ratio ht
  obtain ⟨distr, stake, hsame, hinc, rfl⟩ := initializeDelegation_ok ht
  have hbefore : s.beforeDelegationCreated del.validatorAddress = .ok { s with distr := r.1 } :=
    bind_eq_ok.mpr ⟨val, deref_ok.mpr hval, bind_eq_ok.mpr ⟨r, hr, rfl⟩⟩
  refine ⟨_, bind_eq_ok.mpr ⟨_, panicOnError_ok.mpr hbefore, panicOnError_ok.mpr ht⟩, rfl, ?_,
    fun op h => (h.increment hlisted hratio hr).mono ?_ (fun k => ?_) (fun k _ => hkept op k)⟩
  · have hl := hended.listed
    rw [hsame]
    exact ⟨hl.outstanding, hl.current, hl.pool, hl.fits⟩
  · rw [hsame]
    rfl
  · refine le_of_le_of_eq ?_ (hinc op k).symm
    split
    · rename_i he
      rw [(Prod.mk.inj he).1, (Prod.mk.inj he).2]
      exact Nat.le_succ _
    · exact le_refl _

theorem reinitializeDelegations_total (h : FeesPayable x ctx s) (hstaking : t.staking = s.staking)
    (hlisted : t.distr.Listed)
    (hnew : ∀ v ∈ s.staking.validators.rows, Renewed t.distr v.operatorAddress) :
    ∃ y, s.staking.delegations.rows.foldlM
      (reinitializeDelegation x.rules { ctx with blockHeight := 0 }) t = .ok y := by
  obtain ⟨y, hy, _⟩ := foldlM_total (f := reinitializeDelegation x.rules { ctx with blockHeight := 0 })
    (l := s.staking.delegations.rows) (s := t)
    (I := fun _ y => y.staking = s.staking ∧ y.distr.Listed ∧
      ∀ v ∈ s.staking.validators.rows, Renewed y.distr v.operatorAddress)
    ⟨hstaking, hlisted, hnew⟩ (by
      intro done del rest y hl hI
      obtain ⟨hystaking, hylisted, hynew⟩ := hI
      have hrow : del ∈ s.staking.delegations.rows := by
        rw [hl]
        simp
      obtain ⟨val, _, ratio, _, hval, _, _, hnext, _, _, _, hstake, _⟩ := h.delegations del hrow
      obtain ⟨tokens, htokens, _⟩ := bind_eq_ok.mp hnext
      have hrenewed := hynew val (Table.mem_of_get hval)
      rw [Table.get_key hval] at hrenewed
      obtain ⟨y', hy', hsame, hlisted', hkept⟩ := reinitializeDelegation_total
        { ctx with blockHeight := 0 } hylisted (by rw [hystaking]; exact hval) (deref_ok.mp htokens)
        (by rw [hystaking]; exact Table.mem_rows_iff.mp hrow) hstake hrenewed
      exact ⟨y', hy', hsame.trans hystaking, hlisted', fun v hv => hkept _ (hynew v hv)⟩)
  exact ⟨y, hy⟩

/-! ## all phases -/

/-- **The fee distribution completes**, and keeps the bank sound. -/
theorem handleFeeDistribution_total (hgov : x.cfg.GovApart) (hlocal : x.rules.Local)
    (h : FeesPayable x ctx s) : ∃ t, s.handleFeeDistribution x ctx = .ok t ∧ t.Sound x.cfg := by
  obtain ⟨t, ht, hpaid⟩ := withdrawAllCommission_total hgov h
  obtain ⟨u, hu, hlast⟩ :=
    withdrawAllRewards_total hgov hlocal h.slashed h.delegations (hpaid.pending h)
  have hcleared : u.clearHistory.distr.Listed :=
    ⟨hlast.listed.outstanding, hlast.listed.current, hlast.listed.pool, hlast.listed.fits⟩
  obtain ⟨w, hw, hwstaking, hwlisted, hwnew⟩ := reinitializeValidators_total hcleared
  have hwsound := (reinitializeValidators_run (clearHistory_conserving hlast.sound).sound hw).1.sound
  have hrenewed : ∀ v ∈ s.staking.validators.rows, Renewed w.distr v.operatorAddress := by
    intro v hv
    refine hwnew v ?_
    show v ∈ u.staking.validators.rows
    rw [hlast.staking]
    exact hv
  obtain ⟨y, hy⟩ :=
    reinitializeDelegations_total h (hwstaking.trans hlast.staking) hwlisted hrenewed
  refine ⟨y, bind_eq_ok.mpr ⟨t, ht, bind_eq_ok.mpr ⟨u, ?_, bind_eq_ok.mpr ⟨w, hw, ?_⟩⟩⟩,
    (reinitializeDelegations_run hwsound rfl hy).1.sound⟩
  · rw [hpaid.staking]
    exact hu
  · rw [hpaid.staking]
    exact hy

/-! ## accounts that are not paid -/

/-- an account with the money and the record that it had -/
structure Untouched (a : Addr) (s t : App Addr) : Prop where
  balance : ∀ d, t.bank.balance a d = s.bank.balance a d
  account : t.auth.getAccount a = s.auth.getAccount a

theorem Untouched.refl (a : Addr) (s : App Addr) : Untouched a s s := ⟨fun _ => rfl, rfl⟩

theorem Untouched.trans {a : Addr} {u : App Addr} (h : Untouched a s t) (h' : Untouched a t u) :
    Untouched a s u := ⟨fun d => (h'.balance d).trans (h.balance d), h'.account.trans h.account⟩

variable {a : Addr} {cfg : Config Addr}

/-- nothing is paid out of an account but the module account, and nothing to one that is blocked -/
theorem send_untouched {y : Addr} {amt : Coins} (ha : a ≠ cfg.distrAccount)
    (hblocked : blockedAddr cfg a = true)
    (h : s.sendCoinsFromModuleToAccount cfg ctx cfg.names.distribution y amt = .ok t) :
    Untouched a s t := by
  obtain ⟨hpayee, hsend⟩ := sendCoinsFromModuleToAccount_ok h
  obtain ⟨b, rfl, hledger, _⟩ := sendCoins_ok hsend
  have hne : a ≠ y := by
    rintro rfl
    rw [hblocked] at hpayee
    cases hpayee
  refine ⟨fun d => ?_, ?_⟩
  · have hd := congrFun (congrFun hledger a) d
    rw [Ledger.credit_ne _ hne] at hd
    exact hd.trans (Ledger.credit_ne _ ha _ _)
  · show (s.auth.ensureAccount y).getAccount a = _
    unfold AuthState.ensureAccount
    split
    · rfl
    · rw [AuthState.getAccount_setAccount]
      exact if_neg hne

theorem debitUntilError_balance {locked : String → ℤ} {x : Addr} (ha : a ≠ x) (amt : Coins)
    (b : BankState Addr) (d : String) :
    (debitUntilError locked x amt b).balance a d = b.balance a d := by
  induction amt generalizing b with
  | nil => rfl
  | cons c amt ih =>
    unfold debitUntilError
    cases hc : BankState.subUnlockedCoin locked x b c with
    | error e => rfl
    | ok b' =>
      obtain ⟨_, hc⟩ := guard_eq_ok.mp hc
      obtain ⟨_, hc⟩ := guard_eq_ok.mp hc
      obtain ⟨_, _, hset⟩ := bind_eq_ok.mp hc
      refine (ih b').trans ?_
      rw [(BankState.setBalance_write hset).2.2.1, if_neg (fun he => ha he.1)]

theorem withdrawValidatorCommission_untouched {op : Addr} (ha : a ≠ cfg.distrAccount)
    (hblocked : blockedAddr cfg a = true) (h : s.withdrawValidatorCommission cfg ctx op = .ok t) :
    Untouched a s t := by
  rcases withdrawValidatorCommission_cases h with ⟨_, rfl⟩ | ⟨outstanding, _, hcase⟩
  · exact Untouched.refl a _
  · rcases hcase with ⟨_, rfl⟩ | hsend | ⟨_, rfl⟩
    · exact ⟨fun _ => rfl, rfl⟩
    · have hsent := send_untouched ha hblocked hsend
      exact ⟨hsent.balance, hsent.account⟩
    · unfold afterFailedSend
      split
      · exact ⟨fun _ => rfl, rfl⟩
      · exact ⟨debitUntilError_balance ha _ _, rfl⟩

theorem initializeDelegation_untouched {rules : RewardRules Addr} {op del : Addr}
    (h : s.initializeDelegation rules ctx op del = .ok t) : Untouched a s t := by
  obtain ⟨distr, stake, _, _, rfl⟩ := initializeDelegation_ok h
  exact ⟨fun _ => rfl, rfl⟩

theorem withdrawRewards_untouched {rules : RewardRules Addr} {delAddr valAddr : Addr}
    (ha : a ≠ cfg.distrAccount) (hblocked : blockedAddr cfg a = true)
    (h : s.withdrawRewards cfg rules ctx delAddr valAddr = .ok t) : Untouched a s t := by
  obtain ⟨_, _, _, _, _, u, _, _, _, _, _, _, hu, _, hinit⟩ := withdrawRewards_ok.mp h
  obtain ⟨w, hw, hu⟩ := bind_eq_ok.mp hu
  obtain ⟨outstanding, _, hu⟩ := bind_eq_ok.mp hu
  obtain ⟨pool, _, hu⟩ := bind_eq_ok.mp hu
  cases hu
  have hpaid : Untouched a s w := by
    unfold sendRewards at hw
    split at hw
    · cases hw
      exact ⟨fun _ => rfl, rfl⟩
    · have hsent := send_untouched ha hblocked hw
      exact ⟨hsent.balance, hsent.account⟩
  have hnew := initializeDelegation_untouched (a := a) hinit
  exact ⟨fun d => (hnew.balance d).trans (hpaid.balance d), hnew.account.trans hpaid.account⟩

/-- **The fee distribution** pays nothing to such an account, and takes nothing from it. -/
theorem handleFeeDistribution_untouched (ha : a ≠ x.cfg.distrAccount)
    (hblocked : blockedAddr x.cfg a = true) (h : s.handleFeeDistribution x ctx = .ok t) :
    Untouched a s t := by
  obtain ⟨u, hu, h⟩ := bind_eq_ok.mp h
  obtain ⟨w, hw, h⟩ := bind_eq_ok.mp h
  obtain ⟨y, hy, h⟩ := bind_eq_ok.mp h
  have h1 : Untouched a s u := foldlM_ok (I := fun _ z => Untouched a s z) hu (Untouched.refl a s)
    (fun _ _ _ _ _ _ hI hstep => hI.trans (withdrawValidatorCommission_untouched ha hblocked hstep))
  have h2 : Untouched a s w := foldlM_ok (I := fun _ z => Untouched a s z) hw h1
    (fun _ _ _ _ _ _ hI hstep =>
      hI.trans (withdrawRewards_untouched ha hblocked (panicOnError_ok.mp hstep)))
  have h3 : Untouched a s y := foldlM_ok (I := fun _ z => Untouched a s z) hy ⟨h2.balance, h2.account⟩
    (fun _ v _ z z' _ hI hstep => by
      obtain ⟨pool, _, hstep⟩ := bind_eq_ok.mp hstep
      obtain ⟨v', _, hstep⟩ := bind_eq_ok.mp hstep
      cases hstep
      exact ⟨hI.balance, hI.account⟩)
  exact foldlM_ok (I := fun _ z => Untouched a s z) h h3 (fun _ del _ z z' _ hI hstep => by
    obtain ⟨z1, hz1, hstep⟩ := bind_eq_ok.mp hstep
    obtain ⟨val, r, _, _, rfl⟩ := beforeDelegationCreated_ok (panicOnError_ok.mp hz1)
    have hlast := initializeDelegation_untouched (a := a) (panicOnError_ok.mp hstep)
    exact ⟨fun d => (hlast.balance d).trans (hI.balance d), hlast.account.trans hI.account⟩)

end

end App

end MeChain
