import Mathlib.Tactic.Linarith
import MeChain.Bank
import MeChain.DecCoins
import MeChain.Staking

/-!
# The distribution keeper

* `incrementValidatorPeriod`   ends the period of a validator and starts the next one;
* `incrementReferenceCount`, `decrementReferenceCount`   who refers to an ended period;
* `withdrawValidatorCommission`, `withdrawDelegationRewards`   payments out of the module account;
* `initializeDelegation`       the starting info of a delegation;
* `totalOf`                    what is recorded: all outstanding rewards and the community pool.

What a delegation has earned since its starting info, and its stake in tokens, are computed from the
slash events and shares by code that is not here: `RewardRules`.
-/

set_option linter.unusedSectionVars false

namespace MeChain
open Fallible

variable {Addr : Type} [SdkAddress Addr] [DecidableEq Addr]

/-- `CalculateDelegationRewards` and `TokensFromSharesTruncated` -/
structure RewardRules (Addr : Type) [SdkAddress Addr] where
  calculateDelegationRewards : Context → App Addr → Validator Addr → Delegation Addr → Nat →
    Res DecCoins
  tokensFromSharesTruncated : Validator Addr → Dec → Res Dec

/-- rewards are never negative -/
def RewardRules.NonNegative (rules : RewardRules Addr) : Prop :=
  ∀ ctx s v del p cs, rules.calculateDelegationRewards ctx s v del p = .ok cs →
    ∀ c ∈ cs, 0 ≤ c.amount

namespace DistrState

/-! ## records -/

def getValidatorOutstandingRewards (s : DistrState Addr) (op : Addr) : DecCoins :=
  s.outstandingRewards.lookupD op []

def getValidatorAccumulatedCommission (s : DistrState Addr) (op : Addr) : DecCoins :=
  s.accumulatedCommission.lookupD op []

def getValidatorCurrentRewards (s : DistrState Addr) (op : Addr) : CurrentRewards :=
  s.currentRewards.lookupD op ⟨[], 0⟩

def getValidatorHistoricalRewards (s : DistrState Addr) (op : Addr) (period : Nat) :
    HistoricalRewards :=
  s.historicalRewards.lookupD (op, period) ⟨[], 0⟩

/-- an account's rewards go to the account itself unless it names another -/
def getDelegatorWithdrawAddr (s : DistrState Addr) (del : Addr) : Addr :=
  s.withdrawAddrs.lookupD del del

def setValidatorOutstandingRewards (s : DistrState Addr) (op : Addr) (cs : DecCoins) :
    DistrState Addr :=
  { s with outstandingRewards := s.outstandingRewards.put (op, cs) }

/-- the outstanding rewards of an address, by denomination -/
def outstandingOf (s : DistrState Addr) (op : Addr) (d : String) : Dec :=
  DecCoins.amountOf (s.getValidatorOutstandingRewards op) d

/-- the accumulated commission of an address, by denomination -/
def commissionOf (s : DistrState Addr) (op : Addr) (d : String) : Dec :=
  DecCoins.amountOf (s.getValidatorAccumulatedCommission op) d

/-- everything recorded in one denomination -/
def totalOf (s : DistrState Addr) (d : String) : Dec :=
  s.outstandingRewards.sum (fun e => DecCoins.amountOf e.2 d) + DecCoins.amountOf s.communityPool d

/-! ## periods -/

/-- `period - 1` of an unsigned 64-bit number -/
def previousPeriod (period : Nat) : Nat := if period = 0 then 2 ^ 64 - 1 else period - 1

theorem previousPeriod_succ (period : Nat) : previousPeriod (period + 1) = period :=
  if_neg (Nat.succ_ne_zero period)

def incrementReferenceCount (s : DistrState Addr) (op : Addr) (period : Nat) :
    Res (DistrState Addr) :=
  let historical := s.getValidatorHistoricalRewards op period
  if 2 < historical.referenceCount then goPanic "reference count should never exceed 2"
  else .ok { s with
    historicalRewards := s.historicalRewards.put
      ((op, period), { historical with referenceCount := historical.referenceCount + 1 }) }

/-- a period nobody refers to any more is deleted -/
def decrementReferenceCount (s : DistrState Addr) (op : Addr) (period : Nat) :
    Res (DistrState Addr) :=
  let historical := s.getValidatorHistoricalRewards op period
  if historical.referenceCount = 0 then goPanic "cannot set negative reference count"
  else if historical.referenceCount = 1 then .ok { s with
    historicalRewards := s.historicalRewards.del (op, period) }
  else .ok { s with
    historicalRewards := s.historicalRewards.put
      ((op, period), { historical with referenceCount := historical.referenceCount - 1 }) }

/-- the ratio the current rewards add; a validator without tokens gives them to the pool -/
def currentRatio (s : DistrState Addr) (op : Addr) (tokens : ℤ) (rewards : DecCoins) :
    Res (DistrState Addr × DecCoins) :=
  if tokens = 0 then do
    let communityPool ← DecCoins.safeAdd s.communityPool rewards
    let outstanding ← DecCoins.sub (s.getValidatorOutstandingRewards op) rewards
    .ok ({ s.setValidatorOutstandingRewards op outstanding with communityPool := communityPool }, [])
  else .ok (s, DecCoins.quoDecTruncate rewards (Dec.ofInt tokens))

/-- the period that ended, and the store -/
def incrementValidatorPeriod (s : DistrState Addr) (val : Validator Addr) :
    Res (DistrState Addr × Nat) := do
  let op := val.operatorAddress
  let rewards := s.getValidatorCurrentRewards op
  let tokens ← deref val.tokens
  let r ← s.currentRatio op tokens rewards.rewards
  let historical := r.1.getValidatorHistoricalRewards op (previousPeriod rewards.period)
  let s ← r.1.decrementReferenceCount op (previousPeriod rewards.period)
  let ratio ← DecCoins.safeAdd historical.cumulativeRewardRatio r.2
  .ok ({ s with
    historicalRewards := s.historicalRewards.put ((op, rewards.period), ⟨ratio, 1⟩)
    currentRewards := s.currentRewards.put (op, ⟨[], rewards.period + 1⟩) }, rewards.period)

end DistrState

/-! ## payments -/

namespace App

/-- the bank after a debit that stopped at the first coin it could not take: outside a transaction
what was written before stays -/
def debitUntilError (locked : String → ℤ) (a : Addr) : Coins → BankState Addr → BankState Addr
  | [], b => b
  | c :: cs, b =>
    match BankState.subUnlockedCoin locked a b c with
    | .ok b' => debitUntilError locked a cs b'
    | .error _ => b

/-- the state after `SendCoinsFromModuleToAccount` returned an error: a recipient that may not
receive coins and an invalid coin list are found before anything is written -/
def afterFailedSend (cfg : Config Addr) (ctx : Context) (s : App Addr) (recipient : Addr)
    (amt : Coins) : App Addr :=
  let sender : Addr := newModuleAddress cfg.names.distribution
  if blockedAddr cfg recipient = true ∨ ¬ amt.IsValid then s
  else { s with bank := debitUntilError (s.lockedCoins ctx sender) sender amt s.bank }

/-- `_, _ =`: an error is dropped, and what had been written stays; a panic is not -/
def dropError (failed : App Addr) : Res (App Addr) → Res (App Addr)
  | .ok s => .ok s
  | .error (.panic msg) => goPanic msg
  | .error (.error _) => .ok failed

/-- `WithdrawValidatorCommission`, for a caller that drops the result: the records are written before
the coins are sent -/
def withdrawValidatorCommission (cfg : Config Addr) (ctx : Context) (s : App Addr) (op : Addr) :
    Res (App Addr) :=
  let accumCommission := s.distr.getValidatorAccumulatedCommission op
  if DecCoins.IsZero accumCommission then .ok s
  else do
    let (commission, remainder) := DecCoins.truncateDecimal accumCommission
    let outstanding ← DecCoins.sub (s.distr.getValidatorOutstandingRewards op)
      (DecCoins.ofCoins commission)
    let s := { s with distr := { s.distr.setValidatorOutstandingRewards op outstanding with
      accumulatedCommission := s.distr.accumulatedCommission.put (op, remainder) } }
    if commission.IsZero then .ok s
    else
      let withdrawAddr := s.distr.getDelegatorWithdrawAddr op
      dropError (s.afterFailedSend cfg ctx withdrawAddr commission)
        (s.sendCoinsFromModuleToAccount cfg ctx cfg.names.distribution withdrawAddr commission)

/-- `initializeDelegation`: the period has been incremented already -/
def initializeDelegation (rules : RewardRules Addr) (ctx : Context) (s : App Addr) (op del : Addr) :
    Res (App Addr) := do
  let previousPeriod :=
    DistrState.previousPeriod (s.distr.getValidatorCurrentRewards op).period
  let distr ← s.distr.incrementReferenceCount op previousPeriod
  let validator ← deref (s.staking.validators.get op)
  let delegation ← deref (s.staking.delegations.get (del, op))
  let stake ← rules.tokensFromSharesTruncated validator delegation.shares
  .ok { s with distr := { distr with
    delegatorStartingInfos :=
      distr.delegatorStartingInfos.put ((op, del), ⟨previousPeriod, stake, ctx.blockHeight⟩) } }

/-- what a delegation may withdraw: never more than is outstanding -/
def delegationRewards (rules : RewardRules Addr) (ctx : Context) (s : App Addr)
    (val : Validator Addr) (del : Delegation Addr) (endingPeriod : Nat) : Res DecCoins := do
  let rewardsRaw ← rules.calculateDelegationRewards ctx s val del endingPeriod
  .ok (DecCoins.intersect rewardsRaw (s.distr.getValidatorOutstandingRewards val.operatorAddress))

/-- the whole coins, if there are any, to the account that `del` names -/
def sendRewards (cfg : Config Addr) (ctx : Context) (s : App Addr) (del : Addr)
    (finalRewards : Coins) : Res (App Addr) :=
  if finalRewards.IsZero then .ok s
  else s.sendCoinsFromModuleToAccount cfg ctx cfg.names.distribution
    (s.distr.getDelegatorWithdrawAddr del) finalRewards

/-- the payment and the records of a withdrawal; the remainder goes to the community pool -/
def payDelegationRewards (cfg : Config Addr) (ctx : Context) (s : App Addr) (op del : Addr)
    (rewards : DecCoins) : Res (App Addr) := do
  let r := DecCoins.truncateDecimal rewards
  let outstanding := s.distr.getValidatorOutstandingRewards op
  let s ← s.sendRewards cfg ctx del r.1
  let outstanding ← DecCoins.sub outstanding rewards
  let communityPool ← DecCoins.safeAdd s.distr.communityPool r.2
  .ok { s with distr := { s.distr.setValidatorOutstandingRewards op outstanding with
    communityPool := communityPool } }

/-- `withdrawDelegationRewards` -/
def withdrawDelegationRewards (cfg : Config Addr) (rules : RewardRules Addr) (ctx : Context)
    (s : App Addr) (val : Validator Addr) (del : Delegation Addr) : Res (App Addr) :=
  match s.distr.delegatorStartingInfos.get (val.operatorAddress, del.delegatorAddress) with
  | none => goError .other "no delegation distribution info"
  | some startingInfo => do
    let (distr, endingPeriod) ← s.distr.incrementValidatorPeriod val
    let s := { s with distr := distr }
    let rewards ← s.delegationRewards rules ctx val del endingPeriod
    let s ← s.payDelegationRewards cfg ctx val.operatorAddress del.delegatorAddress rewards
    let distr ← s.distr.decrementReferenceCount val.operatorAddress startingInfo.2.previousPeriod
    .ok { s with distr := { distr with
      delegatorStartingInfos :=
        distr.delegatorStartingInfos.del (val.operatorAddress, del.delegatorAddress) } }

/-- `WithdrawDelegationRewards` -/
def withdrawRewards (cfg : Config Addr) (rules : RewardRules Addr) (ctx : Context) (s : App Addr)
    (delAddr valAddr : Addr) : Res (App Addr) :=
  match s.staking.validators.get valAddr, s.staking.delegations.get (delAddr, valAddr) with
  | none, _ => goError .other "no validator distribution info"
  | _, none => goError .other "no delegation distribution info"
  | some val, some del => do
    let s ← s.withdrawDelegationRewards cfg rules ctx val del
    s.initializeDelegation rules ctx valAddr delAddr

/-- the hook `BeforeDelegationCreated` -/
def beforeDelegationCreated (s : App Addr) (valAddr : Addr) : Res (App Addr) := do
  let val ← deref (s.staking.validators.get valAddr)
  let (distr, _) ← s.distr.incrementValidatorPeriod val
  .ok { s with distr := distr }

end App

/-! ## what the record operations do -/

namespace DistrState

variable {s s' t : DistrState Addr} {op : Addr} {d : String}

theorem outstandingOf_set (s : DistrState Addr) (op op' : Addr) (cs : DecCoins) (d : String) :
    (s.setValidatorOutstandingRewards op cs).outstandingOf op' d
      = if op' = op then DecCoins.amountOf cs d else s.outstandingOf op' d := by
  unfold outstandingOf getValidatorOutstandingRewards setValidatorOutstandingRewards
  rw [Table.lookupD_put]
  split
  · rfl
  · rfl

theorem totalOf_set (s : DistrState Addr) (op : Addr) (cs : DecCoins) (d : String) :
    (s.setValidatorOutstandingRewards op cs).totalOf d + s.outstandingOf op d
      = s.totalOf d + DecCoins.amountOf cs d := by
  have hput := Table.sum_put s.outstandingRewards (fun e => DecCoins.amountOf e.2 d) (op, cs)
  have hval : s.outstandingRewards.valueAt (fun e => DecCoins.amountOf e.2 d) op
      = s.outstandingOf op d := Table.valueAt_lookupD (f := fun cs => DecCoins.amountOf cs d) rfl _ _
  rw [hval] at hput
  show (s.outstandingRewards.put (op, cs)).sum _ + DecCoins.amountOf s.communityPool d + _ = _
  rw [add_right_comm, hput]
  exact add_right_comm _ _ _

/-- the total after the outstanding rewards of one address and the pool were replaced -/
theorem totalOf_replace (s : DistrState Addr) (op : Addr) (cs pool : DecCoins) (d : String) :
    ({ s.setValidatorOutstandingRewards op cs with communityPool := pool } : DistrState Addr).totalOf d
      = s.totalOf d + (DecCoins.amountOf cs d - s.outstandingOf op d)
        + (DecCoins.amountOf pool d - DecCoins.amountOf s.communityPool d) := by
  have hset := totalOf_set s op cs d
  have hpool : ({ s.setValidatorOutstandingRewards op cs with
      communityPool := pool } : DistrState Addr).totalOf d + DecCoins.amountOf s.communityPool d
      = (s.setValidatorOutstandingRewards op cs).totalOf d + DecCoins.amountOf pool d :=
    add_right_comm _ _ _
  linarith

/-- the outstanding rewards of one address and the pool are part of the total -/
theorem outstandingOf_add_pool_le (hout : ∀ op, 0 ≤ s.outstandingOf op d) (op : Addr) :
    s.outstandingOf op d + DecCoins.amountOf s.communityPool d ≤ s.totalOf d := by
  have hdel := Table.sum_del s.outstandingRewards (fun e => DecCoins.amountOf e.2 d) op
  have hval : s.outstandingRewards.valueAt (fun e => DecCoins.amountOf e.2 d) op
      = s.outstandingOf op d := Table.valueAt_lookupD (f := fun cs => DecCoins.amountOf cs d) rfl _ _
  have hrest : 0 ≤ (s.outstandingRewards.del op).sum (fun e => DecCoins.amountOf e.2 d) := by
    refine List.sum_nonneg (fun x hx => ?_)
    obtain ⟨e, he, rfl⟩ := List.mem_map.mp hx
    have hget := Table.mem_rows_iff.mp (Table.mem_del.mp he).1
    have hnn := hout e.1
    rwa [outstandingOf, getValidatorOutstandingRewards, Table.lookupD_of_get hget] at hnn
  rw [hval] at hdel
  unfold totalOf
  rw [← hdel]
  exact add_le_add_left (le_add_of_nonneg_left hrest) _

theorem outstandingOf_le_totalOf (hout : ∀ op, 0 ≤ s.outstandingOf op d)
    (hpool : 0 ≤ DecCoins.amountOf s.communityPool d) (op : Addr) :
    s.outstandingOf op d ≤ s.totalOf d :=
  (le_add_of_nonneg_right hpool).trans (outstandingOf_add_pool_le hout op)

/-! ### reference counts -/

/-- how often a period of a validator is referred to -/
def references (s : DistrState Addr) (op : Addr) (period : Nat) : Nat :=
  (s.getValidatorHistoricalRewards op period).referenceCount

theorem stored_of_references {period : Nat} (h : s.references op period ≠ 0) :
    ∃ historical, s.historicalRewards.get (op, period) = some ((op, period), historical) := by
  have hne : s.getValidatorHistoricalRewards op period ≠ ⟨[], 0⟩ := by
    intro he
    unfold references at h
    rw [he] at h
    exact h rfl
  exact ⟨_, Table.get_of_lookupD hne⟩

/-- an operation that touches the historical rewards only -/
def SameButHistory (s t : DistrState Addr) : Prop :=
  t = { s with historicalRewards := t.historicalRewards }

theorem incrementReferenceCount_ok {period : Nat}
    (h : s.incrementReferenceCount op period = .ok t) : SameButHistory s t ∧
    ∀ op' q, t.references op' q = if (op', q) = (op, period) then s.references op period + 1
      else s.references op' q := by
  obtain ⟨_, h⟩ := guard_eq_ok.mp h
  cases h
  refine ⟨rfl, fun op' q => ?_⟩
  unfold references getValidatorHistoricalRewards
  rw [Table.lookupD_put]
  split
  · rfl
  · rfl

theorem decrementReferenceCount_ok {period : Nat}
    (h : s.decrementReferenceCount op period = .ok t) : SameButHistory s t ∧
    ∀ op' q, t.references op' q = if (op', q) = (op, period) then s.references op period - 1
      else s.references op' q := by
  obtain ⟨_, h⟩ := guard_eq_ok.mp h
  by_cases h1 : (s.getValidatorHistoricalRewards op period).referenceCount = 1
  · rw [if_pos h1] at h
    cases h
    refine ⟨rfl, fun op' q => ?_⟩
    unfold references
    rw [h1, getValidatorHistoricalRewards, Table.lookupD_del]
    split
    · rfl
    · rfl
  · rw [if_neg h1] at h
    cases h
    refine ⟨rfl, fun op' q => ?_⟩
    unfold references getValidatorHistoricalRewards
    rw [Table.lookupD_put]
    split
    · rfl
    · rfl

/-! ### a period ended -/

/-- no amount on record is negative -/
structure Sound (s : DistrState Addr) : Prop where
  outstanding : ∀ op d, 0 ≤ s.outstandingOf op d
  current : ∀ op d, 0 ≤ DecCoins.amountOf (s.getValidatorCurrentRewards op).rewards d
  pool : ∀ d, 0 ≤ DecCoins.amountOf s.communityPool d

theorem sound_of_rows (hout : ∀ e ∈ s.outstandingRewards.rows, ∀ c ∈ e.2, 0 ≤ c.amount)
    (hcur : ∀ e ∈ s.currentRewards.rows, ∀ c ∈ e.2.rewards, 0 ≤ c.amount)
    (hpool : ∀ c ∈ s.communityPool, 0 ≤ c.amount) : s.Sound where
  outstanding op d := DecCoins.amountOf_nonneg
    (Table.lookupD_of_rows (P := fun cs : DecCoins => ∀ c ∈ cs, 0 ≤ c.amount) hout (by simp) op) d
  current op d := DecCoins.amountOf_nonneg (Table.lookupD_of_rows
    (P := fun r : CurrentRewards => ∀ c ∈ r.rewards, 0 ≤ c.amount) hcur (by simp) op) d
  pool := DecCoins.amountOf_nonneg hpool

theorem Sound.totalOf_nonneg (h : s.Sound) (d : String) : 0 ≤ s.totalOf d := by
  refine add_nonneg (List.sum_nonneg (fun x hx => ?_)) (h.pool d)
  obtain ⟨e, he, rfl⟩ := List.mem_map.mp hx
  have hnn := h.outstanding e.1 d
  rwa [outstandingOf, getValidatorOutstandingRewards,
    Table.lookupD_of_get (Table.mem_rows_iff.mp he)] at hnn

/-- records between which rewards moved to the pool at most, and nothing was paid -/
structure Shifted (s t : DistrState Addr) : Prop where
  total : ∀ d, t.totalOf d = s.totalOf d
  outstanding : ∀ op d, t.outstandingOf op d ≤ s.outstandingOf op d
  sound : t.Sound
  commission : t.accumulatedCommission = s.accumulatedCommission
  withdrawAddrs : t.withdrawAddrs = s.withdrawAddrs
  startingInfos : t.delegatorStartingInfos = s.delegatorStartingInfos

theorem Shifted.refl (h : s.Sound) : Shifted s s :=
  ⟨fun _ => rfl, fun _ _ => le_refl _, h, rfl, rfl, rfl⟩

theorem currentRatio_ok {tokens : ℤ} {rewards : DecCoins} {r : DistrState Addr × DecCoins}
    (hs : s.Sound) (hrew : ∀ d, 0 ≤ DecCoins.amountOf rewards d)
    (h : s.currentRatio op tokens rewards = .ok r) : Shifted s r.1 ∧
      r.1.historicalRewards = s.historicalRewards ∧ r.1.currentRewards = s.currentRewards := by
  unfold currentRatio at h
  by_cases h0 : tokens = 0
  · rw [if_pos h0] at h
    obtain ⟨pool, hpool, h⟩ := bind_eq_ok.mp h
    obtain ⟨outstanding, hout, h⟩ := bind_eq_ok.mp h
    cases h
    have hp := DecCoins.amountOf_safeAdd hpool
    have ho := DecCoins.amountOf_sub hout
    have hof : ∀ op' d, ({ s.setValidatorOutstandingRewards op outstanding with
        communityPool := pool } : DistrState Addr).outstandingOf op' d
        = if op' = op then DecCoins.amountOf outstanding d else s.outstandingOf op' d :=
      fun op' d => outstandingOf_set s op op' outstanding d
    refine ⟨⟨fun d => ?_, fun op' d => ?_, ⟨fun op' d => ?_, hs.current, fun d => ?_⟩,
      rfl, rfl, rfl⟩, rfl, rfl⟩
    · have hd := (ho d).1
      change DecCoins.amountOf outstanding d = s.outstandingOf op d - _ at hd
      rw [totalOf_replace, hd, hp]
      ring
    · rw [hof]
      by_cases hop : op' = op
      · have hd := (ho d).1
        change DecCoins.amountOf outstanding d = s.outstandingOf op d - _ at hd
        rw [if_pos hop, hop, hd]
        exact sub_le_self _ (hrew d)
      · rw [if_neg hop]
    · rw [hof]
      by_cases hop : op' = op
      · rw [if_pos hop]
        exact (ho d).2
      · rw [if_neg hop]
        exact hs.outstanding op' d
    · show 0 ≤ DecCoins.amountOf pool d
      rw [hp]
      exact add_nonneg (hs.pool d) (hrew d)
  · rw [if_neg h0] at h
    cases h
    exact ⟨Shifted.refl hs, rfl, rfl⟩

/-- **A period ended.**  Its number is the current one; the previous one has a reference less. -/
theorem incrementValidatorPeriod_ok {val : Validator Addr} {r : DistrState Addr × Nat}
    (hs : s.Sound) (h : s.incrementValidatorPeriod val = .ok r) : Shifted s r.1 ∧
    r.2 = (s.getValidatorCurrentRewards val.operatorAddress).period ∧
    (∀ op, (r.1.getValidatorCurrentRewards op).period = if op = val.operatorAddress then r.2 + 1
      else (s.getValidatorCurrentRewards op).period) ∧
    ∀ op q, r.1.references op q = if (op, q) = (val.operatorAddress, r.2) then 1
      else if (op, q) = (val.operatorAddress, previousPeriod r.2) then s.references op q - 1
      else s.references op q := by
  obtain ⟨tokens, _, h⟩ := bind_eq_ok.mp h
  obtain ⟨y, hy, h⟩ := bind_eq_ok.mp h
  obtain ⟨z, hz, h⟩ := bind_eq_ok.mp h
  obtain ⟨ratio, _, h⟩ := bind_eq_ok.mp h
  cases h
  obtain ⟨hshift, hhist, hcur⟩ := currentRatio_ok hs (hs.current val.operatorAddress) hy
  obtain ⟨hsame, hrefs⟩ := decrementReferenceCount_ok hz
  have hzcur : z.currentRewards = s.currentRewards := by
    rw [hsame]
    exact hcur
  have hyrefs : ∀ op q, y.1.references op q = s.references op q := by
    intro op q
    unfold references getValidatorHistoricalRewards
    rw [hhist]
  refine ⟨⟨fun d => ?_, fun op d => ?_, ⟨fun op d => ?_, fun op d => ?_, fun d => ?_⟩, ?_, ?_, ?_⟩,
    rfl, fun op => ?_, fun op q => ?_⟩
  · rw [← hshift.total, hsame]
    rfl
  · refine le_trans (le_of_eq ?_) (hshift.outstanding op d)
    rw [hsame]
    rfl
  · refine le_of_le_of_eq (hshift.sound.outstanding op d) ?_
    rw [hsame]
    rfl
  · show 0 ≤ DecCoins.amountOf (z.currentRewards.put _ |>.lookupD op _).rewards d
    rw [Table.lookupD_put, hzcur]
    split
    · exact le_refl _
    · exact hs.current op d
  · refine le_of_le_of_eq (hshift.sound.pool d) ?_
    rw [hsame]
  · refine Eq.trans ?_ hshift.commission
    rw [hsame]
  · refine Eq.trans ?_ hshift.withdrawAddrs
    rw [hsame]
  · refine Eq.trans ?_ hshift.startingInfos
    rw [hsame]
  · show (z.currentRewards.put _ |>.lookupD op _).period = _
    rw [Table.lookupD_put, hzcur]
    split
    · rfl
    · rfl
  · show (z.historicalRewards.put _ |>.lookupD (op, q) _).referenceCount = _
    rw [Table.lookupD_put]
    by_cases h1 : (op, q) = (val.operatorAddress,
        (s.getValidatorCurrentRewards val.operatorAddress).period)
    · rw [if_pos h1, if_pos h1]
    · rw [if_neg h1, if_neg h1]
      refine (hrefs op q).trans ?_
      by_cases h2 : (op, q) = (val.operatorAddress, previousPeriod
          (s.getValidatorCurrentRewards val.operatorAddress).period)
      · rw [if_pos h2, if_pos h2, hyrefs, (Prod.mk.inj h2).1, (Prod.mk.inj h2).2]
      · rw [if_neg h2, if_neg h2, hyrefs]

end DistrState

end MeChain
