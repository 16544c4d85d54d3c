import MeChain.State

/-!
# The staking keeper

* `setValidator`, `setValidatorByConsAddr`, `setValidatorByPowerIndex`   one record, one index entry;
* `deleteLastValidatorPower`, `deleteValidatorByPowerIndex`              their counterparts;
* `dropKeys`              what `RemoveValidatorKeys` is relied on to do: the record under an operator
                          address goes, and the consensus index entry of its key;
* `afterValidatorCreated` the hooks the application wires: distribution, then slashing.
-/

set_option linter.unusedSectionVars false

namespace MeChain
open Fallible

variable {Addr : Type} [SdkAddress Addr] [DecidableEq Addr]

/-! ## powers and keys -/

def Int64.fits (x : ℤ) : Prop := -2 ^ 63 ≤ x ∧ x < 2 ^ 63

instance (x : ℤ) : Decidable (Int64.fits x) := inferInstanceAs (Decidable (_ ∧ _))

/-- the whole part of `tokens / powerReduction` -/
def consensusPower (powerReduction tokens : ℤ) : ℤ := tokens.tdiv powerReduction

/-- `TokensToConsensusPower`: a power must fit in 64 bits -/
def tokensToConsensusPower (powerReduction : ℤ) (tokens : Option ℤ) : Res ℤ := do
  let tokens ← deref tokens
  if Int64.fits (consensusPower powerReduction tokens) then
    .ok (consensusPower powerReduction tokens)
  else goPanic "Int64() out of bound"

theorem tokensToConsensusPower_ok {r p : ℤ} {tokens : Option ℤ} :
    tokensToConsensusPower r tokens = .ok p ↔
    ∃ t, tokens = some t ∧ Int64.fits (consensusPower r t) ∧ p = consensusPower r t := by
  unfold tokensToConsensusPower
  rw [bind_eq_ok]
  refine exists_congr (fun t => and_congr deref_ok ?_)
  by_cases h : Int64.fits (consensusPower r t)
  · simp [h, eq_comm]
  · simp [h, goPanic]

/-- the power index entry of a validator with these tokens -/
def powerKey (r : ℤ) (tokens : Option ℤ) (op : Addr) : ℤ × Addr :=
  (consensusPower r (tokens.getD 0), op)

/-- what unbonds, all entries together -/
def UnbondingDelegation.balance (u : UnbondingDelegation Addr) : ℤ :=
  (u.entries.map UnbondingDelegationEntry.balance).sum

/-- `GetConsAddr` -/
def Validator.getConsAddr (v : Validator Addr) : Res Addr :=
  match v.consensusPubkey with
  | some pk => .ok (pubKeyAddress pk)
  | none => goError .other "expecting a public key"

theorem getConsAddr_ok {v : Validator Addr} {a : Addr} :
    v.getConsAddr = .ok a ↔ ∃ pk, v.consensusPubkey = some pk ∧ a = pubKeyAddress pk := by
  unfold Validator.getConsAddr
  cases v.consensusPubkey with
  | none => simp [goError]
  | some pk => simp [eq_comm]

namespace StakingState

def getStake (s : StakingState Addr) (staker validator : Addr) : Option (Stake Addr) :=
  s.stakes.get (staker, validator)

def setStake (s : StakingState Addr) (stake : Stake Addr) : StakingState Addr :=
  { s with stakes := s.stakes.put stake }

def setValidator (s : StakingState Addr) (v : Validator Addr) : StakingState Addr :=
  { s with validators := s.validators.put v }

def setValidatorByConsAddr (s : StakingState Addr) (v : Validator Addr) :
    Res (StakingState Addr) := do
  let consAddr ← v.getConsAddr
  .ok { s with
    validatorsByConsAddr := s.validatorsByConsAddr.put (consAddr, v.operatorAddress) }

def deleteLastValidatorPower (s : StakingState Addr) (op : Addr) : StakingState Addr :=
  { s with lastValidatorPower := s.lastValidatorPower.del op }

def deleteValidatorByPowerIndex (powerReduction : ℤ) (s : StakingState Addr) (v : Validator Addr) :
    Res (StakingState Addr) := do
  let power ← tokensToConsensusPower powerReduction v.tokens
  .ok { s with
    validatorsByPowerIndex := s.validatorsByPowerIndex.del (power, v.operatorAddress) }

/-- jailed validators are not entered -/
def setValidatorByPowerIndex (powerReduction : ℤ) (s : StakingState Addr) (v : Validator Addr) :
    Res (StakingState Addr) :=
  if v.jailed then .ok s
  else do
    let power ← tokensToConsensusPower powerReduction v.tokens
    .ok { s with
      validatorsByPowerIndex :=
        s.validatorsByPowerIndex.put ((power, v.operatorAddress), v.operatorAddress) }

theorem deleteValidatorByPowerIndex_ok {r : ℤ} {s s' : StakingState Addr} {v : Validator Addr} :
    s.deleteValidatorByPowerIndex r v = .ok s' ↔
    (∃ t, v.tokens = some t ∧ Int64.fits (consensusPower r t)) ∧
      s' = { s with
        validatorsByPowerIndex :=
          s.validatorsByPowerIndex.del (powerKey r v.tokens v.operatorAddress) } := by
  constructor
  · intro h
    obtain ⟨p, hp, h⟩ := bind_eq_ok.mp h
    obtain ⟨t, ht, hf, rfl⟩ := tokensToConsensusPower_ok.mp hp
    cases h
    exact ⟨⟨t, ht, hf⟩, by rw [powerKey, ht, Option.getD_some]⟩
  · intro h
    obtain ⟨⟨t, ht, hf⟩, rfl⟩ := h
    refine bind_eq_ok.mpr ⟨_, tokensToConsensusPower_ok.mpr ⟨t, ht, hf, rfl⟩, ?_⟩
    rw [powerKey, ht, Option.getD_some]

theorem setValidatorByPowerIndex_ok {r : ℤ} {s s' : StakingState Addr} {v : Validator Addr} :
    s.setValidatorByPowerIndex r v = .ok s' ↔
    (v.jailed = false → ∃ t, v.tokens = some t ∧ Int64.fits (consensusPower r t)) ∧
      s' = { s with
        validatorsByPowerIndex := if v.jailed then s.validatorsByPowerIndex
          else s.validatorsByPowerIndex.put
            (powerKey r v.tokens v.operatorAddress, v.operatorAddress) } := by
  unfold setValidatorByPowerIndex
  cases hj : v.jailed with
  | true =>
    rw [if_pos rfl, if_pos rfl]
    constructor
    · intro h
      cases h
      exact ⟨fun hf => absurd hf (by simp), rfl⟩
    · intro h
      rw [h.2]
  | false =>
    simp only [Bool.false_eq_true, if_false, forall_const]
    constructor
    · intro h
      obtain ⟨p, hp, h⟩ := bind_eq_ok.mp h
      obtain ⟨t, ht, hf, rfl⟩ := tokensToConsensusPower_ok.mp hp
      cases h
      exact ⟨⟨t, ht, hf⟩, by rw [powerKey, ht, Option.getD_some]⟩
    · intro h
      obtain ⟨⟨t, ht, hf⟩, rfl⟩ := h
      refine bind_eq_ok.mpr ⟨_, tokensToConsensusPower_ok.mpr ⟨t, ht, hf, rfl⟩, ?_⟩
      rw [powerKey, ht, Option.getD_some]

/-- the record under an operator address, and the consensus index entry of its key, deleted -/
def dropKeys (s : StakingState Addr) (op : Addr) : StakingState Addr :=
  match s.validators.get op with
  | none => s
  | some v =>
    { s with
      validators := s.validators.del op
      validatorsByConsAddr := match v.consensusPubkey with
        | some pk => s.validatorsByConsAddr.del (pubKeyAddress pk)
        | none => s.validatorsByConsAddr }

theorem dropKeys_eq (s : StakingState Addr) (op : Addr) :
    s.dropKeys op = { s with
      validators := s.validators.del op
      validatorsByConsAddr := (s.dropKeys op).validatorsByConsAddr } := by
  unfold dropKeys
  cases h : s.validators.get op with
  | none =>
    dsimp only
    rw [Table.del_of_none h]
  | some v => rfl

/-- every address another record names as a validator -/
def references (s : StakingState Addr) : List Addr :=
  s.stakes.rows.map Stake.validatorAddress ++
  s.unbondingStakes.rows.map UnbondingStake.validatorAddress ++
  s.delegations.rows.map Delegation.validatorAddress ++
  s.unbondingDelegations.rows.map UnbondingDelegation.validatorAddress ++
  s.redelegations.rows.map Redelegation.validatorSrcAddress ++
  s.redelegations.rows.map Redelegation.validatorDstAddress ++
  s.regions.rows.map Region.operatorAddress ++
  s.validatorQueue.rows.flatMap QueueSlot.addresses

end StakingState

/-- `RemoveValidatorKeys`, whose code is not here, does what is relied on. -/
def Config.RemovesKeys (cfg : Config Addr) : Prop :=
  ∀ s op, cfg.removeValidatorKeys s op = s.dropKeys op

/-! ## hooks -/

/-- `initializeValidator` of x/distribution -/
def DistrState.initializeValidator (s : DistrState Addr) (op : Addr) : DistrState Addr :=
  { s with
    historicalRewards := s.historicalRewards.put ((op, 0), ⟨[], 1⟩)
    currentRewards := s.currentRewards.put (op, ⟨[], 1⟩)
    accumulatedCommission := s.accumulatedCommission.put (op, [])
    outstandingRewards := s.outstandingRewards.put (op, []) }

/-- the hook of x/slashing: the validator's key under its address -/
def SlashingState.addPubkey (s : SlashingState Addr) (pk : PubKey) : SlashingState Addr :=
  { s with addrPubkeyRelation := s.addrPubkeyRelation.put (pubKeyAddress pk, pk) }

/-- `AfterValidatorCreated`: both hooks look the validator up -/
def App.afterValidatorCreated (s : App Addr) (op : Addr) : Res (App Addr) := do
  let v ← deref (s.staking.validators.get op)
  let distr := s.distr.initializeValidator v.operatorAddress
  match v.consensusPubkey with
  | some pk => .ok { s with distr := distr, slashing := s.slashing.addPubkey pk }
  | none => goError .other "expecting a public key"

theorem App.afterValidatorCreated_ok {s s' : App Addr} {v : Validator Addr}
    (hv : s.staking.validators.get v.operatorAddress = some v) :
    s.afterValidatorCreated v.operatorAddress = .ok s' ↔ ∃ pk, v.consensusPubkey = some pk ∧
      s' = { s with
        distr := s.distr.initializeValidator v.operatorAddress
        slashing := s.slashing.addPubkey pk } := by
  unfold App.afterValidatorCreated
  rw [hv]
  cases hpk : v.consensusPubkey with
  | none => simp [deref, goError, hpk]
  | some pk => simp [deref, hpk, eq_comm]

/-- a wiring with a fixed global admin and dev operator -/
def Config.fixed (admin dev : String) : Config String where
  names := .sdk
  powerReduction := 1000000
  getGlobalAdminAddr _ := .ok admin
  getDevOperatorAddress _ := dev
  removeValidatorKeys := StakingState.dropKeys

end MeChain
