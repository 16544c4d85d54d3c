import MeChain.Distribution
import MeChain.ValidatorSet

/-!
# `prepForZeroHeightGenesis`

The export for a chain that starts again at height zero, phase by phase as the source has them.

* `handleFeeDistribution`   everything is withdrawn, fractions go to the community pool, and the
                            records of validators and delegations are made anew at height zero;
* `resetHeights`            redelegations, unbonding delegations, validators; those outside the allow
                            list are jailed by a plain write of the record;
* `prepForZeroHeightGenesis`  these, then the validator set updates and the signing infos.

`log.Fatal` ends the process and `panic(err)` unwinds it; neither leaves a state to export.
-/

set_option linter.unusedSectionVars false

namespace MeChain
open Fallible

/-- the spelling of operator addresses: `sdk.ValAddressFromBech32` and `ValAddress.String` -/
class ValAddress (Addr : Type) where
  valAddressFromBech32 : String → Except Error Addr
  valStr : Addr → String
  valFromBech32_str : ∀ a, valAddressFromBech32 (valStr a) = .ok a

export ValAddress (valAddressFromBech32 valStr)

instance stringValAddress : ValAddress String where
  valAddressFromBech32 s := .ok s
  valStr a := a
  valFromBech32_str a := (SdkAddress.fromBech32_str a :
    accAddressFromBech32 (SdkAddress.str a) = .ok a)

variable {Addr : Type} [SdkAddress Addr] [DecidableEq Addr]

/-- the application as the export finds it: the wiring, the reward rules, and the invariants that the
crisis module knows, each true of the states that break it -/
structure ExportConfig (Addr : Type) [SdkAddress Addr] where
  cfg : Config Addr
  rules : RewardRules Addr
  invariants : List (App Addr → Bool)

/-- `AssertInvariants` -/
def ExportConfig.assertInvariants (x : ExportConfig Addr) (s : App Addr) : Res Unit :=
  if ∃ broken ∈ x.invariants, broken s = true then goPanic "invariant broken" else .ok ()

/-- the tokens of the validators in one pool, whose status is bonded or is not -/
def StakingState.pooled (s : StakingState Addr) (bonded : Bool) : ℤ :=
  s.validators.sum fun v => if decide (v.status = .bonded) = bonded then v.tokens.getD 0 else 0

/-- `ModuleAccountInvariants` of the staking module: one pool holds the tokens of the bonded validators,
the other those of the rest and what unbonds -/
def moduleAccountsBroken (names : ModuleNames) (s : App Addr) : Bool :=
  decide (s.bank.balance (newModuleAddress names.bondedPool) s.staking.bondDenom
      ≠ s.staking.pooled true ∨
    s.bank.balance (newModuleAddress names.notBondedPool) s.staking.bondDenom
      ≠ s.staking.pooled false + s.staking.unbondingDelegations.sum UnbondingDelegation.balance)

/-- `log.Fatal(err)`: the process ends -/
def fatalOnError {α : Type} (r : Res α) : Res α := r

namespace App

/-! ## the fee distribution -/

/-- commission that cannot be withdrawn is passed over -/
def withdrawAllCommission (cfg : Config Addr) (ctx : Context) (s : App Addr) : Res (App Addr) :=
  s.staking.validators.rows.foldlM
    (fun s val => s.withdrawValidatorCommission cfg ctx val.operatorAddress) s

def withdrawAllRewards (x : ExportConfig Addr) (ctx : Context) (dels : List (Delegation Addr))
    (s : App Addr) : Res (App Addr) :=
  dels.foldlM (fun s del => panicOnError
    (s.withdrawRewards x.cfg x.rules ctx del.delegatorAddress del.validatorAddress)) s

/-- `DeleteAllValidatorSlashEvents` and `DeleteAllValidatorHistoricalRewards` -/
def clearHistory (s : App Addr) : App Addr :=
  { s with distr := { s.distr with slashEvents := .empty, historicalRewards := .empty } }

/-- scraps go to the community pool; the creation hook makes the validator's records anew -/
def reinitializeValidator (s : App Addr) (val : Validator Addr) : Res (App Addr) := do
  let scraps := s.distr.getValidatorOutstandingRewards val.operatorAddress
  let communityPool ← DecCoins.safeAdd s.distr.communityPool scraps
  let v ← deref (s.staking.validators.get val.operatorAddress)
  .ok { s with distr :=
    { s.distr with communityPool := communityPool }.initializeValidator v.operatorAddress }

/-- the hooks `BeforeDelegationCreated` and `AfterDelegationModified` -/
def reinitializeDelegation (rules : RewardRules Addr) (ctx : Context) (s : App Addr)
    (del : Delegation Addr) : Res (App Addr) := do
  let s ← panicOnError (s.beforeDelegationCreated del.validatorAddress)
  panicOnError (s.initializeDelegation rules ctx del.validatorAddress del.delegatorAddress)

def handleFeeDistribution (x : ExportConfig Addr) (ctx : Context) (s : App Addr) :
    Res (App Addr) := do
  let s ← s.withdrawAllCommission x.cfg ctx
  let dels := s.staking.delegations.rows
  let s ← s.withdrawAllRewards x ctx dels
  let s := s.clearHistory
  let ctx := { ctx with blockHeight := 0 }
  let s ← s.staking.validators.rows.foldlM reinitializeValidator s
  dels.foldlM (reinitializeDelegation x.rules ctx) s

end App

/-! ## heights -/

/-- the creation heights of the entries of a redelegation -/
def Redelegation.reset (red : Redelegation Addr) : Redelegation Addr :=
  { red with entries := red.entries.map fun e => { e with creationHeight := 0 } }

/-- the creation heights of the entries of an unbonding delegation -/
def UnbondingDelegation.reset (ubd : UnbondingDelegation Addr) : UnbondingDelegation Addr :=
  { ubd with entries := ubd.entries.map fun e => { e with creationHeight := 0 } }

section
variable [ValAddress Addr]

/-- a validator outside a list of allowed addresses that is not empty -/
def Excluded (jailAllowedAddrs : List String) (op : Addr) : Prop :=
  jailAllowedAddrs ≠ [] ∧ valStr op ∉ jailAllowedAddrs

instance (l : List String) (op : Addr) : Decidable (Excluded l op) :=
  inferInstanceAs (Decidable (_ ∧ _))

def Validator.reset (jailAllowedAddrs : List String) (validator : Validator Addr) :
    Validator Addr :=
  let validator := { validator with unbondingHeight := 0 }
  if Excluded jailAllowedAddrs validator.operatorAddress then { validator with jailed := true }
  else validator

/-- the traversals of the staking store, each of which writes every record back -/
def StakingState.resetHeights (jailAllowedAddrs : List String) (s : StakingState Addr) :
    StakingState Addr :=
  { s with
    redelegations := s.redelegations.rewrite Redelegation.reset
    unbondingDelegations := s.unbondingDelegations.rewrite UnbondingDelegation.reset
    validators := s.validators.rewrite (Validator.reset jailAllowedAddrs) }

end

def ValidatorSigningInfo.reset (info : ValidatorSigningInfo) : ValidatorSigningInfo :=
  { info with startHeight := 0 }

def SlashingState.resetSigningInfos (s : SlashingState Addr) : SlashingState Addr :=
  { s with signingInfos := s.signingInfos.rewrite fun e => (e.1, e.2.reset) }

/-! ## the export -/

section
variable [ValAddress Addr] [LE Addr] [DecidableLE Addr]

def checkAllowedAddr (Addr : Type) [ValAddress Addr] (addr : String) : Res Unit :=
  match (valAddressFromBech32 addr : Except Error Addr) with
  | .ok _ => .ok ()
  | .error e => fatalOnError (.error (.error e))

def prepForZeroHeightGenesis (x : ExportConfig Addr) (ctx : Context)
    (jailAllowedAddrs : List String) (s : App Addr) : Res (App Addr) := do
  let _ ← jailAllowedAddrs.mapM (checkAllowedAddr Addr)
  let _ ← x.assertInvariants s
  let s ← s.handleFeeDistribution x ctx
  let s := { s with staking := s.staking.resetHeights jailAllowedAddrs }
  let r ← fatalOnError (s.applyAndReturnValidatorSetUpdates x.cfg ctx)
  .ok { r.1 with slashing := r.1.slashing.resetSigningInfos }

end

end MeChain
