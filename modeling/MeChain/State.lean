import MeChain.Lib.Table
import MeChain.Sdk

/-!
# The data model: the stores of the application

Every store is a keyed table, keyed as the SDK keys it; the order of its rows is the order in which
an iterator lists it.  The records follow the protobuf messages.

* `Account`        the accounts of x/auth; a module account sits at the address of its name;
* `AuthState`      accounts, the number index, the global account counter;
* `BankState`      balances by address and denomination, supply by denomination;
* `StakingState`   validators with their three indexes, and every record that names a validator;
* `DistrState`     the reward records of x/distribution;
* `App`            all of them.
-/

set_option linter.unusedSectionVars false

namespace MeChain

variable {Addr : Type}

/-! ## accounts -/

/-- the part the vesting accounts have in common -/
structure BaseVesting where
  originalVesting : Coins
  delegatedFree : Coins
  delegatedVesting : Coins
  endTime : ℤ
deriving DecidableEq, Repr

structure Period where
  length : ℤ
  amount : Coins
deriving DecidableEq, Repr

inductive AccountKind where
  | base
  | module (name : String) (permissions : List String)
  | continuousVesting (v : BaseVesting) (startTime : ℤ)
  | delayedVesting (v : BaseVesting)
  | periodicVesting (v : BaseVesting) (startTime : ℤ) (periods : List Period)
  | permanentLocked (v : BaseVesting)
  | interchain (owner : String)
deriving DecidableEq, Repr

/-- An account of x/auth.  `ModuleAccount.Validate` ties the address of a module account to its
name; the field `moduleAddress` keeps that tie. -/
structure Account (Addr : Type) [SdkAddress Addr] where
  address : Addr
  pubKey : Option PubKey
  accountNumber : Nat
  sequence : Nat
  kind : AccountKind
  moduleAddress : ∀ name perms, kind = .module name perms → address = newModuleAddress name

structure AuthState (Addr : Type) [SdkAddress Addr] where
  accounts : Table (Account.address : Account Addr → Addr)
  accountNumbers : Index Nat Addr
  globalAccountNumber : Nat

/-! ## bank -/

structure Balance (Addr : Type) where
  address : Addr
  denom : String
  amount : ℤ
deriving DecidableEq, Repr

def Balance.key (b : Balance Addr) : Addr × String := (b.address, b.denom)

structure BankState (Addr : Type) where
  balances : Table (Balance.key : Balance Addr → Addr × String)
  supply : Table Coin.denom

/-! ## staking -/

inductive BondStatus where
  | unspecified
  | unbonded
  | unbonding
  | bonded
deriving DecidableEq, Repr

/-- A validator.  `tokens` and `stakerShares` may be nil, which the upgrade tests for. -/
structure Validator (Addr : Type) where
  operatorAddress : Addr
  consensusPubkey : Option PubKey
  jailed : Bool
  status : BondStatus
  tokens : Option ℤ
  stakerShares : Option Dec
  moniker : String
  unbondingHeight : ℤ
  ownerAddress : String
deriving DecidableEq, Repr

structure Stake (Addr : Type) where
  stakerAddress : Addr
  validatorAddress : Addr
  shares : Option Dec
  startHeight : ℤ
  rewards : ℤ
  amount : Option ℤ
  unmovable : ℤ
deriving DecidableEq, Repr

def Stake.key (s : Stake Addr) : Addr × Addr := (s.stakerAddress, s.validatorAddress)

structure UnbondingStakeEntry where
  creationHeight : ℤ
  completionTime : ℤ
  initialBalance : ℤ
  balance : ℤ
deriving DecidableEq, Repr

structure UnbondingStake (Addr : Type) where
  stakerAddress : Addr
  validatorAddress : Addr
  entries : List UnbondingStakeEntry
deriving DecidableEq, Repr

def UnbondingStake.key (u : UnbondingStake Addr) : Addr × Addr :=
  (u.stakerAddress, u.validatorAddress)

structure Delegation (Addr : Type) where
  delegatorAddress : Addr
  validatorAddress : Addr
  shares : Dec
  startHeight : ℤ
  amount : ℤ
  unmovable : ℤ
  unMeidAmount : ℤ
deriving DecidableEq, Repr

def Delegation.key (d : Delegation Addr) : Addr × Addr := (d.delegatorAddress, d.validatorAddress)

structure UnbondingDelegationEntry where
  creationHeight : ℤ
  completionTime : ℤ
  initialBalance : ℤ
  balance : ℤ
  unbondingId : Nat
  unbondingOnHoldRefCount : ℤ
deriving DecidableEq, Repr

structure UnbondingDelegation (Addr : Type) where
  delegatorAddress : Addr
  validatorAddress : Addr
  entries : List UnbondingDelegationEntry
deriving DecidableEq, Repr

def UnbondingDelegation.key (u : UnbondingDelegation Addr) : Addr × Addr :=
  (u.delegatorAddress, u.validatorAddress)

structure RedelegationEntry where
  creationHeight : ℤ
  completionTime : ℤ
  initialBalance : ℤ
  sharesDst : Dec
  unbondingId : Nat
  unbondingOnHoldRefCount : ℤ
deriving DecidableEq, Repr

structure Redelegation (Addr : Type) where
  delegatorAddress : Addr
  validatorSrcAddress : Addr
  validatorDstAddress : Addr
  entries : List RedelegationEntry
deriving DecidableEq, Repr

def Redelegation.key (r : Redelegation Addr) : Addr × Addr × Addr :=
  (r.delegatorAddress, r.validatorSrcAddress, r.validatorDstAddress)

structure Region (Addr : Type) where
  regionId : String
  operatorAddress : Addr
deriving DecidableEq, Repr

structure FixedDeposit where
  id : Nat
  account : String
  principal : Coin
deriving DecidableEq, Repr

/-- a slot of the unbonding-validator queue: the validators that mature at one time and height -/
structure QueueSlot (Addr : Type) where
  endTime : ℤ
  endHeight : ℤ
  addresses : List Addr
deriving DecidableEq, Repr

def QueueSlot.key (q : QueueSlot Addr) : ℤ × ℤ := (q.endTime, q.endHeight)

/-- The staking store, with the two parameters of the module that are read.  The power index is keyed
by consensus power and operator address. -/
structure StakingState (Addr : Type) where
  validators : Table (Validator.operatorAddress : Validator Addr → Addr)
  validatorsByConsAddr : Index Addr Addr
  validatorsByPowerIndex : Index (ℤ × Addr) Addr
  lastValidatorPower : Index Addr ℤ
  stakes : Table (Stake.key : Stake Addr → Addr × Addr)
  unbondingStakes : Table (UnbondingStake.key : UnbondingStake Addr → Addr × Addr)
  delegations : Table (Delegation.key : Delegation Addr → Addr × Addr)
  unbondingDelegations : Table (UnbondingDelegation.key : UnbondingDelegation Addr → Addr × Addr)
  redelegations : Table (Redelegation.key : Redelegation Addr → Addr × Addr × Addr)
  regions : Table (Region.regionId : Region Addr → String)
  fixedDeposits : Table FixedDeposit.id
  validatorQueue : Table (QueueSlot.key : QueueSlot Addr → ℤ × ℤ)
  maxValidators : Nat
  bondDenom : String

/-! ## distribution and slashing -/

structure HistoricalRewards where
  cumulativeRewardRatio : DecCoins
  referenceCount : Nat
deriving DecidableEq, Repr

structure CurrentRewards where
  rewards : DecCoins
  period : Nat
deriving DecidableEq, Repr

/-- the period a delegation ended when it was recorded, and its stake in tokens -/
structure DelegatorStartingInfo where
  previousPeriod : Nat
  stake : Dec
  height : ℤ
deriving DecidableEq, Repr

structure ValidatorSlashEvent where
  validatorPeriod : Nat
  fraction : Dec
deriving DecidableEq, Repr

/-- The distribution store.  Starting infos are keyed by validator and delegator, slash events by
validator, height and period. -/
structure DistrState (Addr : Type) where
  outstandingRewards : Index Addr DecCoins
  accumulatedCommission : Index Addr DecCoins
  currentRewards : Index Addr CurrentRewards
  historicalRewards : Index (Addr × Nat) HistoricalRewards
  communityPool : DecCoins
  delegatorStartingInfos : Index (Addr × Addr) DelegatorStartingInfo
  withdrawAddrs : Index Addr Addr
  slashEvents : Index (Addr × ℤ × Nat) ValidatorSlashEvent

structure ValidatorSigningInfo where
  startHeight : ℤ
  indexOffset : ℤ
  jailedUntil : ℤ
  tombstoned : Bool
  missedBlocksCounter : ℤ
deriving DecidableEq, Repr

/-- The slashing store.  Signing infos are keyed by consensus address. -/
structure SlashingState (Addr : Type) where
  addrPubkeyRelation : Index Addr PubKey
  signingInfos : Index Addr ValidatorSigningInfo

structure App (Addr : Type) [SdkAddress Addr] where
  auth : AuthState Addr
  bank : BankState Addr
  staking : StakingState Addr
  distr : DistrState Addr
  slashing : SlashingState Addr

/-! ## the wiring of the application -/

/-- The names of the module accounts, constants of the SDK.  No name occurs twice: the program uses
them as the keys of one map literal. -/
structure ModuleNames where
  feeCollector : String
  distribution : String
  receiveMintReward : String
  treasuryPool : String
  mint : String
  bondedPool : String
  notBondedPool : String
  bondedStakePool : String
  notBondedStakePool : String
  stakePool : String
  meidNFTPool : String
  fixedDepositPrincipalPool : String
  gov : String
  transfer : String
  nft : String
  ibcfee : String
  ica : String
  wasm : String
  distinct : [feeCollector, distribution, receiveMintReward, treasuryPool, mint, bondedPool,
    notBondedPool, bondedStakePool, notBondedStakePool, stakePool, meidNFTPool,
    fixedDepositPrincipalPool, gov, transfer, nft, ibcfee, ica, wasm].Nodup

def minter : String := "minter"
def burner : String := "burner"
def stakingPerm : String := "staking"

/-- `maccPerms`: the module accounts the binary knows, with their permissions -/
def ModuleNames.maccPerms (n : ModuleNames) : List (String × List String) :=
  [(n.feeCollector, []), (n.distribution, []), (n.receiveMintReward, []), (n.treasuryPool, []),
   (n.mint, [minter]), (n.bondedPool, [burner, stakingPerm]),
   (n.notBondedPool, [burner, stakingPerm]), (n.bondedStakePool, [burner, stakingPerm]),
   (n.notBondedStakePool, [burner, stakingPerm]), (n.stakePool, [stakingPerm]),
   (n.meidNFTPool, [minter, burner]), (n.fixedDepositPrincipalPool, []), (n.gov, [burner]),
   (n.transfer, [minter, burner]), (n.nft, []), (n.ibcfee, []), (n.ica, []), (n.wasm, [burner])]

/-- `BlockedAddresses`: every module address of `maccPerms` except that of the gov module -/
def ModuleNames.blockedAddresses (Addr : Type) [SdkAddress Addr] (n : ModuleNames) : List String :=
  (n.maccPerms.map fun p => SdkAddress.str (newModuleAddress p.1 : Addr)).filter
    (fun a => a ≠ SdkAddress.str (newModuleAddress n.gov : Addr))

/-- what the keepers are built with, and the calls of the staking keeper whose code is not here -/
structure Config (Addr : Type) [SdkAddress Addr] where
  names : ModuleNames
  powerReduction : ℤ
  getGlobalAdminAddr : App Addr → Res Addr
  getDevOperatorAddress : App Addr → String
  removeValidatorKeys : StakingState Addr → Addr → StakingState Addr

/-- the part of `sdk.Context` the code and its keepers read; the proposer is the block header's -/
structure Context where
  blockHeight : ℤ
  blockTime : ℤ
  proposerAddress : List UInt8
  isCheckTx : Bool
  minGasPrices : DecCoins
  priority : ℤ

/-! ## the simplest wiring -/

/-- the names of the SDK modules; the chain's own pools are named after their constants -/
def ModuleNames.sdk : ModuleNames where
  feeCollector := "fee_collector"
  distribution := "distribution"
  receiveMintReward := "receive_mint_reward"
  treasuryPool := "treasury_pool"
  mint := "mint"
  bondedPool := "bonded_tokens_pool"
  notBondedPool := "not_bonded_tokens_pool"
  bondedStakePool := "bonded_stake_tokens_pool"
  notBondedStakePool := "not_bonded_stake_tokens_pool"
  stakePool := "stake_tokens_pool"
  meidNFTPool := "meid_nft_pool"
  fixedDepositPrincipalPool := "fixed_deposit_principal_pool"
  gov := "gov"
  transfer := "transfer"
  nft := "nft"
  ibcfee := "feeibc"
  ica := "interchainaccounts"
  wasm := "wasm"
  distinct := by decide

def StakingState.empty : StakingState Addr where
  validators := .empty
  validatorsByConsAddr := .empty
  validatorsByPowerIndex := .empty
  lastValidatorPower := .empty
  stakes := .empty
  unbondingStakes := .empty
  delegations := .empty
  unbondingDelegations := .empty
  redelegations := .empty
  regions := .empty
  fixedDeposits := .empty
  validatorQueue := .empty
  maxValidators := 100
  bondDenom := baseMEDenom

/-- the application before anything happened -/
def App.empty [SdkAddress Addr] : App Addr where
  auth := ⟨.empty, .empty, 0⟩
  bank := ⟨.empty, .empty⟩
  staking := .empty
  distr := ⟨.empty, .empty, .empty, .empty, [], .empty, .empty, .empty⟩
  slashing := ⟨.empty, .empty⟩

/-- a context in which nothing vests and no gas price is asked for -/
def Context.first : Context := ⟨1, 0, [], false, [], 0⟩

end MeChain
