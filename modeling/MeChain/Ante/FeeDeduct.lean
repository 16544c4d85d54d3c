import MeChain.Bank

/-!
# The fee decorator of the ante handler

`AnteHandle` decides whether a transaction pays, lets the fee checker and the fee granter agree,
splits the fee in four and hands it to the staking keeper.

* `freeGas`            the exemptions: two admin addresses, and what the loop over the messages finds;
* `splitFee`           10, 20 and 30 percent of every coin, rounded down, and the rest;
* `feeOutputs`         who receives the four parts;
* `anteHandle`         the decorator, in front of the next handler.

The keepers are interfaces and may be nil.  `calls` is a ghost: the calls that were made and did not
fail, in order.  The proofs use it to say what happened before `next`.
-/

set_option linter.unusedSectionVars false

namespace MeChain
open Fallible

/-! ## transactions -/

/-- the messages the decorator tells apart -/
inductive Msg where
  | checkIn
  | updateGroupMembers
  | executeContract (contract : String)
  | migrateContract (contract : String)
  | updateAdmin (contract : String)
  | clearAdmin (contract : String)
  | sudoContract (contract : String)
  | other (typeURL : String)
deriving DecidableEq, Repr

structure FeeTx (Addr : Type) where
  msgs : List Msg
  fee : Coins
  gas : UInt64
  feePayer : Addr
  feeGranter : Option Addr
deriving DecidableEq, Repr

/-- a transaction that has a fee, or one that has none -/
inductive Tx (Addr : Type) where
  | feeTx (tx : FeeTx Addr)
  | other (msgs : List Msg)

def Tx.getMsgs {Addr : Type} : Tx Addr → List Msg
  | .feeTx tx => tx.msgs
  | .other msgs => msgs

/-! ## keepers -/

structure Meid where
  account : String
deriving DecidableEq, Repr

structure ContractInfo where
  creator : String
deriving DecidableEq, Repr

/-- a call to a keeper or to the fee checker that did not fail -/
inductive Call (Addr : Type) where
  | txFeeChecker
  | useGrantedFees (granter grantee : Addr) (fee : Coins) (msgs : List Msg)
  | feeToReceivers (inputs outputs : List InOut)
deriving DecidableEq

def Call.isGrant {Addr : Type} : Call Addr → Bool
  | .useGrantedFees .. => true
  | _ => false

/-- the state the ante handler works on; `grants` is the store of the fee-grant keeper -/
structure AnteState (Addr G : Type) [SdkAddress Addr] where
  app : App Addr
  grants : G
  calls : List (Call Addr)

/-- the calls of `StakingKeeper` that the decorator makes -/
structure StakingKeeper (Addr : Type) [SdkAddress Addr] where
  getMeid : App Addr → String → Option Meid
  getValOwnerAddress : App Addr → String → Res String
  getDevOperatorAddress : App Addr → String
  getProposerOwnerAddress : Context → App Addr → Res String
  getGlobalAdminAddress : App Addr → String
  getMeidAdminAddress : App Addr → String
  getGlobalAdminFeePoolAddr : App Addr → Addr
  feeToReceivers : Context → App Addr → List InOut → List InOut → Res (App Addr)

structure FeegrantKeeper (Addr G : Type) where
  useGrantedFees : Context → G → Addr → Addr → Coins → List Msg → Res G

structure ViewKeeper (Addr : Type) [SdkAddress Addr] where
  getContractInfo : App Addr → Addr → Option ContractInfo

structure DeductFeeDecorator (Addr G : Type) [SdkAddress Addr] where
  feegrantKeeper : Option (FeegrantKeeper Addr G)
  stakingKeeper : Option (StakingKeeper Addr)
  txFeeChecker : Context → App Addr → Tx Addr → Res (Coins × ℤ)
  wasmKeeper : Option (ViewKeeper Addr)

variable {Addr G : Type} [SdkAddress Addr] [DecidableEq Addr]

/-! ## the exemptions -/

/-- the two messages for which the loop sets `freeGas` -/
def Msg.exempt : Msg → Bool
  | .checkIn => true
  | .updateGroupMembers => true
  | _ => false

/-- what the loop over the messages does to `freeGas`: its `break` leaves it after one message -/
def freeGasLoop (freeGas : Bool) : List Msg → Bool
  | [] => freeGas
  | msg :: _ => if msg.exempt then true else freeGas

/-! ## the four parts -/

def rate10 : Dec := 100000000000000000
def rate20 : Dec := 200000000000000000
def rate30 : Dec := 300000000000000000

/-- `rate.MulInt(amount).TruncateInt()` -/
def share (rate : Dec) (amount : ℤ) : Res ℤ := do
  let part ← Dec.mulInt rate amount
  Dec.truncateInt part

/-- the four parts of a coin or of a coin list -/
structure FeeParts (α : Type) where
  fee10 : α
  fee20 : α
  fee30 : α
  fee40 : α

/-- one iteration of the split loop -/
def splitCoin (fee : Coins) (f : Coin) : Res (FeeParts Coin) :=
  if f.amount < 10 then goError .insufficientFee s!"fee must greater than 10: {fee.str}"
  else do
    let a10 ← share rate10 f.amount
    let fee10 ← newCoin f.denom a10
    let a20 ← share rate20 f.amount
    let fee20 ← newCoin f.denom a20
    let a30 ← share rate30 f.amount
    let fee30 ← newCoin f.denom a30
    let r ← SdkInt.sub f.amount fee10.amount
    let r ← SdkInt.sub r fee20.amount
    let r ← SdkInt.sub r fee30.amount
    let fee40 ← newCoin f.denom r
    .ok ⟨fee10, fee20, fee30, fee40⟩

def splitFee (fee : Coins) : Res (FeeParts Coins) := do
  let parts ← fee.mapM (splitCoin fee)
  .ok ⟨parts.map FeeParts.fee10, parts.map FeeParts.fee20, parts.map FeeParts.fee30,
    parts.map FeeParts.fee40⟩

/-! ## the receivers -/

/-- the contract a message is about -/
def Msg.contract : Msg → Option String
  | .executeContract c | .migrateContract c | .updateAdmin c | .clearAdmin c | .sudoContract c =>
    some c
  | _ => none

/-- the loop over the messages: whether all are contract messages, and the last contract met -/
def wasmLoop (msgs : List Msg) : Bool × String :=
  msgs.foldl (fun r msg =>
    match msg.contract with
    | some c => (r.1, c)
    | none => (false, r.2)) (true, "")

namespace DeductFeeDecorator

/-- `ParseWasmMsgContractOwner` -/
def parseWasmMsgContractOwner (dfd : DeductFeeDecorator Addr G) (s : App Addr) (tx : Tx Addr) :
    Res (String × Bool) :=
  match wasmLoop tx.getMsgs with
  | (true, contract) =>
    match (accAddressFromBech32 contract : Except Error Addr) with
    | .error _ => .ok ("", false)
    | .ok addr => do
      let wasmKeeper ← deref dfd.wasmKeeper
      let info ← deref (wasmKeeper.getContractInfo s addr)
      .ok (info.creator, true)
  | (false, _) => .ok ("", false)

/-- the owner of the validator the payer belongs to, or of the block's proposer -/
def fee20Address (sk : StakingKeeper Addr) (ctx : Context) (s : App Addr) (deductFeesFrom : Addr) :
    Res String :=
  match sk.getMeid s (SdkAddress.str deductFeesFrom) with
  | some meid => sk.getValOwnerAddress s meid.account
  | none => sk.getProposerOwnerAddress ctx s

/-- the owner of the contract, or the fee pool of the global admin -/
def fee40Address (dfd : DeductFeeDecorator Addr G) (sk : StakingKeeper Addr) (s : App Addr)
    (tx : Tx Addr) : Res String := do
  let r ← dfd.parseWasmMsgContractOwner s tx
  .ok (if r.2 then r.1 else SdkAddress.str (sk.getGlobalAdminFeePoolAddr s))

def feeOutputs (dfd : DeductFeeDecorator Addr G) (sk : StakingKeeper Addr) (ctx : Context)
    (s : App Addr) (tx : Tx Addr) (deductFeesFrom : Addr) (parts : FeeParts Coins) :
    Res (List InOut) := do
  let owner ← fee20Address sk ctx s deductFeesFrom
  let last ← dfd.fee40Address sk s tx
  .ok [⟨sk.getDevOperatorAddress s, parts.fee10⟩, ⟨owner, parts.fee20⟩,
    ⟨SdkAddress.str (sk.getGlobalAdminFeePoolAddr s), parts.fee30⟩, ⟨last, parts.fee40⟩]

/-! ## the handler -/

def notAllowed (feeGranter feePayer : Addr) : String :=
  s!"{SdkAddress.str feeGranter} not allowed to pay fees from {SdkAddress.str feePayer}"

/-- who pays: the granter, if one is set and agrees, otherwise the payer -/
def deductFeesFrom (dfd : DeductFeeDecorator Addr G) (ctx : Context) (s : AnteState Addr G)
    (tx : FeeTx Addr) (fee : Coins) : Res (Addr × AnteState Addr G) :=
  match tx.feeGranter with
  | none => .ok (tx.feePayer, s)
  | some feeGranter =>
    if dfd.stakingKeeper.isNone then goError .invalidRequest "fee grants are not enabled"
    else if feeGranter ≠ tx.feePayer then do
      let feegrantKeeper ← deref dfd.feegrantKeeper
      let grants ← wrap (notAllowed feeGranter tx.feePayer)
        (feegrantKeeper.useGrantedFees ctx s.grants feeGranter tx.feePayer fee tx.msgs)
      .ok (feeGranter, { s with
        grants := grants
        calls := s.calls ++ [.useGrantedFees feeGranter tx.feePayer fee tx.msgs] })
    else .ok (feeGranter, s)

/-- split a non-zero fee and send the parts to their receivers -/
def payFee (dfd : DeductFeeDecorator Addr G) (sk : StakingKeeper Addr) (ctx : Context)
    (s : AnteState Addr G) (tx : FeeTx Addr) (fee : Coins) (fromAddr : Addr) :
    Res (AnteState Addr G) :=
  if ¬ fee.IsValid then goError .insufficientFee s!"invalid fee amount: {fee.str}"
  else do
    let parts ← splitFee fee
    let outputs ← dfd.feeOutputs sk ctx s.app (.feeTx tx) fromAddr parts
    let app ← sk.feeToReceivers ctx s.app [⟨SdkAddress.str fromAddr, fee⟩] outputs
    .ok { s with
      app := app
      calls := s.calls ++ [.feeToReceivers [⟨SdkAddress.str fromAddr, fee⟩] outputs] }

/-- the part of `AnteHandle` that transactions that pay go through -/
def chargeFee (parseCoinsNormalized : String → Res Coins) (dfd : DeductFeeDecorator Addr G)
    (sk : StakingKeeper Addr) (ctx : Context) (s : AnteState Addr G) (tx : FeeTx Addr) :
    Res (ℤ × AnteState Addr G) := do
  let checked ← dfd.txFeeChecker ctx s.app (.feeTx tx)
  let s := { s with calls := s.calls ++ [.txFeeChecker] }
  let fee ← wrap "" (parseCoinsNormalized tx.fee.str)
  let r ← dfd.deductFeesFrom ctx s tx fee
  if fee.IsZero then .ok (checked.2, r.2)
  else do
    let s ← dfd.payFee sk ctx r.2 tx fee r.1
    .ok (checked.2, s)

/-- the payer is the global admin or the meid admin -/
def isAdmin (sk : StakingKeeper Addr) (s : App Addr) (feePayer : Addr) : Bool :=
  SdkAddress.str feePayer = sk.getGlobalAdminAddress s ||
    SdkAddress.str feePayer = sk.getMeidAdminAddress s

end DeductFeeDecorator

abbrev AnteHandler (Addr G : Type) [SdkAddress Addr] :=
  Context → AnteState Addr G → Tx Addr → Bool → Res (Context × AnteState Addr G)

namespace DeductFeeDecorator

def anteHandle (parseCoinsNormalized : String → Res Coins) (dfd : DeductFeeDecorator Addr G)
    (ctx : Context) (s : AnteState Addr G) (tx : Tx Addr) (simulate : Bool)
    (next : AnteHandler Addr G) : Res (Context × AnteState Addr G) :=
  match tx with
  | .other _ => goError .txDecode "Tx must be a FeeTx"
  | .feeTx feeTx =>
    if simulate = false ∧ 0 < ctx.blockHeight ∧ feeTx.gas = 0 then
      goError .invalidGasLimit "must provide positive gas"
    else do
      let sk ← deref dfd.stakingKeeper
      let freeGas := freeGasLoop (isAdmin sk s.app feeTx.feePayer) feeTx.msgs
      if simulate = false ∧ freeGas = false then do
        let r ← chargeFee parseCoinsNormalized dfd sk ctx s feeTx
        next { ctx with priority := r.1 } r.2 tx simulate
      else next { ctx with priority := 0 } s tx simulate

end DeductFeeDecorator

end MeChain
