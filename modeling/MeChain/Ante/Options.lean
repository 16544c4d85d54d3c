import MeChain.Ante.Contract
import MeChain.Ante.Units

/-!
# What the constructor of the ante handler guarantees

`NewAnteHandler` asks for five of its options and builds the fee decorator from three others.

* `newAnteHandler_ok`     the options it accepts, and the decorators it chains;
* `HandlesSafely`         no method of a nil keeper is called, and a granter is refused without a
                          fee-grant keeper;
* `Equipped`              the keepers that one transaction needs are there;
* `handlesSafely_iff`     the first exactly for transactions with the second.
-/

set_option linter.unusedSectionVars false

namespace MeChain
open Fallible

/-! ## the constructor -/

structure WasmConfig where
  simulationGasLimit : Option UInt64
deriving DecidableEq, Repr

/-- `K` are the keepers, handlers and keys that other decorators use. -/
structure HandlerOptions (K Addr G : Type) [SdkAddress Addr] where
  accountKeeper : Option K
  bankKeeper : Option K
  extensionOptionChecker : Option K
  feegrantKeeper : Option (FeegrantKeeper Addr G)
  signModeHandler : Option K
  sigGasConsumer : Option K
  txFeeChecker : Option (Context → App Addr → Tx Addr → Res (Coins × ℤ))
  stakingKeeper : Option (StakingKeeper Addr)
  ibcKeeper : Option K
  wasmConfig : Option WasmConfig
  wasmViewKeeper : Option (ViewKeeper Addr)
  txCounterStoreKey : Option K

inductive AnteDecorator (K Addr G : Type) [SdkAddress Addr] where
  | setUpContext
  | limitSimulationGas (gasLimit : Option UInt64)
  | countTX (storeKey : K)
  | extensionOptions (checker : Option K)
  | deductFee (dfd : DeductFeeDecorator Addr G)
  | setPubKey (ak : K)
  | sigGasConsume (ak : K) (sigGasConsumer : Option K)
  | sigVerification (ak signModeHandler : K)
  | incrementSequence (ak : K)
  | redundantRelay (k : Option K)

/-- an option that must not be nil -/
def required {α : Type} (x : Option α) (msg : String) : Res α :=
  match x with
  | some a => .ok a
  | none => goError .logic msg

theorem required_ok {α : Type} {x : Option α} {msg : String} {a : α} :
    required x msg = .ok a ↔ x = some a := by
  cases x with
  | none => simp [required, goError]
  | some b => simp [required]

section
variable {K Addr G : Type} [SdkAddress Addr]

/-- the fee decorator of the chain -/
def HandlerOptions.deductFee (options : HandlerOptions K Addr G) : DeductFeeDecorator Addr G :=
  newDeductFeeDecorator options.feegrantKeeper options.stakingKeeper options.txFeeChecker
    options.wasmViewKeeper

/-- `NewAnteHandler`: the chained decorators.  The default for `SigGasConsumer` is not passed on. -/
def newAnteHandler (options : HandlerOptions K Addr G) : Res (List (AnteDecorator K Addr G)) := do
  let accountKeeper ← required options.accountKeeper "account keeper is required for AnteHandler"
  let _ ← required options.bankKeeper "bank keeper is required for AnteHandler"
  let signModeHandler ← required options.signModeHandler
    "sign mode handler is required for ante builder"
  let wasmConfig ← required options.wasmConfig "wasm config is required for ante builder"
  let txCounterStoreKey ← required options.txCounterStoreKey
    "tx counter key is required for ante builder"
  .ok [.setUpContext, .limitSimulationGas wasmConfig.simulationGasLimit,
    .countTX txCounterStoreKey, .extensionOptions options.extensionOptionChecker,
    .deductFee options.deductFee, .setPubKey accountKeeper,
    .sigGasConsume accountKeeper options.sigGasConsumer,
    .sigVerification accountKeeper signModeHandler, .incrementSequence accountKeeper,
    .redundantRelay options.ibcKeeper]

/-- **What the constructor asks for**: five options, none of them a keeper of the fee decorator. -/
theorem newAnteHandler_ok {options : HandlerOptions K Addr G} {ds : List (AnteDecorator K Addr G)} :
    newAnteHandler options = .ok ds ↔ ∃ ak bk handler config key,
      options.accountKeeper = some ak ∧ options.bankKeeper = some bk ∧
      options.signModeHandler = some handler ∧ options.wasmConfig = some config ∧
      options.txCounterStoreKey = some key ∧
      ds = [.setUpContext, .limitSimulationGas config.simulationGasLimit, .countTX key,
        .extensionOptions options.extensionOptionChecker, .deductFee options.deductFee,
        .setPubKey ak, .sigGasConsume ak options.sigGasConsumer, .sigVerification ak handler,
        .incrementSequence ak, .redundantRelay options.ibcKeeper] := by
  constructor
  · intro h
    obtain ⟨ak, hak, h⟩ := bind_eq_ok.mp h
    obtain ⟨bk, hbk, h⟩ := bind_eq_ok.mp h
    obtain ⟨handler, hhandler, h⟩ := bind_eq_ok.mp h
    obtain ⟨config, hconfig, h⟩ := bind_eq_ok.mp h
    obtain ⟨key, hkey, h⟩ := bind_eq_ok.mp h
    exact ⟨ak, bk, handler, config, key, required_ok.mp hak, required_ok.mp hbk,
      required_ok.mp hhandler, required_ok.mp hconfig, required_ok.mp hkey, (Except.ok.inj h).symm⟩
  · intro h
    obtain ⟨ak, bk, handler, config, key, hak, hbk, hhandler, hconfig, hkey, rfl⟩ := h
    exact bind_eq_ok.mpr ⟨ak, required_ok.mpr hak, bind_eq_ok.mpr ⟨bk, required_ok.mpr hbk,
      bind_eq_ok.mpr ⟨handler, required_ok.mpr hhandler, bind_eq_ok.mpr ⟨config,
        required_ok.mpr hconfig, bind_eq_ok.mpr ⟨key, required_ok.mpr hkey, rfl⟩⟩⟩⟩⟩

theorem mem_newAnteHandler {options : HandlerOptions K Addr G} {ds : List (AnteDecorator K Addr G)}
    {dfd : DeductFeeDecorator Addr G} (h : newAnteHandler options = .ok ds) :
    .deductFee dfd ∈ ds ↔ dfd = options.deductFee := by
  obtain ⟨_, _, _, _, _, _, _, _, _, _, rfl⟩ := newAnteHandler_ok.mp h
  simp

end

namespace DeductFeeDecorator

variable {Addr G : Type} [SdkAddress Addr] [DecidableEq Addr]

/-! ## nil keepers -/

/-- the same decorator, with other keepers in place of those that are nil -/
def standIn (dfd : DeductFeeDecorator Addr G) (fk : FeegrantKeeper Addr G) (sk : StakingKeeper Addr)
    (wk : ViewKeeper Addr) : DeductFeeDecorator Addr G :=
  { dfd with
    feegrantKeeper := some (dfd.feegrantKeeper.getD fk)
    stakingKeeper := some (dfd.stakingKeeper.getD sk)
    wasmKeeper := some (dfd.wasmKeeper.getD wk) }

/-- the same decorator, with another end of its payments -/
def paying (dfd : DeductFeeDecorator Addr G)
    (pay : Context → App Addr → List InOut → List InOut → Res (App Addr)) :
    DeductFeeDecorator Addr G :=
  { dfd with stakingKeeper := dfd.stakingKeeper.map fun sk => { sk with feeToReceivers := pay } }

/-- No method of a nil keeper is called: keepers in their place would make no difference, however
the payment, which is the last call, ends. -/
def NilFree (parse : String → Res Coins) (dfd : DeductFeeDecorator Addr G) (ctx : Context)
    (s : AnteState Addr G) (tx : Tx Addr) (simulate : Bool) : Prop :=
  ∀ pay fk sk wk next,
    anteHandle parse ((dfd.paying pay).standIn fk sk wk) ctx s tx simulate next
      = anteHandle parse (dfd.paying pay) ctx s tx simulate next

/-- the transaction pays, its fee passes the check and is converted to `fee` -/
def Checked (parse : String → Res Coins) (dfd : DeductFeeDecorator Addr G) (sk : StakingKeeper Addr)
    (ctx : Context) (s : AnteState Addr G) (tx : FeeTx Addr) (simulate : Bool) (fee : Coins) : Prop :=
  simulate = false ∧ freeGasLoop (isAdmin sk s.app tx.feePayer) tx.msgs = false ∧
    (∃ checked, dfd.txFeeChecker ctx s.app (.feeTx tx) = .ok checked) ∧
    parse tx.fee.str = .ok fee

/-- the fee granter is somebody else than the payer -/
def AsksGranter (tx : FeeTx Addr) : Prop := ∃ granter, tx.feeGranter = some granter ∧
  granter ≠ tx.feePayer

/-- The call is safe: no nil keeper is used, and without a fee-grant keeper a granter is refused. -/
structure HandlesSafely (parse : String → Res Coins) (dfd : DeductFeeDecorator Addr G)
    (ctx : Context) (s : AnteState Addr G) (tx : Tx Addr) (simulate : Bool) : Prop where
  nilFree : NilFree parse dfd ctx s tx simulate
  refuses : dfd.feegrantKeeper = none → ∀ t sk fee, tx = .feeTx t → dfd.stakingKeeper = some sk →
    ¬ GasRejected ctx t → Checked parse dfd sk ctx s t simulate fee → AsksGranter t →
    ∀ next, anteHandle parse dfd ctx s tx simulate next
      = goError .invalidRequest "fee grants are not enabled"

/-- the granter, if there is one to ask, agrees -/
def Agreed (dfd : DeductFeeDecorator Addr G) (ctx : Context) (s : AnteState Addr G) (tx : FeeTx Addr)
    (fee : Coins) : Prop :=
  ∀ granter, tx.feeGranter = some granter → granter ≠ tx.feePayer → ∃ fk grants,
    dfd.feegrantKeeper = some fk ∧
      fk.useGrantedFees ctx s.grants granter tx.feePayer fee tx.msgs = .ok grants

/-- the staking keeper finds the owner of the payer's validator, or of the proposer if the payer has
no meid -/
def FindsOwner (sk : StakingKeeper Addr) (ctx : Context) (app : App Addr) (payer : Addr) : Prop :=
  (∃ meid owner, sk.getMeid app (SdkAddress.str payer) = some meid ∧
    sk.getValOwnerAddress app meid.account = .ok owner) ∨
  sk.getMeid app (SdkAddress.str payer) = none ∧
    ∃ owner, sk.getProposerOwnerAddress ctx app = .ok owner

/-- the fee is not zero and can be split, and the receiver of the second part is found -/
def Payable (sk : StakingKeeper Addr) (ctx : Context) (s : AnteState Addr G) (tx : FeeTx Addr)
    (fee : Coins) : Prop :=
  ¬ fee.IsZero ∧ fee.IsValid ∧ (∀ f ∈ fee, 10 ≤ f.amount) ∧
    FindsOwner sk ctx s.app (tx.feeGranter.getD tx.feePayer)

/-- the amounts of parsed coins are integers of the SDK -/
def ParsesIntegers (parse : String → Res Coins) : Prop :=
  ∀ arg fee, parse arg = .ok fee → ∀ f ∈ fee, SdkInt.Fits f.amount

/-- **The keepers that a transaction needs**, as far as it gets. -/
structure Equipped (parse : String → Res Coins) (dfd : DeductFeeDecorator Addr G) (ctx : Context)
    (s : AnteState Addr G) (tx : FeeTx Addr) (simulate : Bool) : Prop where
  staking : dfd.stakingKeeper ≠ none
  feegrant : ∀ sk fee, dfd.stakingKeeper = some sk → Checked parse dfd sk ctx s tx simulate fee →
    AsksGranter tx → dfd.feegrantKeeper ≠ none
  wasm : ∀ sk fee, dfd.stakingKeeper = some sk → Checked parse dfd sk ctx s tx simulate fee →
    Agreed dfd ctx s tx fee → Payable sk ctx s tx fee → LooksUp Addr tx.msgs → dfd.wasmKeeper ≠ none

/-! ## runs that have what they need -/

section
variable {parse : String → Res Coins} {dfd : DeductFeeDecorator Addr G} {sk : StakingKeeper Addr}
  {ctx : Context} {s : AnteState Addr G} {tx : FeeTx Addr} {fee : Coins} {payer : Addr}
  {simulate : Bool}

theorem parse_standIn {app : App Addr} {t : Tx Addr} (fk : FeegrantKeeper Addr G)
    (sk : StakingKeeper Addr) (wk : ViewKeeper Addr)
    (h : LooksUp Addr t.getMsgs → dfd.wasmKeeper ≠ none) :
    (dfd.standIn fk sk wk).parseWasmMsgContractOwner app t = dfd.parseWasmMsgContractOwner app t := by
  by_cases hlook : LooksUp Addr t.getMsgs
  · obtain ⟨hall, addr, haddr⟩ := hlook
    obtain ⟨wk', hwk⟩ := Option.ne_none_iff_exists'.mp (h ⟨hall, addr, haddr⟩)
    rw [parse_lookup rfl hall haddr, parse_lookup rfl hall haddr]
    show deref (some (dfd.wasmKeeper.getD wk)) >>= _ = _
    rw [hwk, Option.getD_some]
  · rw [parse_free hlook, parse_free hlook]

theorem staking_isNone (hsk : dfd.stakingKeeper = some sk) : dfd.stakingKeeper.isNone = false := by
  rw [hsk, Option.isNone_some]

theorem deductFeesFrom_asks {granter : Addr} (hsk : dfd.stakingKeeper.isNone = false)
    (hg : tx.feeGranter = some granter) (hne : granter ≠ tx.feePayer) :
    dfd.deductFeesFrom ctx s tx fee = deref dfd.feegrantKeeper >>= fun fk =>
      wrap (notAllowed granter tx.feePayer)
        (fk.useGrantedFees ctx s.grants granter tx.feePayer fee tx.msgs) >>= fun grants =>
      .ok (granter, { s with
        grants := grants
        calls := s.calls ++ [.useGrantedFees granter tx.feePayer fee tx.msgs] }) := by
  unfold deductFeesFrom
  rw [hg]
  dsimp only
  rw [hsk, if_neg Bool.false_ne_true, if_pos hne]

theorem deductFeesFrom_free (hsk : dfd.stakingKeeper.isNone = false) (h : ¬ AsksGranter tx) :
    dfd.deductFeesFrom ctx s tx fee = .ok (tx.feeGranter.getD tx.feePayer, s) := by
  unfold deductFeesFrom
  cases hg : tx.feeGranter with
  | none => rfl
  | some granter =>
    have hself : granter = tx.feePayer := by
      by_contra hne
      exact h ⟨granter, hg, hne⟩
    dsimp only
    rw [hsk, if_neg Bool.false_ne_true, if_neg (not_not.mpr hself), Option.getD_some]

theorem deductFeesFrom_standIn (fk : FeegrantKeeper Addr G) (sk' : StakingKeeper Addr)
    (wk : ViewKeeper Addr) (hsk : dfd.stakingKeeper = some sk)
    (h : AsksGranter tx → dfd.feegrantKeeper ≠ none) :
    (dfd.standIn fk sk' wk).deductFeesFrom ctx s tx fee = dfd.deductFeesFrom ctx s tx fee := by
  have hsome := staking_isNone hsk
  by_cases hasks : AsksGranter tx
  · obtain ⟨fk', hfk⟩ := Option.ne_none_iff_exists'.mp (h hasks)
    obtain ⟨granter, hg, hne⟩ := hasks
    rw [deductFeesFrom_asks hsome hg hne, deductFeesFrom_asks rfl hg hne]
    show deref (some (dfd.feegrantKeeper.getD fk)) >>= _ = _
    rw [hfk, Option.getD_some]
  · rw [deductFeesFrom_free hsome hasks, deductFeesFrom_free rfl hasks]

theorem agreed_iff (calls : List (Call Addr)) (hsk : dfd.stakingKeeper.isNone = false) :
    Agreed dfd ctx s tx fee ↔
      ∃ r, dfd.deductFeesFrom ctx { s with calls := calls } tx fee = .ok r := by
  by_cases hasks : AsksGranter tx
  · obtain ⟨granter, hg, hne⟩ := hasks
    rw [deductFeesFrom_asks hsk hg hne]
    constructor
    · intro h
      obtain ⟨fk, grants, hfk, hgrants⟩ := h granter hg hne
      exact ⟨_, bind_eq_ok.mpr ⟨fk, deref_ok.mpr hfk,
        bind_eq_ok.mpr ⟨grants, wrap_ok.mpr hgrants, rfl⟩⟩⟩
    · intro h granter' hg' _
      obtain rfl : granter = granter' := Option.some.inj (hg.symm.trans hg')
      obtain ⟨r, hr⟩ := h
      obtain ⟨fk, hfk, hr⟩ := bind_eq_ok.mp hr
      obtain ⟨grants, hgrants, _⟩ := bind_eq_ok.mp hr
      exact ⟨fk, grants, deref_ok.mp hfk, wrap_ok.mp hgrants⟩
  · rw [deductFeesFrom_free hsk hasks]
    exact ⟨fun _ => ⟨_, rfl⟩, fun _ granter hg hne => absurd ⟨granter, hg, hne⟩ hasks⟩

theorem findsOwner_iff {app : App Addr} :
    FindsOwner sk ctx app payer ↔ ∃ owner, fee20Address sk ctx app payer = .ok owner := by
  unfold FindsOwner fee20Address
  cases sk.getMeid app (SdkAddress.str payer) with
  | none => simp
  | some meid => simp

theorem payFee_standIn (fk : FeegrantKeeper Addr G) (sk' : StakingKeeper Addr) (wk : ViewKeeper Addr)
    (h : fee.IsValid → (∃ parts, splitFee fee = .ok parts) →
      (∃ owner, fee20Address sk ctx s.app payer = .ok owner) →
      LooksUp Addr tx.msgs → dfd.wasmKeeper ≠ none) :
    (dfd.standIn fk sk' wk).payFee sk ctx s tx fee payer = dfd.payFee sk ctx s tx fee payer := by
  unfold payFee
  by_cases hv : fee.IsValid
  · rw [if_neg (not_not.mpr hv), if_neg (not_not.mpr hv)]
    cases hp : splitFee fee with
    | error e => rfl
    | ok parts =>
      rw [ok_bind, ok_bind]
      unfold feeOutputs
      cases ho : fee20Address sk ctx s.app payer with
      | error e => rfl
      | ok owner =>
        rw [ok_bind, ok_bind]
        unfold fee40Address
        rw [parse_standIn (t := .feeTx tx) fk sk' wk (h hv ⟨parts, hp⟩ ⟨owner, ho⟩)]
  · rw [if_pos hv, if_pos hv]

theorem chargeFee_standIn (fk : FeegrantKeeper Addr G) (sk' : StakingKeeper Addr)
    (wk : ViewKeeper Addr) (hsk : dfd.stakingKeeper = some sk)
    (hpays : simulate = false ∧ freeGasLoop (isAdmin sk s.app tx.feePayer) tx.msgs = false)
    (h : Equipped parse dfd ctx s tx simulate) :
    chargeFee parse (dfd.standIn fk sk' wk) sk ctx s tx = chargeFee parse dfd sk ctx s tx := by
  unfold chargeFee
  show dfd.txFeeChecker ctx s.app (.feeTx tx) >>= _ = _
  cases hc : dfd.txFeeChecker ctx s.app (.feeTx tx) with
  | error e => rfl
  | ok checked =>
    rw [ok_bind, ok_bind]
    cases hf : wrap "" (parse tx.fee.str) with
    | error e => rfl
    | ok fee =>
      have hchecked : Checked parse dfd sk ctx s tx simulate fee :=
        ⟨hpays.1, hpays.2, ⟨checked, hc⟩, wrap_ok.mp hf⟩
      dsimp only
      rw [ok_bind, ok_bind, deductFeesFrom_standIn fk sk' wk hsk (h.feegrant sk fee hsk hchecked)]
      cases hd : dfd.deductFeesFrom ctx { s with calls := s.calls ++ [.txFeeChecker] } tx fee with
      | error e => rfl
      | ok r =>
        rw [ok_bind, ok_bind]
        by_cases hz : fee.IsZero
        · rw [if_pos hz, if_pos hz]
        · obtain ⟨hpayer, happ, _⟩ := deductFeesFrom_ok hd
          rw [if_neg hz, if_neg hz, payFee_standIn fk sk' wk (fun hv hparts howner => ?_)]
          rw [hpayer, happ] at howner
          obtain ⟨parts, hparts⟩ := hparts
          have hagreed := (agreed_iff _ (staking_isNone hsk)).mpr ⟨r, hd⟩
          exact h.wasm sk fee hsk hchecked hagreed
            ⟨hz, hv, ten_le_of_splitFee hparts, findsOwner_iff.mpr howner⟩

/-- **A run that has the keepers it needs** is the same with keepers for the others. -/
theorem anteHandle_standIn {t : Tx Addr} (fk : FeegrantKeeper Addr G) (sk' : StakingKeeper Addr)
    (wk : ViewKeeper Addr) (next : AnteHandler Addr G)
    (h : ∀ tx, t = .feeTx tx → ¬ (simulate = false ∧ GasRejected ctx tx) →
      Equipped parse dfd ctx s tx simulate) :
    anteHandle parse (dfd.standIn fk sk' wk) ctx s t simulate next
      = anteHandle parse dfd ctx s t simulate next := by
  cases t with
  | other msgs => rfl
  | feeTx tx =>
    unfold anteHandle
    dsimp only
    by_cases hg : simulate = false ∧ 0 < ctx.blockHeight ∧ tx.gas = 0
    · rw [if_pos hg, if_pos hg]
    · rw [if_neg hg, if_neg hg]
      have hequipped := h tx rfl hg
      obtain ⟨sk, hsk⟩ := Option.ne_none_iff_exists'.mp hequipped.staking
      show deref (some (dfd.stakingKeeper.getD sk')) >>= _ = _
      rw [hsk, Option.getD_some]
      show (if _ then _ else _) = (if _ then _ else _)
      by_cases hpays : simulate = false ∧ freeGasLoop (isAdmin sk s.app tx.feePayer) tx.msgs = false
      · rw [if_pos hpays, if_pos hpays, chargeFee_standIn fk sk' wk hsk hpays hequipped]
      · rw [if_neg hpays, if_neg hpays]

end

/-! ## runs that miss a keeper -/

section
variable {parse : String → Res Coins} {dfd : DeductFeeDecorator Addr G} {sk : StakingKeeper Addr}
  {ctx : Context} {s : AnteState Addr G} {tx : FeeTx Addr} {fee : Coins} {simulate : Bool}
  {next : AnteHandler Addr G} {e : Abort}

theorem anteHandle_charge_error (hsk : dfd.stakingKeeper = some sk)
    (hg : ¬ (simulate = false ∧ GasRejected ctx tx))
    (hpays : simulate = false ∧ freeGasLoop (isAdmin sk s.app tx.feePayer) tx.msgs = false)
    (hcharge : chargeFee parse dfd sk ctx s tx = .error e) :
    anteHandle parse dfd ctx s (.feeTx tx) simulate next = .error e := by
  unfold anteHandle
  refine (if_neg hg).trans ?_
  rw [hsk]
  show (if _ then _ else _) = _
  rw [if_pos hpays, hcharge]
  rfl

/-- **An abort of the granter** is that of the handler. -/
theorem anteHandle_granter_error (hsk : dfd.stakingKeeper = some sk)
    (hg : ¬ (simulate = false ∧ GasRejected ctx tx))
    (hc : Checked parse dfd sk ctx s tx simulate fee)
    (hd : dfd.deductFeesFrom ctx { s with calls := s.calls ++ [.txFeeChecker] } tx fee = .error e) :
    anteHandle parse dfd ctx s (.feeTx tx) simulate next = .error e := by
  obtain ⟨hsim, hfree, ⟨checked, hchecked⟩, hparse⟩ := hc
  refine anteHandle_charge_error hsk hg ⟨hsim, hfree⟩ ?_
  unfold chargeFee
  rw [hchecked, ok_bind, wrap_ok.mpr hparse, ok_bind, hd]
  rfl

/-- **An abort of the payment** is that of the handler. -/
theorem anteHandle_payment_error {r : Addr × AnteState Addr G} (hsk : dfd.stakingKeeper = some sk)
    (hg : ¬ (simulate = false ∧ GasRejected ctx tx))
    (hc : Checked parse dfd sk ctx s tx simulate fee)
    (hd : dfd.deductFeesFrom ctx { s with calls := s.calls ++ [.txFeeChecker] } tx fee = .ok r)
    (hz : ¬ fee.IsZero) (hpay : dfd.payFee sk ctx r.2 tx fee r.1 = .error e) :
    anteHandle parse dfd ctx s (.feeTx tx) simulate next = .error e := by
  obtain ⟨hsim, hfree, ⟨checked, hchecked⟩, hparse⟩ := hc
  refine anteHandle_charge_error hsk hg ⟨hsim, hfree⟩ ?_
  unfold chargeFee
  rw [hchecked, ok_bind, wrap_ok.mpr hparse, ok_bind, hd, ok_bind, if_neg hz, hpay]
  rfl

theorem payFee_last_error (h : Payable sk ctx s tx fee) (hf : ∀ f ∈ fee, SdkInt.Fits f.amount)
    (hlast : dfd.fee40Address sk s.app (.feeTx tx) = .error e) :
    dfd.payFee sk ctx s tx fee (tx.feeGranter.getD tx.feePayer) = .error e := by
  obtain ⟨_, hv, h10, howner⟩ := h
  obtain ⟨owner, ho⟩ := findsOwner_iff.mp howner
  unfold payFee feeOutputs
  rw [if_neg (not_not.mpr hv), splitFee_eq hv (fun f h => ⟨h10 f h, hf f h⟩), ok_bind, ho, ok_bind,
    hlast]
  rfl

theorem payFee_send_error {last : String} (h : Payable sk ctx s tx fee)
    (hf : ∀ f ∈ fee, SdkInt.Fits f.amount) (hlast : dfd.fee40Address sk s.app (.feeTx tx) = .ok last)
    (hpay : ∀ inputs outputs, sk.feeToReceivers ctx s.app inputs outputs = .error e) :
    dfd.payFee sk ctx s tx fee (tx.feeGranter.getD tx.feePayer) = .error e := by
  obtain ⟨_, hv, h10, howner⟩ := h
  obtain ⟨owner, ho⟩ := findsOwner_iff.mp howner
  unfold payFee feeOutputs
  rw [if_neg (not_not.mpr hv), splitFee_eq hv (fun f h => ⟨h10 f h, hf f h⟩), ok_bind, ho, ok_bind,
    hlast, ok_bind, ok_bind, hpay]
  rfl

end

/-! ## keepers to stand in -/

/-- the payer is the admin -/
def adminStaking (payer : Addr) : StakingKeeper Addr where
  getMeid _ _ := none
  getValOwnerAddress _ _ := goError .other "meid not found"
  getDevOperatorAddress _ := ""
  getProposerOwnerAddress _ _ := .ok ""
  getGlobalAdminAddress _ := SdkAddress.str payer
  getMeidAdminAddress _ := ""
  getGlobalAdminFeePoolAddr _ := payer
  feeToReceivers _ app _ _ := .ok app

/-- nothing is granted -/
def noGrants : FeegrantKeeper Addr G := ⟨fun _ _ _ _ _ _ => goError .other "fee-grant not found"⟩

/-- every address is a contract -/
def allContracts : ViewKeeper Addr := ⟨fun _ _ => some ⟨""⟩⟩

/-- payments are refused -/
def noPayments : Context → App Addr → List InOut → List InOut → Res (App Addr) :=
  fun _ _ _ _ => goError .insufficientFunds ""

def nilPointer : Abort := .panic "invalid memory address or nil pointer dereference"

section
variable {parse : String → Res Coins} {dfd : DeductFeeDecorator Addr G} {sk : StakingKeeper Addr}
  {ctx : Context} {s : AnteState Addr G} {tx : FeeTx Addr} {fee : Coins} {simulate : Bool}

theorem paying_stakingKeeper (hsk : dfd.stakingKeeper = some sk)
    (pay : Context → App Addr → List InOut → List InOut → Res (App Addr)) :
    (dfd.paying pay).stakingKeeper = some { sk with feeToReceivers := pay } := by
  unfold DeductFeeDecorator.paying
  rw [hsk]
  rfl

theorem standIn_stakingKeeper (hsk : dfd.stakingKeeper = some sk) (fk : FeegrantKeeper Addr G)
    (sk' : StakingKeeper Addr) (wk : ViewKeeper Addr) :
    (dfd.standIn fk sk' wk).stakingKeeper = some sk := by
  unfold standIn
  rw [hsk]
  rfl

theorem deductFeesFrom_paying (hsk : dfd.stakingKeeper = some sk)
    (pay : Context → App Addr → List InOut → List InOut → Res (App Addr)) :
    (dfd.paying pay).deductFeesFrom ctx s tx fee = dfd.deductFeesFrom ctx s tx fee := by
  have hsome := staking_isNone hsk
  have hsome' := staking_isNone (paying_stakingKeeper hsk pay)
  by_cases hasks : AsksGranter tx
  · obtain ⟨granter, hg, hne⟩ := hasks
    rw [deductFeesFrom_asks hsome hg hne, deductFeesFrom_asks hsome' hg hne]
    rfl
  · rw [deductFeesFrom_free hsome hasks, deductFeesFrom_free hsome' hasks]

theorem Equipped.paying (h : Equipped parse dfd ctx s tx simulate)
    (pay : Context → App Addr → List InOut → List InOut → Res (App Addr)) :
    Equipped parse (dfd.paying pay) ctx s tx simulate := by
  obtain ⟨sk, hsk⟩ := Option.ne_none_iff_exists'.mp h.staking
  have hpaying := paying_stakingKeeper hsk pay
  constructor
  · rw [hpaying]
    exact Option.some_ne_none _
  · intro sk' fee hsk' hc hasks
    rw [hpaying, Option.some.injEq] at hsk'
    subst hsk'
    exact h.feegrant sk fee hsk hc hasks
  · intro sk' fee hsk' hc hagreed hpayable hlook
    rw [hpaying, Option.some.injEq] at hsk'
    subst hsk'
    exact h.wasm sk fee hsk hc hagreed hpayable hlook

/-- **The staking keeper is needed** by whoever passes the gas guard. -/
theorem NilFree.staking (h : NilFree parse dfd ctx s (.feeTx tx) simulate)
    (hg : ¬ (simulate = false ∧ GasRejected ctx tx)) : dfd.stakingKeeper ≠ none := by
  intro hnone
  have hsame := h noPayments noGrants (adminStaking tx.feePayer) allContracts probe
  have hadmin : isAdmin (adminStaking tx.feePayer) s.app tx.feePayer = true := by
    simp [isAdmin, adminStaking]
  have hpaying : (dfd.paying noPayments).stakingKeeper = none := congrArg (Option.map _) hnone
  have hok : anteHandle parse ((dfd.paying noPayments).standIn noGrants (adminStaking tx.feePayer)
      allContracts) ctx s (.feeTx tx) simulate probe = .ok ({ ctx with priority := 0 }, s) := by
    unfold anteHandle
    refine (if_neg hg).trans ?_
    show deref (some ((dfd.paying noPayments).stakingKeeper.getD (adminStaking tx.feePayer))) >>= _ = _
    rw [hpaying, Option.getD_none]
    show (if _ then _ else _) = _
    rw [hadmin, freeGasLoop_true, if_neg (by simp)]
    rfl
  have hnil : anteHandle parse (dfd.paying noPayments) ctx s (.feeTx tx) simulate probe
      = .error nilPointer := by
    unfold anteHandle
    refine (if_neg hg).trans ?_
    rw [hpaying]
    rfl
  rw [hok, hnil] at hsame
  cases hsame

/-- **The fee-grant keeper is needed** where a granter is asked. -/
theorem NilFree.feegrant (h : NilFree parse dfd ctx s (.feeTx tx) simulate)
    (hg : ¬ (simulate = false ∧ GasRejected ctx tx)) (hsk : dfd.stakingKeeper = some sk)
    (hc : Checked parse dfd sk ctx s tx simulate fee) (hasks : AsksGranter tx) :
    dfd.feegrantKeeper ≠ none := by
  intro hnone
  have hsame := h noPayments noGrants sk allContracts probe
  obtain ⟨granter, hgranter, hne⟩ := hasks
  have hpaying := paying_stakingKeeper hsk noPayments
  have hstands := standIn_stakingKeeper hpaying noGrants sk allContracts
  have hnil : (dfd.paying noPayments).deductFeesFrom ctx
      { s with calls := s.calls ++ [.txFeeChecker] } tx fee = .error nilPointer := by
    rw [deductFeesFrom_asks (by rw [hpaying]; rfl) hgranter hne]
    show deref dfd.feegrantKeeper >>= _ = _
    rw [hnone]
    rfl
  have hno : ((dfd.paying noPayments).standIn noGrants sk allContracts).deductFeesFrom ctx
      { s with calls := s.calls ++ [.txFeeChecker] } tx fee = .error (.error ⟨.other,
        notAllowed granter tx.feePayer ++ ": " ++ "fee-grant not found"⟩) := by
    rw [deductFeesFrom_asks (by rw [hstands]; rfl) hgranter hne]
    show deref (some (dfd.feegrantKeeper.getD noGrants)) >>= _ = _
    rw [hnone]
    rfl
  rw [anteHandle_granter_error hpaying hg hc hnil, anteHandle_granter_error hstands hg hc hno] at hsame
  cases hsame

/-- **The contract keeper is needed** for a look-up. -/
theorem NilFree.wasm (h : NilFree parse dfd ctx s (.feeTx tx) simulate)
    (hints : ParsesIntegers parse)
    (hg : ¬ (simulate = false ∧ GasRejected ctx tx)) (hsk : dfd.stakingKeeper = some sk)
    (hc : Checked parse dfd sk ctx s tx simulate fee) (hagreed : Agreed dfd ctx s tx fee)
    (hpayable : Payable sk ctx s tx fee) (hlook : LooksUp Addr tx.msgs) : dfd.wasmKeeper ≠ none := by
  intro hnone
  have hsame := h noPayments noGrants sk allContracts probe
  have hf := hints _ fee hc.2.2.2
  obtain ⟨⟨payer, s1⟩, hr⟩ :=
    (agreed_iff (s.calls ++ [.txFeeChecker]) (staking_isNone hsk)).mp hagreed
  obtain ⟨hall, addr, haddr⟩ := hlook
  obtain ⟨rfl, happ, _, hgrant⟩ := deductFeesFrom_ok hr
  have hpaying := paying_stakingKeeper hsk noPayments
  have hstands := standIn_stakingKeeper hpaying noGrants sk allContracts
  have hasked : AsksGranter tx → (dfd.paying noPayments).feegrantKeeper ≠ none := by
    intro hasks
    obtain ⟨granter, hgranter, hne⟩ := hasks
    rcases hgrant with ⟨hself, _⟩ | ⟨_, fk, hfk, _⟩
    · rw [hgranter] at hself
      exact absurd hself hne
    · exact fun hno => Option.some_ne_none fk (hfk.symm.trans hno)
  have hr' : (dfd.paying noPayments).deductFeesFrom ctx
      { s with calls := s.calls ++ [.txFeeChecker] } tx fee = .ok (_, s1) :=
    (deductFeesFrom_paying hsk noPayments).trans hr
  have hr'' : ((dfd.paying noPayments).standIn noGrants sk allContracts).deductFeesFrom ctx
      { s with calls := s.calls ++ [.txFeeChecker] } tx fee = .ok (_, s1) :=
    (deductFeesFrom_standIn noGrants sk allContracts hpaying hasked).trans hr'
  have hpayable' : Payable { sk with feeToReceivers := noPayments } ctx s1 tx fee := by
    unfold Payable
    rw [happ]
    exact hpayable
  have hnil : (dfd.paying noPayments).fee40Address { sk with feeToReceivers := noPayments } s1.app
      (.feeTx tx) = .error nilPointer := by
    unfold fee40Address
    rw [parse_lookup (t := .feeTx tx) rfl hall haddr]
    show (deref dfd.wasmKeeper >>= _) >>= _ = _
    rw [hnone]
    rfl
  have hlast : ((dfd.paying noPayments).standIn noGrants sk allContracts).fee40Address
      { sk with feeToReceivers := noPayments } s1.app (.feeTx tx) = .ok "" := by
    unfold fee40Address
    rw [parse_lookup (t := .feeTx tx) rfl hall haddr]
    show (deref (some (dfd.wasmKeeper.getD allContracts)) >>= _) >>= _ = _
    rw [hnone]
    rfl
  rw [anteHandle_payment_error hpaying hg hc hr' hpayable.1 (payFee_last_error hpayable' hf hnil),
    anteHandle_payment_error hstands hg hc hr'' hpayable.1
      (payFee_send_error hpayable' hf hlast (fun _ _ => rfl))] at hsame
  cases hsame

/-- **What safety needs, and that this is enough.** -/
theorem nilFree_iff {t : Tx Addr} (hints : ParsesIntegers parse) : NilFree parse dfd ctx s t simulate ↔
    ∀ tx, t = .feeTx tx → ¬ (simulate = false ∧ GasRejected ctx tx) →
      Equipped parse dfd ctx s tx simulate := by
  constructor
  · intro h tx ht hg
    subst ht
    exact {
      staking := h.staking hg
      feegrant := fun _ _ hsk hc hasks => h.feegrant hg hsk hc hasks
      wasm := fun _ _ hsk hc hagreed hpayable hlook => h.wasm hints hg hsk hc hagreed hpayable hlook }
  · intro h pay fk sk wk next
    exact anteHandle_standIn fk sk wk next (fun tx ht hg => (h tx ht hg).paying pay)

/-- **When accepted options are safe**: for a call whose transaction has the keepers it needs. -/
theorem handlesSafely_iff {K : Type} {options : HandlerOptions K Addr G}
    {ds : List (AnteDecorator K Addr G)} {t : Tx Addr} (hints : ParsesIntegers parse)
    (h : newAnteHandler options = .ok ds) :
    (∀ dfd, .deductFee dfd ∈ ds → HandlesSafely parse dfd ctx s t simulate) ↔
      ∀ tx, t = .feeTx tx → ¬ (simulate = false ∧ GasRejected ctx tx) →
        Equipped parse options.deductFee ctx s tx simulate := by
  have hone : ∀ dfd, .deductFee dfd ∈ ds ↔ dfd = options.deductFee :=
    fun _ => mem_newAnteHandler h
  constructor
  · intro hsafe
    exact (nilFree_iff hints).mp (hsafe _ ((hone _).mpr rfl)).nilFree
  · intro hequipped dfd hdfd
    rw [(hone dfd).mp hdfd]
    refine ⟨(nilFree_iff hints).mpr hequipped, fun hnone tx sk fee ht hsk hg hc hasks => ?_⟩
    -- a granter is asked only where there is a keeper to ask
    exact absurd hnone ((hequipped tx ht (fun hrej => hg hrej.2)).feegrant sk fee hsk hc hasks)

end

/-! ## two sets of options -/

/-- every option is set -/
def allOptions : HandlerOptions Unit String Unit where
  accountKeeper := some ()
  bankKeeper := some ()
  extensionOptionChecker := some ()
  feegrantKeeper := some noGrants
  signModeHandler := some ()
  sigGasConsumer := some ()
  txFeeChecker := some fun _ _ _ => .ok ([], 1)
  stakingKeeper := some fixedStaking
  ibcKeeper := some ()
  wasmConfig := some ⟨none⟩
  wasmViewKeeper := some (contractKeeper String)
  txCounterStoreKey := some ()

/-- every option but the fee-grant keeper -/
def noGrantOptions : HandlerOptions Unit String Unit := { allOptions with feegrantKeeper := none }

/-- a transfer that the granter `me1bob` is asked to pay for -/
def grantedTx : FeeTx String :=
  { aliceTx [.other "/cosmos.bank.v1beta1.MsgSend"] with feeGranter := some "me1bob" }

theorem parsesIntegers_hundred : ParsesIntegers parseHundred := by
  intro arg fee h
  unfold parseHundred at h
  split_ifs at h
  · cases h
    decide
  · cases h

theorem handlesSafely_all : ∃ ds, newAnteHandler allOptions = .ok ds ∧
    ∀ dfd, .deductFee dfd ∈ ds →
      HandlesSafely parseHundred dfd .first aliceFunded (.feeTx grantedTx) false := by
  obtain ⟨ds, hds⟩ := exists_ok_of_isOk (x := newAnteHandler allOptions) rfl
  refine ⟨ds, hds, (handlesSafely_iff parsesIntegers_hundred hds).mpr (fun tx _ _ => ?_)⟩
  exact ⟨Option.some_ne_none _, fun _ _ _ _ _ => Option.some_ne_none _,
    fun _ _ _ _ _ _ _ => Option.some_ne_none _⟩

/-- Options without a fee-grant keeper are accepted, and a granter is asked through nil. -/
theorem handlesSafely_ungranted_false :
    isPanic (anteHandle parseHundred noGrantOptions.deductFee .first aliceFunded
      (.feeTx grantedTx) false probe) = true ∧
    ¬ ∀ (options : HandlerOptions Unit String Unit) (ds : List (AnteDecorator Unit String Unit)),
      newAnteHandler options = .ok ds → ∀ dfd, .deductFee dfd ∈ ds →
        HandlesSafely parseHundred dfd .first aliceFunded (.feeTx grantedTx) false := by
  have hpanic : isPanic (anteHandle parseHundred noGrantOptions.deductFee .first aliceFunded
      (.feeTx grantedTx) false probe) = true := by decide +kernel
  refine ⟨hpanic, fun hall => ?_⟩
  obtain ⟨ds, hds⟩ := exists_ok_of_isOk (x := newAnteHandler noGrantOptions) rfl
  have hsafe := hall noGrantOptions ds hds _ ((mem_newAnteHandler hds).mpr rfl)
  have hchecked : Checked parseHundred noGrantOptions.deductFee fixedStaking .first aliceFunded
      grantedTx false [⟨"umec", 100⟩] := ⟨rfl, by decide, ⟨_, rfl⟩, by decide +kernel⟩
  have herror := hsafe.refuses rfl grantedTx fixedStaking _ rfl rfl (by decide) hchecked
    ⟨"me1bob", rfl, by decide⟩ probe
  rw [herror] at hpanic
  cases hpanic

end DeductFeeDecorator

end MeChain
