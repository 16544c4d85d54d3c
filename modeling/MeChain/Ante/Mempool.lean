import MeChain.Ante.Charge
import MeChain.Ante.Units
import MeChain.Vesting

/-!
# From the mempool to the block

`CheckTx` runs the fee decorator on a transaction before it is let into the mempool, `DeliverTx` runs
it again in a block.  In between other transactions were delivered and their messages ran, so the block
has another state.

* `inputOutputCoins_again`  a payment that was possible is possible where the sender can spend no less;
* `Honours`                 what the two states have to agree on;
* `mempool_delivers`        what the mempool let in, the block lets in, with the same charge.

The converse does not hold: only `CheckTx` looks at the minimum gas prices.
-/

set_option linter.unusedSectionVars false

namespace MeChain
open Fallible

variable {Addr G : Type} [SdkAddress Addr] [DecidableEq Addr]

/-! ## payments -/

namespace App
variable {ctx later : Context} {s s' t : App Addr} {payer : Addr} {fee : Coins}
  {outputs : List InOut}

theorem bech32_str (a : Addr) : bech32 (SdkAddress.str a) = .ok a := by
  rw [bech32, SdkAddress.fromBech32_str]

/-- what a multi-send has checked of its inputs and outputs -/
theorem validateInputsOutputs_basic {inputs : List InOut}
    (h : validateInputsOutputs Addr inputs outputs = .ok ()) :
    ∀ io ∈ inputs ++ outputs, (io.coins.IsValid ∧ io.coins ≠ []) ∧
      ∃ a : Addr, bech32 io.address = .ok a := by
  obtain ⟨ins, hins, h⟩ := bind_eq_ok.mp h
  obtain ⟨outs, houts, _⟩ := bind_eq_ok.mp h
  have hbasic : ∀ (l : List InOut) us, l.mapM (validateBasic Addr) = .ok us → ∀ io ∈ l,
      (io.coins.IsValid ∧ io.coins ≠ []) ∧ ∃ a : Addr, bech32 io.address = .ok a := by
    intro l us hl io hio
    obtain ⟨u, hu⟩ := mapM_ok_mem hl hio
    obtain ⟨a, ha, hu⟩ := bind_eq_ok.mp hu
    obtain ⟨hv, _⟩ := guard_eq_ok.mp hu
    rw [not_or, not_not] at hv
    exact ⟨hv, a, ha⟩
  intro io hio
  rcases List.mem_append.mp hio with hio | hio
  · exact hbasic inputs ins hins io hio
  · exact hbasic outputs outs houts io hio

/-- **A payment that was possible** is possible where the sender can spend no less. -/
theorem inputOutputCoins_again (hw : t.bank.WellFormed) (hroom : ∀ d, SdkInt.Fits (t.bank.total d))
    (hfunds : ∀ d, s.spendableCoins ctx payer d ≤ t.spendableCoins later payer d)
    (h : inputOutputCoins ctx s [⟨SdkAddress.str payer, fee⟩] outputs = .ok s') :
    ∃ t', inputOutputCoins later t [⟨SdkAddress.str payer, fee⟩] outputs = .ok t' := by
  obtain ⟨⟨⟩, hvalidate, h⟩ := bind_eq_ok.mp h
  obtain ⟨u, hin, _⟩ := bind_eq_ok.mp h
  have hbasic := validateInputsOutputs_basic hvalidate
  obtain ⟨⟨hv, hne⟩, _⟩ := hbasic ⟨SdkAddress.str payer, fee⟩ (by simp)
  obtain ⟨w, hsub, _⟩ := foldlM_cons_ok.mp hin
  obtain ⟨a, ha, hsub⟩ := bind_eq_ok.mp hsub
  obtain ⟨b, hb, _⟩ := bind_eq_ok.mp hsub
  rw [bech32_str] at ha
  cases ha
  refine inputOutputCoins_total hw hroom hv hne (fun c hc => ?_)
    (fun io hio => hbasic io (List.mem_append_right _ hio)) (fun d => ?_)
  · exact (BankState.subUnlockedCoins_spendable hb c hc).trans (hfunds c.denom)
  · rw [← validateInputsOutputs_ok hvalidate d, ioTotal_cons]
    exact add_zero _

end App

/-! ## one transaction -/

theorem decoded_unique {l : List InOut} {r r' : List (Addr × Coins)} (h : App.Decoded l r)
    (h' : App.Decoded l r') : r = r' := by
  induction h generalizing r' with
  | nil => cases h'; rfl
  | @cons io p l r hp _ ih =>
    cases h' with
    | @cons _ p' _ r' hp' hr' =>
      have haddr : p.1 = p'.1 := Except.ok.inj (hp.1.symm.trans hp'.1)
      rw [Prod.ext haddr (hp.2.trans hp'.2.symm), ih hr']

namespace DeductFeeDecorator
variable {parse : String → Res Coins} {dfd : DeductFeeDecorator Addr G} {sk : StakingKeeper Addr}
  {ctx later : Context} {s s' t : AnteState Addr G} {tx : FeeTx Addr} {p : ℤ}

/-- a block that can hold what was checked: not earlier, and without the minimum gas prices -/
structure Delivers (ctx later : Context) : Prop where
  height : 0 < ctx.blockHeight
  time : ctx.blockTime ≤ later.blockTime
  unchecked : later.isCheckTx = false

/-- **What the two states have to agree on**, for a transaction checked on `s` and delivered on `t`:
the keepers name the same receivers, the grant is still there, and the payer, in the same account, has
no less. -/
structure Honours (dfd : DeductFeeDecorator Addr G) (sk : StakingKeeper Addr) (ctx later : Context)
    (s t : AnteState Addr G) (tx : FeeTx Addr) : Prop where
  admin : isAdmin sk t.app tx.feePayer = isAdmin sk s.app tx.feePayer
  devOperator : sk.getDevOperatorAddress t.app = sk.getDevOperatorAddress s.app
  feePool : sk.getGlobalAdminFeePoolAddr t.app = sk.getGlobalAdminFeePoolAddr s.app
  owner : ∀ owner, ValidatorOwner sk ctx s.app (tx.feeGranter.getD tx.feePayer) owner →
    ValidatorOwner sk later t.app (tx.feeGranter.getD tx.feePayer) owner
  last : ∀ last, dfd.LastReceiver sk s.app tx.msgs last → dfd.LastReceiver sk t.app tx.msgs last
  grant : ∀ fk granter, dfd.feegrantKeeper = some fk → tx.feeGranter = some granter →
    granter ≠ tx.feePayer → ∀ fee g,
      fk.useGrantedFees ctx s.grants granter tx.feePayer fee tx.msgs = .ok g →
        ∃ g', fk.useGrantedFees later t.grants granter tx.feePayer fee tx.msgs = .ok g'
  balance : ∀ d, s.app.bank.balance (tx.feeGranter.getD tx.feePayer) d
    ≤ t.app.bank.balance (tx.feeGranter.getD tx.feePayer) d
  kind : t.app.auth.kindAt (tx.feeGranter.getD tx.feePayer)
    = s.app.auth.kindAt (tx.feeGranter.getD tx.feePayer)
  vests : ∀ k, s.app.auth.kindAt (tx.feeGranter.getD tx.feePayer) = some k → k.VestsSoundly
  bank : t.app.bank.WellFormed
  room : ∀ d, SdkInt.Fits (t.app.bank.total d)

theorem Honours.spendable (h : Honours dfd sk ctx later s t tx) (hctx : Delivers ctx later)
    (d : String) : s.app.spendableCoins ctx (tx.feeGranter.getD tx.feePayer) d
      ≤ t.app.spendableCoins later (tx.feeGranter.getD tx.feePayer) d :=
  sub_le_sub (h.balance d) (App.lockedCoins_later h.kind h.vests hctx.time d)

theorem checkTxFee_later (hlater : later.isCheckTx = false) {t : Tx Addr} {r : Coins × ℤ}
    (h : checkTxFeeWithValidatorMinGasPrices ctx t = .ok r) :
    checkTxFeeWithValidatorMinGasPrices later t = .ok r := by
  cases t with
  | other msgs => cases h
  | feeTx t =>
    obtain ⟨_, _, h⟩ := bind_eq_ok.mp h
    have hskip : checkMinGasPrices later t.fee t.gas = .ok () :=
      if_neg (fun hc => by rw [hlater] at hc; cases hc.1)
    exact bind_eq_ok.mpr ⟨(), hskip, h⟩

theorem deductFeesFrom_again (h : Honours dfd sk ctx later s t tx) {calls : List (Call Addr)}
    {fee : Coins} {r : Addr × AnteState Addr G}
    (hr : dfd.deductFeesFrom ctx { s with calls := calls } tx fee = .ok r)
    (calls' : List (Call Addr)) :
    ∃ u, dfd.deductFeesFrom later { t with calls := calls' } tx fee = .ok (r.1, u) ∧
      u.app = t.app := by
  unfold deductFeesFrom at hr ⊢
  cases hg : tx.feeGranter with
  | none =>
    simp only [hg] at hr ⊢
    cases hr
    exact ⟨_, rfl, rfl⟩
  | some granter =>
    simp only [hg] at hr ⊢
    obtain ⟨hsome, hr⟩ := guard_eq_ok.mp hr
    rw [if_neg hsome]
    by_cases hne : granter ≠ tx.feePayer
    · rw [if_pos hne] at hr ⊢
      obtain ⟨fk, hfk, hr⟩ := bind_eq_ok.mp hr
      obtain ⟨grants, hgrants, hr⟩ := bind_eq_ok.mp hr
      cases hr
      obtain ⟨g', hheld⟩ := h.grant fk granter (deref_ok.mp hfk) hg hne _ _ (wrap_ok.mp hgrants)
      exact ⟨_, bind_eq_ok.mpr ⟨fk, hfk, bind_eq_ok.mpr ⟨g', wrap_ok.mpr hheld, rfl⟩⟩, rfl⟩
    · rw [if_neg hne] at hr ⊢
      cases hr
      exact ⟨_, rfl, rfl⟩

theorem feeOutputs_again (h : Honours dfd sk ctx later s t tx) {parts : FeeParts Coins}
    {outputs : List InOut}
    (ho : dfd.feeOutputs sk ctx s.app (.feeTx tx) (tx.feeGranter.getD tx.feePayer) parts
      = .ok outputs) :
    dfd.feeOutputs sk later t.app (.feeTx tx) (tx.feeGranter.getD tx.feePayer) parts
      = .ok outputs := by
  obtain ⟨owner, howner, ho⟩ := bind_eq_ok.mp ho
  obtain ⟨last, hlast, ho⟩ := bind_eq_ok.mp ho
  have howner' := fee20Address_ok.mpr (h.owner owner (fee20Address_ok.mp howner))
  have hlast' := fee40Address_ok.mpr (h.last last (fee40Address_ok.mp hlast))
  unfold feeOutputs
  rw [howner', ok_bind, hlast', ok_bind, h.devOperator, h.feePool]
  exact ho

/-- **A transaction that pays** pays again, the same receivers. -/
theorem chargeFee_again (hrecv : sk.feeToReceivers = App.inputOutputCoins)
    (hchecker : dfd.txFeeChecker = fun ctx _ t => checkTxFeeWithValidatorMinGasPrices ctx t)
    (hctx : Delivers ctx later) (h : Honours dfd sk ctx later s t tx)
    (hpays : chargeFee parse dfd sk ctx s tx = .ok (p, s')) :
    ∃ t' c, chargeFee parse dfd sk later t tx = .ok (p, t') ∧
      c.payer = tx.feeGranter.getD tx.feePayer ∧ BankCharged s.app s'.app c ∧
      BankCharged t.app t'.app c := by
  obtain ⟨checked, fee, payer, s1, hcheck, hfee, hfrom, hpay⟩ := chargeFee_ok hpays
  rw [hchecker] at hcheck
  have hcheck' : dfd.txFeeChecker later t.app (.feeTx tx) = .ok (checked, p) := by
    rw [hchecker]
    exact checkTxFee_later hctx.unchecked hcheck
  obtain ⟨t1, hfrom', happ'⟩ :=
    deductFeesFrom_again h hfrom (t.calls ++ [.txFeeChecker])
  obtain ⟨rfl, happ, _, _⟩ := deductFeesFrom_ok hfrom
  unfold chargeFee
  rw [hcheck', ok_bind, wrap_ok.mpr hfee, ok_bind, hfrom', ok_bind]
  rcases hpay with ⟨hz, rfl⟩ | ⟨hz, hpay⟩
  · rw [if_pos hz]
    refine ⟨t1, ⟨_, fee, []⟩, rfl, rfl, ?_, ?_⟩
    · rw [happ]
      exact bankCharged_zero _ _ hz
    · rw [happ']
      exact bankCharged_zero _ _ hz
  · obtain ⟨hv, parts, outputs, app, hparts, houtputs, hsent, rfl⟩ := payFee_ok hpay
    rw [hrecv, happ] at hsent
    rw [happ] at houtputs
    obtain ⟨app', hsent'⟩ :=
      App.inputOutputCoins_again h.bank h.room (h.spendable hctx) hsent
    obtain ⟨outs, hdec, hcharged⟩ := bankCharged_of_send hsent
    obtain ⟨outs', hdec', hcharged'⟩ := bankCharged_of_send hsent'
    obtain rfl := decoded_unique hdec hdec'
    have hpaid : dfd.payFee sk later t1 tx fee (tx.feeGranter.getD tx.feePayer)
        = .ok { t1 with
            app := app'
            calls := t1.calls ++ [.feeToReceivers
              [⟨SdkAddress.str (tx.feeGranter.getD tx.feePayer), fee⟩] outputs] } := by
      unfold payFee
      rw [if_neg (not_not.mpr hv), hparts, ok_bind, happ', feeOutputs_again h houtputs, ok_bind,
        hrecv, hsent', ok_bind]
    rw [if_neg hz, hpaid, ok_bind]
    exact ⟨_, _, rfl, rfl, hcharged, hcharged'⟩

/-- **From the mempool to the block.**  What `CheckTx` let through is let through by a block at the same
or a later time, whatever was delivered in between, as long as the state of the block honours it: with
the same priority, and with the same charge to the balances. -/
theorem mempool_delivers (hsk : dfd.stakingKeeper = some sk)
    (hrecv : sk.feeToReceivers = App.inputOutputCoins)
    (hchecker : dfd.txFeeChecker = fun ctx _ t => checkTxFeeWithValidatorMinGasPrices ctx t)
    (hctx : Delivers ctx later) (hhonours : Honours dfd sk ctx later s t tx)
    (h : ReachesNext parse dfd ctx s tx false { ctx with priority := p } s') :
    ∃ t' c, ReachesNext parse dfd later t tx false { later with priority := p } t' ∧
      c.payer = tx.feeGranter.getD tx.feePayer ∧ BankCharged s.app s'.app c ∧
      BankCharged t.app t'.app c := by
  obtain ⟨sk', hsk', hgas, h⟩ := reachesNext_iff.mp h
  obtain rfl : sk = sk' := Option.some.inj (hsk.symm.trans hsk')
  have hgas' : ¬ GasRejected later tx := fun hr => hgas ⟨hctx.height, hr.2⟩
  by_cases hfree : freeGasLoop (isAdmin sk s.app tx.feePayer) tx.msgs = true
  · rw [if_pos hfree] at h
    obtain ⟨hctx', rfl⟩ := h
    have hp : p = 0 := congrArg Context.priority hctx'
    have hzero : Coins.IsZero [] := by decide
    refine ⟨t, ⟨_, [], []⟩, reachesNext_iff.mpr ⟨sk, hsk, hgas', ?_⟩, rfl,
      bankCharged_zero _ _ hzero, bankCharged_zero _ _ hzero⟩
    rw [hhonours.admin, if_pos hfree, hp]
    exact ⟨rfl, rfl⟩
  · rw [if_neg hfree] at h
    obtain ⟨⟨p', s1⟩, hcharge, hctx', rfl⟩ := h
    obtain rfl : p = p' := congrArg Context.priority hctx'
    obtain ⟨t', c, hcharge', hpayer, hcharged⟩ :=
      chargeFee_again hrecv hchecker hctx hhonours hcharge
    refine ⟨t', c, reachesNext_iff.mpr ⟨sk, hsk, hgas', ?_⟩, hpayer, hcharged⟩
    rw [hhonours.admin, if_neg hfree]
    exact ⟨(p, t'), hcharge', rfl, rfl⟩

/-! ## one transfer -/

/-- the decorator with the chain's own fee checker -/
def checkedDecorator : DeductFeeDecorator String Unit :=
  newDeductFeeDecorator none (some fixedStaking) none none

/-- a node that asks for 0.0004 umec a unit of gas -/
def pricedContext : Context := { Context.first with
  isCheckTx := true
  minGasPrices := [⟨"umec", 400000000000000⟩] }

/-- a later block, of another proposer -/
def laterBlock : Context := { Context.first with
  blockHeight := 2
  blockTime := 6
  proposerAddress := [7] }

def transferTx : FeeTx String := aliceTx [.other "/cosmos.bank.v1beta1.MsgSend"]

/-- alice was sent 200 umec in between, and bob has some as well -/
def aliceRicher : AnteState String Unit := { aliceFunded with
  app := { App.empty with
    bank := ⟨(Table.empty.put ⟨"me1bob", "umec", 300⟩).put ⟨"me1alice", "umec", 700⟩,
      Table.empty.put ⟨"umec", 1000⟩⟩ } }

theorem aliceRicher_wellFormed : aliceRicher.app.bank.WellFormed := by
  refine ⟨by decide, fun d => ?_⟩
  unfold BankState.supplyOf
  show SdkInt.Fits ((Table.empty.put _).valueAt _ d)
  rw [Table.valueAt_put]
  split
  · decide
  · exact Nat.two_pow_pos _

theorem aliceRicher_honours :
    checkedDecorator.Honours fixedStaking pricedContext laterBlock aliceFunded aliceRicher
      transferTx where
  admin := rfl
  devOperator := rfl
  feePool := rfl
  owner _ h := ⟨h.member, h.stranger⟩
  last _ h := by
    refine ⟨fun addr hall haddr => ?_, h.noContract⟩
    obtain ⟨_, _, hwk, _⟩ := h.contract addr hall haddr
    cases hwk
  grant fk granter hfk := by cases hfk
  balance d := by
    by_cases hd : d = "umec"
    · subst hd
      decide
    · have hnone : aliceFunded.app.bank.balance "me1alice" d = 0 := by
        by_contra hne
        obtain ⟨r, hr, _, rfl⟩ := BankState.exists_row_of_balance hne
        rw [List.mem_singleton.mp hr] at hd
        exact hd rfl
      exact hnone.trans_le (aliceRicher_wellFormed.nonneg "me1alice" d)
  kind := rfl
  vests k hk := by cases hk
  bank := aliceRicher_wellFormed
  room d := by
    by_cases hd : d = "umec"
    · subst hd
      decide
    · have hzero : aliceRicher.app.bank.total d = 0 := by
        refine Table.sum_zero _ (fun r hr => if_neg (fun he => hd ?_))
        have hdenom : ∀ r ∈ aliceRicher.app.bank.balances.rows, r.denom = "umec" := by decide
        exact he.symm.trans (hdenom r hr)
      rw [hzero]
      exact Nat.two_pow_pos _

theorem mempool_delivers_transfer : ∃ p t' c,
    ReachesNext parseHundred checkedDecorator laterBlock aliceRicher transferTx false
      { laterBlock with priority := p } t' ∧
    BankCharged aliceRicher.app t'.app c ∧ c.payer = "me1alice" := by
  obtain ⟨⟨ctx', s'⟩, hchecked⟩ := exists_ok_of_isOk (x := anteHandle parseHundred checkedDecorator
    pricedContext aliceFunded (.feeTx transferTx) false probe) (by decide +kernel)
  have hnext : ∃ p, ctx' = { pricedContext with priority := p } := by
    obtain ⟨sk, _, _, hnext⟩ := reachesNext_iff.mp hchecked
    split at hnext
    · exact ⟨0, hnext.1⟩
    · obtain ⟨r, _, hctx', _⟩ := hnext
      exact ⟨r.1, hctx'⟩
  obtain ⟨p, rfl⟩ := hnext
  obtain ⟨t', c, hdelivered, hpayer, _, hcharged⟩ := mempool_delivers rfl rfl rfl
    ⟨by decide, by decide, rfl⟩ aliceRicher_honours hchecked
  exact ⟨p, t', c, hdelivered, hcharged, hpayer⟩

end DeductFeeDecorator

end MeChain
