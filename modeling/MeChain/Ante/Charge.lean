import MeChain.Ante.Contract

/-!
# What a charged transaction does to the bank

* `splitFee_total`            the four parts of a fee add up to the fee;
* `fee20Address_ok`, `fee40Address_ok`  the two receivers that are looked up, in the keepers' answers;
* `payFee_charges`            one payment: who is debited, who is credited, what stays;
* `Charged`                   the same for a whole transaction, with the call to the granter;
* `History`                   a sequence of transactions with the charge of each;
* `feeCharge_conserves`       every charged transaction is `Charged`, and over any sequence the
                              balances change by the charges alone.

The receivers and the payer may coincide in any way: a balance changes by the sum of what its
address pays and receives.
-/

set_option linter.unusedSectionVars false

namespace MeChain
open Fallible

/-! ## the split -/

theorem splitCoin_ok {fee : Coins} {f : Coin} {p : FeeParts Coin} (h : splitCoin fee f = .ok p) :
    (p.fee10.denom = f.denom ∧ p.fee20.denom = f.denom ∧ p.fee30.denom = f.denom ∧
      p.fee40.denom = f.denom) ∧
    p.fee10.amount + p.fee20.amount + p.fee30.amount + p.fee40.amount = f.amount := by
  unfold splitCoin at h
  obtain ⟨_, h⟩ := guard_eq_ok.mp h
  obtain ⟨a10, _, h⟩ := bind_eq_ok.mp h
  obtain ⟨c10, h10, h⟩ := bind_eq_ok.mp h
  obtain ⟨a20, _, h⟩ := bind_eq_ok.mp h
  obtain ⟨c20, h20, h⟩ := bind_eq_ok.mp h
  obtain ⟨a30, _, h⟩ := bind_eq_ok.mp h
  obtain ⟨c30, h30, h⟩ := bind_eq_ok.mp h
  obtain ⟨r1, hr1, h⟩ := bind_eq_ok.mp h
  obtain ⟨r2, hr2, h⟩ := bind_eq_ok.mp h
  obtain ⟨r3, hr3, h⟩ := bind_eq_ok.mp h
  obtain ⟨c40, h40, h⟩ := bind_eq_ok.mp h
  cases h
  rw [(newCoin_ok.mp h10).2] at hr1
  rw [(newCoin_ok.mp h20).2] at hr2
  rw [(newCoin_ok.mp h30).2] at hr3
  rw [(newCoin_ok.mp h10).2, (newCoin_ok.mp h20).2, (newCoin_ok.mp h30).2, (newCoin_ok.mp h40).2]
  refine ⟨⟨rfl, rfl, rfl, rfl⟩, ?_⟩
  have e1 := (SdkInt.sub_ok.mp hr1).2
  have e2 := (SdkInt.sub_ok.mp hr2).2
  have e3 := (SdkInt.sub_ok.mp hr3).2
  dsimp only at *
  omega

theorem splitParts_total {fee l : Coins} {parts : List (FeeParts Coin)}
    (h : List.Forall₂ (fun f p => splitCoin fee f = .ok p) l parts) (d : String) :
    Coins.amountOf (parts.map FeeParts.fee10) d + Coins.amountOf (parts.map FeeParts.fee20) d
      + Coins.amountOf (parts.map FeeParts.fee30) d + Coins.amountOf (parts.map FeeParts.fee40) d
      = l.amountOf d := by
  induction h with
  | nil => rfl
  | cons hp _ ih =>
    obtain ⟨⟨d1, d2, d3, d4⟩, hs⟩ := splitCoin_ok hp
    simp only [List.map_cons, Coins.amountOf_cons, d1, d2, d3, d4]
    split <;> omega

/-- **The split loses nothing**: in every denomination the four parts add up to the fee. -/
theorem splitFee_total {fee : Coins} {p : FeeParts Coins} (h : splitFee fee = .ok p) (d : String) :
    p.fee10.amountOf d + p.fee20.amountOf d + p.fee30.amountOf d + p.fee40.amountOf d
      = fee.amountOf d := by
  obtain ⟨parts, hp, h⟩ := bind_eq_ok.mp h
  cases h
  exact splitParts_total (mapM_ok hp) d

/-! ## one transaction -/

variable {Addr G : Type} [SdkAddress Addr] [DecidableEq Addr]

/-- what one transaction paid and to whom -/
structure Charge (Addr : Type) where
  payer : Addr
  fee : Coins
  outputs : List (Addr × Coins)

/-- what a charge changes at one address -/
def Charge.effect (c : Charge Addr) (x : Addr) (d : String) : ℤ :=
  (if x = c.payer then - c.fee.amountOf d else 0)
    + (c.outputs.map fun o => if x = o.1 then o.2.amountOf d else 0).sum

namespace DeductFeeDecorator

/-- the owner of the validator of the payer's meid, or of the proposer for a payer without a meid -/
structure ValidatorOwner (sk : StakingKeeper Addr) (ctx : Context) (s : App Addr) (payer : Addr)
    (owner : String) : Prop where
  member : ∀ meid, sk.getMeid s (SdkAddress.str payer) = some meid →
    sk.getValOwnerAddress s meid.account = .ok owner
  stranger : sk.getMeid s (SdkAddress.str payer) = none →
    sk.getProposerOwnerAddress ctx s = .ok owner

/-- the creator of the contract that a transaction of contract messages is last about, or the fee
pool of the global admin -/
structure LastReceiver (dfd : DeductFeeDecorator Addr G) (sk : StakingKeeper Addr) (s : App Addr)
    (msgs : List Msg) (last : String) : Prop where
  contract : ∀ addr, OnlyContracts msgs → accAddressFromBech32 (lastContract msgs) = .ok addr →
    ∃ wk info, dfd.wasmKeeper = some wk ∧ wk.getContractInfo s addr = some info ∧
      last = info.creator
  noContract : ¬ LooksUp Addr msgs → last = SdkAddress.str (sk.getGlobalAdminFeePoolAddr s)

/-- the four receivers, under the addresses the keepers report -/
def Receivers (dfd : DeductFeeDecorator Addr G) (sk : StakingKeeper Addr) (ctx : Context)
    (s : App Addr) (tx : FeeTx Addr) (c : Charge Addr) : Prop :=
  ∃ parts owner last, splitFee c.fee = .ok parts ∧ ValidatorOwner sk ctx s c.payer owner ∧
    dfd.LastReceiver sk s tx.msgs last ∧
    App.Decoded [⟨sk.getDevOperatorAddress s, parts.fee10⟩, ⟨owner, parts.fee20⟩,
      ⟨SdkAddress.str (sk.getGlobalAdminFeePoolAddr s), parts.fee30⟩, ⟨last, parts.fee40⟩] c.outputs

/-- the balances changed by a charge, the supply and the sum of balances did not -/
structure BankCharged (s s' : App Addr) (c : Charge Addr) : Prop where
  balance : ∀ x d, s'.bank.balance x d = s.bank.balance x d + c.effect x d
  supply : ∀ d, s'.bank.supplyOf d = s.bank.supplyOf d
  total : ∀ d, s'.bank.total d = s.bank.total d

/-- **A charged transaction.** -/
structure Charged (parse : String → Res Coins) (dfd : DeductFeeDecorator Addr G)
    (sk : StakingKeeper Addr) (ctx : Context) (s : AnteState Addr G) (tx : FeeTx Addr)
    (s' : AnteState Addr G) (c : Charge Addr) : Prop where
  fee : parse tx.fee.str = .ok c.fee
  payer : c.payer = tx.feeGranter.getD tx.feePayer
  receivers : c.fee.IsZero ∧ c.outputs = [] ∨
    ¬ c.fee.IsZero ∧ dfd.Receivers sk ctx s.app tx c
  outputs_total : ∀ d, (c.outputs.map fun o => o.2.amountOf d).sum = c.fee.amountOf d
  bank : BankCharged s.app s'.app c
  /-- a granter other than the payer was asked once, with these coins, and agreed -/
  granted : ∃ made, s'.calls = s.calls ++ made ∧
    made.filter Call.isGrant = grantCalls tx c.fee c.payer ∧
    (c.payer ≠ tx.feePayer → ∃ fk, dfd.feegrantKeeper = some fk ∧
      fk.useGrantedFees ctx s.grants c.payer tx.feePayer c.fee tx.msgs = .ok s'.grants)

variable {parse : String → Res Coins} {dfd : DeductFeeDecorator Addr G} {ctx : Context}
  {tx : FeeTx Addr} {sk : StakingKeeper Addr}

theorem fee20Address_ok {s : App Addr} {payer : Addr} {owner : String} :
    fee20Address sk ctx s payer = .ok owner ↔ ValidatorOwner sk ctx s payer owner := by
  unfold fee20Address
  constructor
  · intro h
    constructor
    · intro meid hmeid
      rw [hmeid] at h
      exact h
    · intro hnone
      rw [hnone] at h
      exact h
  · rintro ⟨hmember, hstranger⟩
    cases hmeid : sk.getMeid s (SdkAddress.str payer) with
    | none => exact hstranger hmeid
    | some meid => exact hmember meid hmeid

theorem fee40Address_ok {s : App Addr} {last : String} :
    dfd.fee40Address sk s (.feeTx tx) = .ok last ↔ dfd.LastReceiver sk s tx.msgs last := by
  unfold fee40Address
  by_cases hlook : LooksUp Addr tx.msgs
  · obtain ⟨hall, addr, haddr⟩ := hlook
    rw [parse_lookup (t := .feeTx tx) rfl hall haddr]
    constructor
    · intro h
      obtain ⟨r, hr, h⟩ := bind_eq_ok.mp h
      obtain ⟨wk, hwk, hr⟩ := bind_eq_ok.mp hr
      obtain ⟨info, hinfo, hr⟩ := bind_eq_ok.mp hr
      cases hr
      cases h
      refine ⟨fun addr' _ haddr' => ?_, fun hno => absurd ⟨hall, addr, haddr⟩ hno⟩
      rw [haddr] at haddr'
      cases haddr'
      exact ⟨wk, info, deref_ok.mp hwk, deref_ok.mp hinfo, rfl⟩
    · intro h
      obtain ⟨wk, info, hwk, hinfo, rfl⟩ := h.contract addr hall haddr
      rw [hwk]
      dsimp only [deref]
      rw [ok_bind, hinfo]
      rfl
  · rw [parse_free (t := .feeTx tx) hlook]
    constructor
    · intro h
      cases h
      exact ⟨fun addr hall haddr => absurd ⟨hall, addr, haddr⟩ hlook, fun _ => rfl⟩
    · intro h
      rw [h.noContract hlook]
      rfl

theorem filter_grantCalls (tx : FeeTx Addr) (fee : Coins) (payer : Addr) :
    (grantCalls tx fee payer).filter Call.isGrant
      = grantCalls tx fee payer := by
  unfold grantCalls
  split
  · rfl
  · rfl

theorem bankCharged_zero (s : App Addr) (payer : Addr) {fee : Coins} (hz : fee.IsZero) :
    BankCharged s s ⟨payer, fee, []⟩ := by
  refine ⟨fun x d => ?_, fun _ => rfl, fun _ => rfl⟩
  simp [Charge.effect, Coins.amountOf_of_isZero hz]

theorem bankCharged_of_send {s s' : App Addr} {payer : Addr} {fee : Coins} {outputs : List InOut}
    (h : App.inputOutputCoins ctx s [⟨SdkAddress.str payer, fee⟩] outputs = .ok s') :
    ∃ outs, App.Decoded outputs outs ∧ BankCharged s s' ⟨payer, fee, outs⟩ := by
  obtain ⟨ins, outs, hins, houts, hl, _, ht, hs⟩ := App.inputOutputCoins_ok h
  refine ⟨outs, houts, fun x d => ?_, fun d => by simp only [BankState.supplyOf, hs], ht⟩
  have hin : ins = [(payer, fee)] := by
    cases hins with
    | cons hio hnil =>
      cases hnil
      rename_i p
      obtain ⟨a, cs⟩ := p
      obtain ⟨ha, rfl⟩ := hio
      rw [App.bech32, SdkAddress.fromBech32_str] at ha
      cases ha
      rfl
  have hx := congrFun (congrFun hl x) d
  change s'.bank.balance x d = _ at hx
  rw [hx, Ledger.credits_apply, Ledger.credits_apply, hin]
  simp only [App.ioCredits, List.map_cons, List.map_nil, List.sum_cons, List.sum_nil, add_zero,
    one_mul, neg_mul, Charge.effect, Ledger.received, List.map_map, add_assoc]
  rfl

theorem payFee_charges (hrecv : sk.feeToReceivers = App.inputOutputCoins)
    {s s' : AnteState Addr G} {fee : Coins} {payer : Addr}
    (h : dfd.payFee sk ctx s tx fee payer = .ok s') :
    ∃ outs call, dfd.Receivers sk ctx s.app tx ⟨payer, fee, outs⟩ ∧
      (∀ d, (outs.map fun o => o.2.amountOf d).sum = fee.amountOf d) ∧
      BankCharged s.app s'.app ⟨payer, fee, outs⟩ ∧ s'.grants = s.grants ∧
      s'.calls = s.calls ++ [call] ∧ call.isGrant = false := by
  obtain ⟨_, parts, outputs, app, hp, ho, ha, rfl⟩ := payFee_ok h
  rw [hrecv] at ha
  obtain ⟨outs, hdec, hbank⟩ := bankCharged_of_send ha
  obtain ⟨owner, howner, ho⟩ := bind_eq_ok.mp ho
  obtain ⟨last, hlast, ho⟩ := bind_eq_ok.mp ho
  cases ho
  have hreceivers : dfd.Receivers sk ctx s.app tx ⟨payer, fee, outs⟩ :=
    ⟨parts, owner, last, hp, fee20Address_ok.mp howner, fee40Address_ok.mp hlast, hdec⟩
  refine ⟨outs, _, hreceivers, fun d => ?_, hbank, rfl, rfl, rfl⟩
  rw [← splitFee_total hp d]
  cases hdec with
  | cons h1 hdec =>
    cases hdec with
    | cons h2 hdec =>
      cases hdec with
      | cons h3 hdec =>
        cases hdec with
        | cons h4 hdec =>
          cases hdec
          simp only [List.map_cons, List.map_nil, List.sum_cons, List.sum_nil, h1.2, h2.2, h3.2,
            h4.2]
          ring

/-- **Every transaction that pays is a charge.** -/
theorem chargeFee_charged (hrecv : sk.feeToReceivers = App.inputOutputCoins)
    {s s' : AnteState Addr G} {p : ℤ} (h : chargeFee parse dfd sk ctx s tx = .ok (p, s')) :
    ∃ c, Charged parse dfd sk ctx s tx s' c := by
  obtain ⟨checked, fee, payer, s1, _, hf, hd, hs⟩ := chargeFee_ok h
  obtain ⟨hpayer, happ, hcalls, hgrant⟩ := deductFeesFrom_ok hd
  have hagreed (g : G) (hg : g = s1.grants) : payer ≠ tx.feePayer →
      ∃ fk, dfd.feegrantKeeper = some fk ∧
        fk.useGrantedFees ctx s.grants payer tx.feePayer fee tx.msgs = .ok g := by
    intro hne
    rcases hgrant with ⟨he, _⟩ | ⟨_, hfk⟩
    · exact absurd he hne
    · rw [hg]
      exact hfk
  rcases hs with ⟨hz, rfl⟩ | ⟨hz, hpay⟩
  · refine ⟨⟨payer, fee, []⟩, hf, hpayer, Or.inl ⟨hz, rfl⟩, fun d => ?_, ?_, ?_⟩
    · rw [Coins.amountOf_of_isZero hz]
      rfl
    · rw [happ]
      exact bankCharged_zero _ payer hz
    · refine ⟨[.txFeeChecker] ++ grantCalls tx fee payer, ?_, ?_, hagreed _ rfl⟩
      · rw [hcalls, List.append_assoc]
      · rw [List.filter_append, filter_grantCalls]
        rfl
  · obtain ⟨outs, call, hrec, htot, hbank, hgr, hcall, hno⟩ := payFee_charges hrecv hpay
    rw [happ] at hrec hbank
    refine ⟨⟨payer, fee, outs⟩, hf, hpayer, Or.inr ⟨hz, hrec⟩, htot, hbank, ?_⟩
    refine ⟨[.txFeeChecker] ++ grantCalls tx fee payer ++ [call], ?_, ?_, hagreed _ hgr⟩
    · rw [hcall, hcalls]
      simp
    · have hchecker : (Call.txFeeChecker : Call Addr).isGrant = false := rfl
      simp [filter_grantCalls, hchecker, hno]

/-! ## sequences of transactions -/

/-- the state after one transaction; a rejected one leaves nothing behind -/
def deliver (parse : String → Res Coins) (dfd : DeductFeeDecorator Addr G) (s : AnteState Addr G)
    (t : Context × FeeTx Addr) : AnteState Addr G :=
  match anteHandle parse dfd t.1 s (.feeTx t.2) false probe with
  | .ok r => r.2
  | .error _ => s

def deliverAll (parse : String → Res Coins) (dfd : DeductFeeDecorator Addr G)
    (s : AnteState Addr G) (ts : List (Context × FeeTx Addr)) : AnteState Addr G :=
  ts.foldl (deliver parse dfd) s

/-- a sequence of transactions with the charges that were made, in order -/
inductive History (parse : String → Res Coins) (dfd : DeductFeeDecorator Addr G)
    (sk : StakingKeeper Addr) : AnteState Addr G → List (Context × FeeTx Addr) →
    List (Charge Addr) → AnteState Addr G → Prop
  | nil (s) : History parse dfd sk s [] [] s
  | charged {s s1 s' ctx tx ts c cs} : Charged parse dfd sk ctx s tx s1 c →
      History parse dfd sk s1 ts cs s' → History parse dfd sk s ((ctx, tx) :: ts) (c :: cs) s'
  | unchanged {s s' ctx tx ts cs} :
      (∀ ctx' s1, ReachesNext parse dfd ctx s tx false ctx' s1 →
        freeGasLoop (isAdmin sk s.app tx.feePayer) tx.msgs = true) →
      History parse dfd sk s ts cs s' → History parse dfd sk s ((ctx, tx) :: ts) cs s'

theorem deliver_cases (hsk : dfd.stakingKeeper = some sk)
    (hrecv : sk.feeToReceivers = App.inputOutputCoins) (s : AnteState Addr G) (ctx : Context)
    (tx : FeeTx Addr) :
    (∃ c, Charged parse dfd sk ctx s tx (deliver parse dfd s (ctx, tx)) c) ∨
    deliver parse dfd s (ctx, tx) = s ∧ ∀ ctx' s1, ReachesNext parse dfd ctx s tx false ctx' s1 →
      freeGasLoop (isAdmin sk s.app tx.feePayer) tx.msgs = true := by
  unfold deliver
  cases h : anteHandle parse dfd ctx s (.feeTx tx) false probe with
  | error e =>
    refine Or.inr ⟨rfl, fun ctx' s1 hn => ?_⟩
    rw [ReachesNext, h] at hn
    cases hn
  | ok r =>
    obtain ⟨sk', hsk', _, hr⟩ := reachesNext_iff.mp h
    rw [hsk] at hsk'
    cases hsk'
    by_cases hf : freeGasLoop (isAdmin sk s.app tx.feePayer) tx.msgs = true
    · rw [if_pos hf] at hr
      exact Or.inr ⟨hr.2, fun _ _ _ => hf⟩
    · rw [if_neg hf] at hr
      obtain ⟨⟨p, s1⟩, hc, _, hs1⟩ := hr
      refine Or.inl ?_
      dsimp only at hs1 ⊢
      rw [hs1]
      exact chargeFee_charged hrecv hc

theorem history_of_deliverAll (hsk : dfd.stakingKeeper = some sk)
    (hrecv : sk.feeToReceivers = App.inputOutputCoins) (ts : List (Context × FeeTx Addr))
    (s : AnteState Addr G) : ∃ cs, History parse dfd sk s ts cs (deliverAll parse dfd s ts) := by
  induction ts generalizing s with
  | nil => exact ⟨[], .nil s⟩
  | cons t ts ih =>
    obtain ⟨ctx, tx⟩ := t
    obtain ⟨cs, hcs⟩ := ih (deliver parse dfd s (ctx, tx))
    rcases deliver_cases hsk hrecv s ctx tx with ⟨c, hc⟩ | ⟨hs, hfree⟩
    · exact ⟨c :: cs, .charged hc hcs⟩
    · rw [hs] at hcs
      refine ⟨cs, .unchanged hfree ?_⟩
      show History parse dfd sk s ts cs (deliverAll parse dfd (deliver parse dfd s (ctx, tx)) ts)
      rw [hs]
      exact hcs

/-- over a history the balances change by the charges, the supply does not change -/
theorem History.bank {s s' : AnteState Addr G} {ts : List (Context × FeeTx Addr)}
    {cs : List (Charge Addr)} (h : History parse dfd sk s ts cs s') :
    (∀ x d, s'.app.bank.balance x d
      = s.app.bank.balance x d + (cs.map fun c => c.effect x d).sum) ∧
    (∀ d, s'.app.bank.supplyOf d = s.app.bank.supplyOf d) ∧
    (∀ d, s'.app.bank.total d = s.app.bank.total d) := by
  induction h with
  | nil s => exact ⟨fun x d => by simp, fun _ => rfl, fun _ => rfl⟩
  | charged hc _ ih =>
    obtain ⟨hb, hs, ht⟩ := ih
    refine ⟨fun x d => ?_, fun d => ?_, fun d => ?_⟩
    · rw [hb, hc.bank.balance, List.map_cons, List.sum_cons, add_assoc]
    · rw [hs, hc.bank.supply]
    · rw [ht, hc.bank.total]
  | unchanged _ _ ih => exact ih

/-- **Fee charging conserves money and debits one entitled account**, for one transaction and over
any sequence of transactions. -/
theorem feeCharge_conserves (hsk : dfd.stakingKeeper = some sk)
    (hrecv : sk.feeToReceivers = App.inputOutputCoins) :
    (∀ ctx s tx ctx' s', freeGasLoop (isAdmin sk s.app tx.feePayer) tx.msgs = false →
      ReachesNext parse dfd ctx s tx false ctx' s' → ∃ c, Charged parse dfd sk ctx s tx s' c) ∧
    ∀ ts s, ∃ cs, History parse dfd sk s ts cs (deliverAll parse dfd s ts) ∧
      (∀ x d, (deliverAll parse dfd s ts).app.bank.balance x d
        = s.app.bank.balance x d + (cs.map fun c => c.effect x d).sum) ∧
      (∀ d, (deliverAll parse dfd s ts).app.bank.supplyOf d = s.app.bank.supplyOf d) ∧
      (∀ d, (deliverAll parse dfd s ts).app.bank.total d = s.app.bank.total d) := by
  constructor
  · intro ctx s tx ctx' s' hf h
    obtain ⟨sk', hsk', _, hr⟩ := reachesNext_iff.mp h
    rw [hsk] at hsk'
    cases hsk'
    rw [if_neg (by rw [hf]; simp)] at hr
    obtain ⟨⟨p, s1⟩, hc, _, rfl⟩ := hr
    exact chargeFee_charged hrecv hc
  · intro ts s
    have hhist : ∃ cs, History parse dfd sk s ts cs (deliverAll parse dfd s ts) :=
      history_of_deliverAll hsk hrecv ts s
    obtain ⟨cs, hcs⟩ := hhist
    exact ⟨cs, hcs, hcs.bank⟩

theorem feeCharge_conserves_transfer :
    ∃ ctx' s' c, ReachesNext parseHundred fixedDecorator .first aliceFunded
        (aliceTx [.other "/cosmos.bank.v1beta1.MsgSend"]) false ctx' s' ∧
      Charged parseHundred fixedDecorator fixedStaking .first aliceFunded
        (aliceTx [.other "/cosmos.bank.v1beta1.MsgSend"]) s' c := by
  obtain ⟨⟨ctx', s'⟩, h⟩ := exists_ok_of_isOk (x := anteHandle parseHundred fixedDecorator .first
    aliceFunded (.feeTx (aliceTx [.other "/cosmos.bank.v1beta1.MsgSend"])) false probe)
    (by decide +kernel)
  have hsk : fixedDecorator.stakingKeeper = some fixedStaking := rfl
  obtain ⟨c, hc⟩ := (feeCharge_conserves hsk rfl).1 .first aliceFunded _ ctx' s' (by decide) h
  exact ⟨ctx', s', c, h, hc⟩

end DeductFeeDecorator

end MeChain
