import MeChain.Ante.FeeDeduct

/-!
# Which transactions the fee decorator lets through without a fee

* `reachesNext_iff`          everything a successful call can do before `next`;
* `chargeFee_ok`             what a transaction that pays goes through;
* `reachesFree_iff`          when `next` is reached without the fee checker;
* `exemption_sound_iff`      the exemption is sound, and blind to the order of the messages, exactly
                             when no transaction that mixes exempt and other messages gets that far.

The loop over the messages looks at the first one only, so one exempt message in front is enough.
-/

set_option linter.unusedSectionVars false

namespace MeChain
open Fallible

variable {Addr G : Type} [SdkAddress Addr] [DecidableEq Addr]

namespace DeductFeeDecorator

variable {parse : String → Res Coins} {dfd : DeductFeeDecorator Addr G} {ctx : Context}
  {s : AnteState Addr G} {tx : FeeTx Addr}

/-! ## what the handler can do -/

/-- the next handler that only reports how it was called -/
def probe : AnteHandler Addr G := fun ctx s _ _ => .ok (ctx, s)

/-- `AnteHandle` calls `next` with this context and state -/
def ReachesNext (parse : String → Res Coins) (dfd : DeductFeeDecorator Addr G) (ctx : Context)
    (s : AnteState Addr G) (tx : FeeTx Addr) (simulate : Bool) (ctx' : Context)
    (s' : AnteState Addr G) : Prop :=
  anteHandle parse dfd ctx s (.feeTx tx) simulate probe = .ok (ctx', s')

def GasRejected (ctx : Context) (tx : FeeTx Addr) : Prop := 0 < ctx.blockHeight ∧ tx.gas = 0

instance (ctx : Context) (tx : FeeTx Addr) : Decidable (GasRejected ctx tx) :=
  inferInstanceAs (Decidable (_ ∧ _))

/-- whatever the next handler is, it is called with what the probe sees -/
theorem anteHandle_eq_bind (tx : Tx Addr) (simulate : Bool) (next : AnteHandler Addr G) :
    anteHandle parse dfd ctx s tx simulate next
      = anteHandle parse dfd ctx s tx simulate probe >>= fun r => next r.1 r.2 tx simulate := by
  unfold anteHandle
  cases tx with
  | other msgs => rfl
  | feeTx feeTx =>
    dsimp only
    split
    · rfl
    · cases hsk : deref dfd.stakingKeeper with
      | error e => rfl
      | ok sk =>
        rw [ok_bind, ok_bind]
        split
        · cases hc : chargeFee parse dfd sk ctx s feeTx with
          | error e => rfl
          | ok r => rfl
        · rfl

/-- **What a handler that reaches `next` has done**, without simulation. -/
theorem reachesNext_iff {ctx' : Context} {s' : AnteState Addr G} :
    ReachesNext parse dfd ctx s tx false ctx' s' ↔
    ∃ sk, dfd.stakingKeeper = some sk ∧ ¬ GasRejected ctx tx ∧
      if freeGasLoop (isAdmin sk s.app tx.feePayer) tx.msgs = true then
        ctx' = { ctx with priority := 0 } ∧ s' = s
      else ∃ r, chargeFee parse dfd sk ctx s tx = .ok r ∧
        ctx' = { ctx with priority := r.1 } ∧ s' = r.2 := by
  unfold ReachesNext anteHandle
  simp only [true_and]
  refine guard_eq_ok.trans ?_
  constructor
  · rintro ⟨hg, h⟩
    obtain ⟨sk, hsk, h⟩ := bind_eq_ok.mp h
    refine ⟨sk, deref_ok.mp hsk, hg, ?_⟩
    by_cases hf : freeGasLoop (isAdmin sk s.app tx.feePayer) tx.msgs = true
    · rw [if_neg (by rw [hf]; simp)] at h
      rw [if_pos hf]
      cases h
      exact ⟨rfl, rfl⟩
    · rw [if_pos (by simpa using hf)] at h
      rw [if_neg hf]
      obtain ⟨r, hr, h⟩ := bind_eq_ok.mp h
      cases h
      exact ⟨r, hr, rfl, rfl⟩
  · rintro ⟨sk, hsk, hg, h⟩
    refine ⟨hg, bind_eq_ok.mpr ⟨sk, deref_ok.mpr hsk, ?_⟩⟩
    by_cases hf : freeGasLoop (isAdmin sk s.app tx.feePayer) tx.msgs = true
    · rw [if_pos hf] at h
      rw [if_neg (by rw [hf]; simp), h.1, h.2]
      rfl
    · rw [if_neg hf] at h
      rw [if_pos (by simpa using hf)]
      obtain ⟨r, hr, rfl, rfl⟩ := h
      exact bind_eq_ok.mpr ⟨r, hr, rfl⟩

def grantCalls (tx : FeeTx Addr) (fee : Coins) (payer : Addr) : List (Call Addr) :=
  if payer = tx.feePayer then [] else [.useGrantedFees payer tx.feePayer fee tx.msgs]

theorem deductFeesFrom_ok {fee : Coins} {payer : Addr} {s' : AnteState Addr G}
    (h : dfd.deductFeesFrom ctx s tx fee = .ok (payer, s')) :
    payer = tx.feeGranter.getD tx.feePayer ∧ s'.app = s.app ∧
    s'.calls = s.calls ++ grantCalls tx fee payer ∧
    (payer = tx.feePayer ∧ s'.grants = s.grants ∨ payer ≠ tx.feePayer ∧
      ∃ fk, dfd.feegrantKeeper = some fk ∧
        fk.useGrantedFees ctx s.grants payer tx.feePayer fee tx.msgs = .ok s'.grants) := by
  unfold deductFeesFrom at h
  cases hg : tx.feeGranter with
  | none =>
    simp only [hg] at h
    cases h
    refine ⟨rfl, rfl, ?_, Or.inl ⟨rfl, rfl⟩⟩
    rw [grantCalls, if_pos rfl, List.append_nil]
  | some granter =>
    simp only [hg] at h
    obtain ⟨_, h⟩ := guard_eq_ok.mp h
    by_cases hne : granter = tx.feePayer
    · rw [if_neg (not_not.mpr hne)] at h
      cases h
      refine ⟨rfl, rfl, ?_, Or.inl ⟨hne, rfl⟩⟩
      rw [grantCalls, if_pos hne, List.append_nil]
    · rw [if_pos hne] at h
      obtain ⟨fk, hfk, h⟩ := bind_eq_ok.mp h
      obtain ⟨grants, hgr, h⟩ := bind_eq_ok.mp h
      cases h
      refine ⟨rfl, rfl, ?_, Or.inr ⟨hne, fk, deref_ok.mp hfk, wrap_ok.mp hgr⟩⟩
      rw [grantCalls, if_neg hne]

theorem payFee_ok {sk : StakingKeeper Addr} {fee : Coins} {payer : Addr} {s' : AnteState Addr G}
    (h : dfd.payFee sk ctx s tx fee payer = .ok s') :
    fee.IsValid ∧ ∃ parts outputs app, splitFee fee = .ok parts ∧
      dfd.feeOutputs sk ctx s.app (.feeTx tx) payer parts = .ok outputs ∧
      sk.feeToReceivers ctx s.app [⟨SdkAddress.str payer, fee⟩] outputs = .ok app ∧
      s' = { s with
        app := app
        calls := s.calls ++ [.feeToReceivers [⟨SdkAddress.str payer, fee⟩] outputs] } := by
  unfold payFee at h
  obtain ⟨hv, h⟩ := guard_eq_ok.mp h
  obtain ⟨parts, hp, h⟩ := bind_eq_ok.mp h
  obtain ⟨outputs, ho, h⟩ := bind_eq_ok.mp h
  obtain ⟨app, ha, h⟩ := bind_eq_ok.mp h
  cases h
  exact ⟨not_not.mp hv, parts, outputs, app, hp, ho, ha, rfl⟩

/-- **What a transaction that pays goes through**: the fee checker, the parser, the granter, and for
a fee that is not zero the receivers. -/
theorem chargeFee_ok {sk : StakingKeeper Addr} {p : ℤ} {s' : AnteState Addr G}
    (h : chargeFee parse dfd sk ctx s tx = .ok (p, s')) :
    ∃ checked fee payer s1, dfd.txFeeChecker ctx s.app (.feeTx tx) = .ok (checked, p) ∧
      parse tx.fee.str = .ok fee ∧
      dfd.deductFeesFrom ctx { s with calls := s.calls ++ [.txFeeChecker] } tx fee
        = .ok (payer, s1) ∧
      (fee.IsZero ∧ s' = s1 ∨ ¬ fee.IsZero ∧ dfd.payFee sk ctx s1 tx fee payer = .ok s') := by
  obtain ⟨⟨checked, p'⟩, hc, h⟩ := bind_eq_ok.mp h
  obtain ⟨fee, hf, h⟩ := bind_eq_ok.mp h
  obtain ⟨⟨payer, s1⟩, hd, h⟩ := bind_eq_ok.mp h
  by_cases hz : fee.IsZero
  · rw [if_pos hz] at h
    cases h
    exact ⟨checked, fee, payer, s1, hc, wrap_ok.mp hf, hd, Or.inl ⟨hz, rfl⟩⟩
  · rw [if_neg hz] at h
    obtain ⟨s2, hs2, h⟩ := bind_eq_ok.mp h
    cases h
    exact ⟨checked, fee, payer, s1, hc, wrap_ok.mp hf, hd, Or.inr ⟨hz, hs2⟩⟩

/-! ## free transactions -/

/-- `next` is reached although the fee checker did not run -/
def ReachesFree (parse : String → Res Coins) (dfd : DeductFeeDecorator Addr G) (ctx : Context)
    (s : AnteState Addr G) (tx : FeeTx Addr) : Prop :=
  ∃ ctx' s' made, ReachesNext parse dfd ctx s tx false ctx' s' ∧ s'.calls = s.calls ++ made ∧
    Call.txFeeChecker ∉ made

theorem chargeFee_calls {sk : StakingKeeper Addr} {p : ℤ} {s' : AnteState Addr G}
    (h : chargeFee parse dfd sk ctx s tx = .ok (p, s')) :
    ∃ fee, parse tx.fee.str = .ok fee ∧ ∃ made, s'.calls = s.calls ++ made ∧
      Call.txFeeChecker ∈ made ∧
      (¬ fee.IsZero → ∃ outputs, Call.feeToReceivers
        [⟨SdkAddress.str (tx.feeGranter.getD tx.feePayer), fee⟩] outputs ∈ made) := by
  obtain ⟨checked, fee, payer, s1, _, hf, hd, hs⟩ := chargeFee_ok h
  obtain ⟨hpayer, _, hcalls, _⟩ := deductFeesFrom_ok hd
  refine ⟨fee, hf, ?_⟩
  rcases hs with ⟨hz, rfl⟩ | ⟨hz, hpay⟩
  · refine ⟨[.txFeeChecker] ++ grantCalls tx fee payer, ?_, by simp, fun h => absurd hz h⟩
    rw [hcalls, List.append_assoc]
  · obtain ⟨_, parts, outputs, app, _, _, _, rfl⟩ := payFee_ok hpay
    refine ⟨[.txFeeChecker] ++ (grantCalls tx fee payer
      ++ [.feeToReceivers [⟨SdkAddress.str payer, fee⟩] outputs]), ?_, by simp, fun _ => ?_⟩
    · show s1.calls ++ _ = _
      rw [hcalls]
      simp
    · exact ⟨outputs, by rw [hpayer]; simp⟩

theorem reachesFree_iff :
    ReachesFree parse dfd ctx s tx ↔ ∃ sk, dfd.stakingKeeper = some sk ∧ ¬ GasRejected ctx tx ∧
      freeGasLoop (isAdmin sk s.app tx.feePayer) tx.msgs = true := by
  constructor
  · rintro ⟨ctx', s', made, h, hc, hn⟩
    obtain ⟨sk, hsk, hg, h⟩ := reachesNext_iff.mp h
    refine ⟨sk, hsk, hg, ?_⟩
    by_contra hf
    rw [if_neg hf] at h
    obtain ⟨⟨p, s1⟩, hr, _, rfl⟩ := h
    obtain ⟨_, _, made', hm, hin, _⟩ := chargeFee_calls hr
    rw [hc, List.append_right_inj] at hm
    exact hn (hm ▸ hin)
  · rintro ⟨sk, hsk, hg, hf⟩
    refine ⟨{ ctx with priority := 0 }, s, [], reachesNext_iff.mpr ⟨sk, hsk, hg, ?_⟩, by simp,
      by simp⟩
    rw [if_pos hf]
    exact ⟨rfl, rfl⟩

/-! ## soundness of the exemption -/

/-- For a payer who is not an admin and a message list with a message that is not exempt: `next` is
not reached without the fee checker and, for a fee that is not zero, not without its debit. -/
def ExemptionSound (parse : String → Res Coins) (dfd : DeductFeeDecorator Addr G) (ctx : Context)
    (s : AnteState Addr G) (tx : FeeTx Addr) : Prop :=
  (∀ sk, dfd.stakingKeeper = some sk → isAdmin sk s.app tx.feePayer = false) →
  (∃ m ∈ tx.msgs, m.exempt = false) →
  ∀ ctx' s', ReachesNext parse dfd ctx s tx false ctx' s' →
    ∃ made, s'.calls = s.calls ++ made ∧ Call.txFeeChecker ∈ made ∧
      ∀ fee, parse tx.fee.str = .ok fee → ¬ fee.IsZero →
        ∃ outputs, Call.feeToReceivers
          [⟨SdkAddress.str (tx.feeGranter.getD tx.feePayer), fee⟩] outputs ∈ made

/-- Permuting the messages does not change whether the transaction is let through for free: if it
reaches `next` in two orders, it is charged in both or in neither. -/
def OrderBlind (parse : String → Res Coins) (dfd : DeductFeeDecorator Addr G) (ctx : Context)
    (s : AnteState Addr G) (tx : FeeTx Addr) : Prop :=
  ∀ msgs : List Msg, msgs.Perm tx.msgs →
    (ReachesFree parse dfd ctx s { tx with msgs := msgs } ↔ ReachesFree parse dfd ctx s tx)

def Mixed (msgs : List Msg) : Prop :=
  (∃ m ∈ msgs, m.exempt = true) ∧ ∃ m ∈ msgs, m.exempt = false

theorem sound_of_charged (h : ∀ sk, dfd.stakingKeeper = some sk → ¬ GasRejected ctx tx →
    freeGasLoop (isAdmin sk s.app tx.feePayer) tx.msgs = false) :
    ExemptionSound parse dfd ctx s tx := by
  intro _ _ ctx' s' hnext
  obtain ⟨sk, hsk, hg, hr⟩ := reachesNext_iff.mp hnext
  rw [if_neg (by rw [h sk hsk hg]; simp)] at hr
  obtain ⟨⟨p, s1⟩, hr, _, rfl⟩ := hr
  obtain ⟨fee, hf, made, hm, hin, hout⟩ := chargeFee_calls hr
  refine ⟨made, hm, hin, fun fee' hf' hz => ?_⟩
  rw [hf] at hf'
  cases hf'
  exact hout hz

theorem freeGasLoop_false {msgs : List Msg} :
    freeGasLoop false msgs = true ↔ ∃ m rest, msgs = m :: rest ∧ m.exempt = true := by
  cases msgs with
  | nil => simp [freeGasLoop]
  | cons m rest => cases m <;> simp [freeGasLoop, Msg.exempt]

theorem freeGasLoop_true (msgs : List Msg) : freeGasLoop true msgs = true := by
  cases msgs with
  | nil => rfl
  | cons m rest => cases m <;> rfl

/-- in a list that is not mixed any message can stand for the first one -/
theorem freeGasLoop_unmixed {msgs : List Msg} (h : ¬ Mixed msgs) :
    freeGasLoop false msgs = true ↔ ∃ m ∈ msgs, m.exempt = true := by
  rw [freeGasLoop_false]
  constructor
  · rintro ⟨m, rest, rfl, hm⟩
    exact ⟨m, List.mem_cons_self .., hm⟩
  · intro hex
    cases msgs with
    | nil =>
      obtain ⟨_, hm, _⟩ := hex
      cases hm
    | cons m rest =>
      refine ⟨m, rest, rfl, ?_⟩
      by_contra hm
      exact h ⟨hex, m, List.mem_cons_self .., by simpa using hm⟩

theorem not_sound_of_free (hadmin : ∀ sk, dfd.stakingKeeper = some sk →
    isAdmin sk s.app tx.feePayer = false) (hm : ∃ m ∈ tx.msgs, m.exempt = false)
    (hfree : ReachesFree parse dfd ctx s tx) : ¬ ExemptionSound parse dfd ctx s tx := by
  intro hsound
  obtain ⟨ctx', s', made, hnext, hc, hn⟩ := hfree
  obtain ⟨made', hc', hin, _⟩ := hsound hadmin hm ctx' s' hnext
  rw [hc, List.append_right_inj] at hc'
  exact hn (hc' ▸ hin)

theorem exists_perm_front {p : Msg → Prop} {msgs : List Msg} (h : ∃ m ∈ msgs, p m) :
    ∃ m rest, (m :: rest).Perm msgs ∧ p m := by
  obtain ⟨m, hm, hp⟩ := h
  exact ⟨m, msgs.erase m, (List.perm_cons_erase hm).symm, hp⟩

/-- **When the exemption is sound**: exactly when the transaction does not reach the loop with a
payer who is no admin and a message list that mixes exempt and other messages. -/
theorem exemption_sound_iff :
    (ExemptionSound parse dfd ctx s tx ∧ OrderBlind parse dfd ctx s tx) ↔
    ¬ ∃ sk, dfd.stakingKeeper = some sk ∧ ¬ GasRejected ctx tx ∧
      isAdmin sk s.app tx.feePayer = false ∧ Mixed tx.msgs := by
  constructor
  · rintro ⟨hsound, hblind⟩ ⟨sk, hsk, hg, hadmin, hexempt, hpays⟩
    have hadmin' : ∀ sk, dfd.stakingKeeper = some sk → isAdmin sk s.app tx.feePayer = false := by
      intro sk' hsk'
      rw [hsk] at hsk'
      cases hsk'
      exact hadmin
    -- with the exempt message in front the transaction is free, so it is free as it stands
    obtain ⟨m, rest, hperm, hm⟩ := exists_perm_front hexempt
    refine not_sound_of_free hadmin' hpays ((hblind (m :: rest) hperm).mp ?_) hsound
    refine reachesFree_iff.mpr ⟨sk, hsk, hg, ?_⟩
    rw [hadmin]
    exact freeGasLoop_false.mpr ⟨m, rest, rfl, hm⟩
  · intro h
    constructor
    · intro hadmin hpays
      refine sound_of_charged (fun sk hsk hg => ?_) hadmin hpays
      rw [hadmin sk hsk, Bool.eq_false_iff]
      intro hfree
      obtain ⟨m, rest, hmsgs, hm⟩ := freeGasLoop_false.mp hfree
      refine h ⟨sk, hsk, hg, hadmin sk hsk, ⟨m, ?_, hm⟩, hpays⟩
      rw [hmsgs]
      exact List.mem_cons_self ..
    · intro msgs hperm
      rw [reachesFree_iff, reachesFree_iff]
      refine exists_congr (fun sk => and_congr_right (fun hsk => and_congr_right (fun hg => ?_)))
      show freeGasLoop (isAdmin sk s.app tx.feePayer) msgs = true ↔ _
      cases hadmin : isAdmin sk s.app tx.feePayer with
      | true => rw [freeGasLoop_true, freeGasLoop_true]
      | false =>
        have hmix : ¬ Mixed tx.msgs := fun hmix => h ⟨sk, hsk, hg, hadmin, hmix⟩
        rw [freeGasLoop_unmixed hmix,
          freeGasLoop_unmixed (fun hm => hmix ⟨hm.1.imp (fun _ h => ⟨hperm.mem_iff.mp h.1, h.2⟩),
            hm.2.imp (fun _ h => ⟨hperm.mem_iff.mp h.1, h.2⟩)⟩)]
        simp only [hperm.mem_iff]

/-! ### one chain -/

def fixedStaking : StakingKeeper String where
  getMeid _ _ := none
  getValOwnerAddress _ _ := goError .other "meid not found"
  getDevOperatorAddress _ := "me1dev"
  getProposerOwnerAddress _ _ := .ok "me1proposer"
  getGlobalAdminAddress _ := "me1admin"
  getMeidAdminAddress _ := "me1meid"
  getGlobalAdminFeePoolAddr _ := "me1pool"
  feeToReceivers := App.inputOutputCoins

def fixedDecorator : DeductFeeDecorator String Unit where
  feegrantKeeper := none
  stakingKeeper := some fixedStaking
  txFeeChecker _ _ _ := .ok ([], 1)
  wasmKeeper := none

def parseHundred (fee : String) : Res Coins :=
  if fee = "100umec" then .ok [⟨"umec", 100⟩] else goError .invalidCoins fee

def aliceFunded : AnteState String Unit where
  app := { App.empty with
    bank := ⟨Table.empty.put ⟨"me1alice", "umec", 500⟩, Table.empty.put ⟨"umec", 500⟩⟩ }
  grants := ()
  calls := []

def aliceTx (msgs : List Msg) : FeeTx String := ⟨msgs, [⟨"umec", 100⟩], 200000, "me1alice", none⟩

/-- a check-in in front of a transfer: the fee checker does not run, no fee is taken -/
theorem exemption_unsound_checkIn_first :
    ¬ ExemptionSound parseHundred fixedDecorator .first aliceFunded
      (aliceTx [.checkIn, .other "/cosmos.bank.v1beta1.MsgSend"]) := by
  refine not_sound_of_free (fun sk hsk => ?_) ?_ ?_
  · cases hsk
    decide
  · exact ⟨.other "/cosmos.bank.v1beta1.MsgSend", by simp [aliceTx], rfl⟩
  · exact reachesFree_iff.mpr ⟨fixedStaking, rfl, by decide, by decide⟩

end DeductFeeDecorator

end MeChain
