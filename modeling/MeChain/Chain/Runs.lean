import MeChain.Ante.Charge
import MeChain.Chain.Sane
import MeChain.Upgrade.Backing
import MeChain.Upgrade.Progress

/-!
# Runs of the chain

Transactions that pay fees, transfers, withdrawals, the upgrade and the zero-height export, in any order.

* `resetExponent_advances`, `fixValidator_advances`   the upgrade, one function after the other;
* `deliver_advances`   the fees of a transaction, whoever receives them;
* `Step`, `Run`        what the chain can do, and how often it was upgraded on the way;
* `run_sane`           every run keeps the chain sane, and multiplies supplies by upgrades only.
-/

set_option linter.unusedSectionVars false

namespace MeChain
open Fallible

variable {Addr : Type} [SdkAddress Addr] [DecidableEq Addr]

/-! ## the locks through the upgrade -/

namespace AuthState
variable {s : AuthState Addr} {x : Addr} {a : Account Addr}

theorem UnlockedAt.setAccount (h : s.UnlockedAt x) (ha : x = a.address → LockFree Addr a.kind) :
    (s.setAccount a).UnlockedAt x := by
  intro k hk
  rw [kindAt_setAccount] at hk
  by_cases hx : x = a.address
  · rw [if_pos hx] at hk
    cases hk
    exact ha hx
  · rw [if_neg hx] at hk
    exact h k hk

/-- the branches write the account itself and plain accounts -/
theorem UnlockedAt.renumber (h : s.UnlockedAt x) (ha : x = a.address → LockFree Addr a.kind) :
    (renumber s a).UnlockedAt x := by
  have h2 : (moveNumber2 s a).1.UnlockedAt x ∧
      (x = (moveNumber2 s a).2.address → LockFree Addr (moveNumber2 s a).2.kind) := by
    unfold moveNumber2
    split
    · exact ⟨UnlockedAt.setAccount (s := s.nextAccountNumber.2) h ha, ha⟩
    · exact ⟨h, ha⟩
  have h1 (t : AuthState Addr) (b : Account Addr) (ht : t.UnlockedAt x)
      (hb : x = b.address → LockFree Addr b.kind) : (moveNumber1 t b).1.UnlockedAt x ∧
        (x = (moveNumber1 t b).2.address → LockFree Addr (moveNumber1 t b).2.kind) := by
    unfold moveNumber1
    split
    · have hmeid : (t.setAccount (meidAdminAccount Addr)).UnlockedAt x :=
        ht.setAccount (fun _ => lockFree_base)
      exact ⟨hmeid.setAccount hb, hb⟩
    · exact ⟨ht, hb⟩
  have h3 (t : AuthState Addr) (b : Account Addr) (ht : t.UnlockedAt x)
      (hb : x = b.address → LockFree Addr b.kind) : (moveNumber3 t b).1.UnlockedAt x := by
    unfold moveNumber3
    split
    · have hmoved : (moveToNext t b).UnlockedAt x :=
        UnlockedAt.setAccount (s := t.nextAccountNumber.2) ht hb
      exact hmoved.setAccount (a := airDropAccount Addr) (fun _ => lockFree_base)
    · exact ht
  have hmoved := h1 _ _ h2.1 h2.2
  exact h3 _ _ hmoved.1 hmoved.2

theorem UnlockedAt.mintEnsured {n : ModuleNames} {t : AuthState Addr} (h : s.UnlockedAt x)
    (hmint : MintEnsured n s t) : t.UnlockedAt x := by
  rcases hmint with ⟨_, rfl⟩ | ⟨_, perms, rfl⟩
  · exact h
  · exact h.created n.mint perms

end AuthState

section
variable {cfg : Config Addr} {ctx : Context} {s s' : App Addr}

theorem resetExponent_unlocked {x : Addr} (hs : s.auth.UnlockedAt x)
    (h : resetExponent cfg ctx s = .ok s') : s'.auth.UnlockedAt x := by
  rcases resetExponent_auth h with ⟨_, hauth⟩ | ⟨s0, hmint, hauth⟩
  · rw [hauth]
    exact hs
  · rw [hauth]
    refine foldl_run (f := renumber) (I := fun _ t => t.UnlockedAt x) (hs.mintEnsured hmint) ?_
    intro done a rest t hl hI
    refine hI.renumber (fun hx => hs a.kind (AuthState.kindAt_eq_some.mpr ⟨a, ?_, rfl⟩))
    rw [hx]
    refine AuthState.mem_getAllAccounts.mp ?_
    rw [hl]
    simp

theorem resetExponent_stored {x : Addr} (hs : s.auth.hasAccount x = true)
    (h : resetExponent cfg ctx s = .ok s') : s'.auth.hasAccount x = true := by
  rcases resetExponent_auth h with ⟨_, hauth⟩ | ⟨s0, hmint, hauth⟩
  · rw [hauth]
    exact hs
  · rw [hauth]
    refine foldl_run (f := renumber) (I := fun _ t => t.hasAccount x = true) ?_
      (fun _ _ _ _ _ hI => hasAccount_renumber hI)
    rcases hmint with ⟨_, rfl⟩ | ⟨_, perms, rfl⟩
    · exact hs
    · exact hasAccount_setAccount (s := s.auth.nextAccountNumber.2) hs

/-! ## the upgrade -/

theorem resetExponent_wellFormed (hs : s.bank.WellFormed) (h : resetExponent cfg ctx s = .ok s') :
    s'.bank.WellFormed := by
  refine foldlM_ok (I := fun _ t => t.bank.WellFormed) h hs ?_
  intro done a rest t t' _ hI hstep
  obtain ⟨u, hu, rfl⟩ := resetExponentStep_ok hstep
  have hwf : u.bank.WellFormed := scaleBalances_wellFormed hI hu
  exact hwf

theorem resetExponent_advances (hs : s.Sane cfg) (h : resetExponent cfg ctx s = .ok s') :
    App.Advances cfg 1 s s' := by
  obtain ⟨hbank, _, hdistr, _⟩ := resetExponent_run h
  have hbalance : ∀ a d, s'.bank.balance a d = 100 * s.bank.balance a d :=
    fun a d => ledger_after h (hs.stored a d)
  have htotal : ∀ d, s'.bank.total d = 100 * s.bank.total d :=
    fun d => total_scaled (fun a => hbalance a d)
  have hsupply : ∀ d, s'.bank.supplyOf d = s'.bank.total d := by
    intro d
    have hmatched := hbank.matched d
    rw [hs.sound.supply d] at hmatched
    omega
  have hslack : ∀ d, s.slack cfg d ≤ s'.slack cfg d := by
    intro d
    have hnonneg : 0 ≤ s.distrBalance cfg d := hs.sound.bank.nonneg _ d
    have hscaled : s'.distrBalance cfg d = 100 * s.distrBalance cfg d := hbalance _ d
    have hle : s.distrBalance cfg d * Dec.one ≤ s'.distrBalance cfg d * Dec.one :=
      mul_le_mul_of_nonneg_right (by omega) Dec.one_pos.le
    unfold App.slack Dec.ofInt
    rw [hdistr]
    linarith
  refine ⟨⟨⟨resetExponent_wellFormed hs.sound.bank h, hsupply, ?_, ?_⟩, fun a d hne => ?_, ?_,
    fun d => (hs.covered d).trans_le (hslack d)⟩, fun d => ?_, hslack⟩
  · exact App.unlocked_iff.mpr (resetExponent_unlocked hs.books.unlocked h)
  · rw [hdistr]
    exact hs.sound.distr
  · refine resetExponent_stored (hs.stored a d (fun hzero => hne ?_)) h
    rw [hbalance, hzero, mul_zero]
  · rw [hdistr]
    exact hs.commission
  · rw [hsupply, htotal, ← hs.sound.supply, pow_one]

theorem initializeValidator_sound {s : DistrState Addr} (hs : s.Sound) (op : Addr) :
    (s.initializeValidator op).Sound ∧
      ∀ d, (s.initializeValidator op).totalOf d ≤ s.totalOf d := by
  have hout : ∀ op' d, (s.initializeValidator op).outstandingOf op' d
      = if op' = op then 0 else s.outstandingOf op' d :=
    fun op' d => DistrState.outstandingOf_set s op op' [] d
  refine ⟨⟨fun op' d => ?_, fun op' d => ?_, hs.pool⟩, fun d => ?_⟩
  · rw [hout]
    split
    · exact le_rfl
    · exact hs.outstanding op' d
  · show 0 ≤ DecCoins.amountOf (s.currentRewards.put _ |>.lookupD op' _).rewards d
    rw [Table.lookupD_put]
    split
    · exact le_rfl
    · exact hs.current op' d
  · have htotal : (s.initializeValidator op).totalOf d + s.outstandingOf op d = s.totalOf d + 0 :=
      DistrState.totalOf_set s op [] d
    have hnonneg := hs.outstanding op d
    linarith

theorem fixValidator_advances (hrm : cfg.RemovesKeys) (hs : s.Sane cfg)
    (h : fixValidator cfg s = .ok s') : App.Advances cfg 0 s s' := by
  obtain ⟨adminAddr, _, hloop⟩ := fixValidator_ok h
  obtain ⟨hauth, hbank, _, hdistr⟩ := fixValidator_frame hrm hloop
  have hrecords : s'.distr.Sound ∧ s'.distr.CommissionsValid ∧
      ∀ d, s'.distr.totalOf d ≤ s.distr.totalOf d := by
    rw [hdistr]
    refine foldl_run (f := DistrState.initializeValidator) (I := fun _ t => t.Sound ∧
      t.CommissionsValid ∧ ∀ d, t.totalOf d ≤ s.distr.totalOf d)
      ⟨hs.sound.distr, hs.commission, fun _ => le_rfl⟩ ?_
    intro done op rest t _ hI
    obtain ⟨hsound, hle⟩ := initializeValidator_sound hI.1 op
    exact ⟨hsound, hI.2.1.put ⟨by simp, List.Pairwise.nil⟩ rfl,
      fun d => (hle d).trans (hI.2.2 d)⟩
  obtain ⟨hsound, hcom, hle⟩ := hrecords
  have hslack : ∀ d, s.slack cfg d ≤ s'.slack cfg d := by
    intro d
    have hd := hle d
    unfold App.slack App.distrBalance
    rw [hbank]
    linarith
  refine ⟨⟨⟨?_, fun d => ?_, App.unlocked_iff.mpr ?_, hsound⟩, fun a d hne => ?_, hcom,
    fun d => (hs.covered d).trans_le (hslack d)⟩, fun d => ?_, hslack⟩
  · rw [hbank]
    exact hs.sound.bank
  · rw [hbank]
    exact hs.sound.supply d
  · rw [hauth]
    exact hs.books.unlocked
  · rw [hbank] at hne
    rw [hauth]
    exact hs.stored a d hne
  · rw [hbank, pow_zero, one_mul]

end

/-! ## the fees -/

namespace DeductFeeDecorator
variable {G : Type} {parse : String → Res Coins} {dfd : DeductFeeDecorator Addr G}
  {sk : StakingKeeper Addr} {cfg : Config Addr} {ctx : Context} {tx : FeeTx Addr}

theorem chargeFee_advances (hrecv : sk.feeToReceivers = App.inputOutputCoins)
    (hpayer : tx.feeGranter.getD tx.feePayer ≠ cfg.distrAccount) {s s' : AnteState Addr G} {p : ℤ}
    (hs : s.app.Sane cfg) (h : chargeFee parse dfd sk ctx s tx = .ok (p, s')) :
    App.Advances cfg 0 s.app s'.app := by
  obtain ⟨checked, fee, payer, s1, _, _, hd, hpay⟩ := chargeFee_ok h
  obtain ⟨rfl, happ, _⟩ := deductFeesFrom_ok hd
  rcases hpay with ⟨_, rfl⟩ | ⟨_, hpay⟩
  · rw [happ]
    exact App.Advances.refl hs
  · obtain ⟨_, parts, outputs, app, _, _, hio, rfl⟩ := payFee_ok hpay
    rw [hrecv, happ] at hio
    obtain ⟨hbooks, hpays⟩ := inputOutputCoins_kept hs.books hio
    obtain ⟨_, _, hcharged⟩ := bankCharged_of_send hio
    refine App.advances_of_pays hs hbooks hpays hcharged.total (fun hsends => ?_)
    obtain ⟨io, hmem, hio⟩ := hsends
    rw [List.mem_singleton.mp hmem, App.bech32, SdkAddress.fromBech32_str] at hio
    exact hpayer (Except.ok.inj hio)

/-- **One transaction**: its fees are paid, or nothing happens. -/
theorem deliver_advances (hsk : dfd.stakingKeeper = some sk)
    (hrecv : sk.feeToReceivers = App.inputOutputCoins)
    (hpayer : tx.feeGranter.getD tx.feePayer ≠ cfg.distrAccount) {s : AnteState Addr G}
    (hs : s.app.Sane cfg) :
    App.Advances cfg 0 s.app (deliver parse dfd s (ctx, tx)).app := by
  unfold deliver
  cases h : anteHandle parse dfd ctx s (.feeTx tx) false probe with
  | error e => exact App.Advances.refl hs
  | ok r =>
    obtain ⟨sk', hsk', _, hnext⟩ := reachesNext_iff.mp h
    obtain rfl : sk = sk' := Option.some.inj (hsk.symm.trans hsk')
    by_cases hfree : freeGasLoop (isAdmin sk s.app tx.feePayer) tx.msgs = true
    · rw [if_pos hfree] at hnext
      dsimp only
      rw [hnext.2]
      exact App.Advances.refl hs
    · rw [if_neg hfree] at hnext
      obtain ⟨⟨p, s1⟩, hcharge, _, hs1⟩ := hnext
      dsimp only at hs1 ⊢
      rw [hs1]
      exact chargeFee_advances hrecv hpayer hs hcharge

end DeductFeeDecorator

/-! ## runs -/

section
variable {G : Type} [ValAddress Addr] [LE Addr] [DecidableLE Addr]

/-- one thing that happens to the chain, and the number of upgrades in it; the keepers are the same all
along, and what they answer depends on the block through `ctx` -/
inductive Step (x : ExportConfig Addr) (parse : String → Res Coins)
    (dfd : DeductFeeDecorator Addr G) : AnteState Addr G → ℕ → AnteState Addr G → Prop
  /-- a transaction is delivered; nobody signs for the distribution account -/
  | deliver {s} (ctx tx) : tx.feeGranter.getD tx.feePayer ≠ x.cfg.distrAccount →
      Step x parse dfd s 0 (DeductFeeDecorator.deliver parse dfd s (ctx, tx))
  | send {s app} (ctx y z amt) : y ≠ x.cfg.distrAccount →
      s.app.sendCoins ctx y z amt = .ok app → Step x parse dfd s 0 { s with app := app }
  | withdraw {s app} (ctx delAddr valAddr) :
      s.app.withdrawRewards x.cfg x.rules ctx delAddr valAddr = .ok app →
      Step x parse dfd s 0 { s with app := app }
  /-- what the upgrade handler does after the migrations of the SDK's modules -/
  | upgrade {s app} (ctx) : (resetExponent x.cfg ctx s.app >>= fixValidator x.cfg) = .ok app →
      Step x parse dfd s 1 { s with app := app }
  /-- the chain goes on from what the zero-height export leaves: its import is taken to give it back -/
  | restart {s app} (ctx jailAllowedAddrs) :
      prepForZeroHeightGenesis x ctx jailAllowedAddrs s.app = .ok app →
      Step x parse dfd s 0 { s with app := app }

/-- any of these one after the other, with `n` upgrades among them -/
inductive Run (x : ExportConfig Addr) (parse : String → Res Coins) (dfd : DeductFeeDecorator Addr G)
    (s : AnteState Addr G) : ℕ → AnteState Addr G → Prop
  | nil : Run x parse dfd s 0 s
  | snoc {t u n k} : Run x parse dfd s n t → Step x parse dfd t k u → Run x parse dfd s (n + k) u

variable {x : ExportConfig Addr} {parse : String → Res Coins} {dfd : DeductFeeDecorator Addr G}
  {sk : StakingKeeper Addr} {s s' : AnteState Addr G} {n : ℕ}

theorem step_advances (hrm : x.cfg.RemovesKeys) (hgov : x.cfg.GovApart)
    (hpools : x.cfg.PoolsApart) (hrules : x.rules.NonNegative) (hsk : dfd.stakingKeeper = some sk)
    (hrecv : sk.feeToReceivers = App.inputOutputCoins) (hs : s.app.Sane x.cfg)
    (h : Step x parse dfd s n s') : App.Advances x.cfg n s.app s'.app := by
  cases h with
  | deliver ctx tx hpayer => exact DeductFeeDecorator.deliver_advances hsk hrecv hpayer hs
  | send ctx y z amt hy hsend => exact App.sendCoins_advances hs hy hsend
  | withdraw ctx delAddr valAddr hrewards =>
    exact App.withdrawRewards_advances hgov hrules hs hrewards
  | upgrade ctx hup =>
    obtain ⟨t, hreset, hfix⟩ := bind_eq_ok.mp hup
    have hscaled := resetExponent_advances hs hreset
    exact hscaled.trans (fixValidator_advances hrm hscaled.sane hfix)
  | restart ctx l hexport => exact prepForZeroHeightGenesis_advances hgov hpools hrules hs hexport

/-- **Every run keeps the chain sane.**  The bank stays well formed and its supply the sum of the
balances, every coin has an account behind it, the distribution account covers what is recorded to less
than a unit; what it holds beyond the records never shrinks; and supplies change by upgrades only,
each of which multiplies them by 100. -/
theorem run_sane (hrm : x.cfg.RemovesKeys) (hgov : x.cfg.GovApart) (hpools : x.cfg.PoolsApart)
    (hrules : x.rules.NonNegative) (hsk : dfd.stakingKeeper = some sk)
    (hrecv : sk.feeToReceivers = App.inputOutputCoins) (hs : s.app.Sane x.cfg)
    (h : Run x parse dfd s n s') :
    s'.app.Sane x.cfg ∧
    (∀ d, s'.app.bank.supplyOf d = 100 ^ n * s.app.bank.supplyOf d) ∧
    ∀ d, s.app.slack x.cfg d ≤ s'.app.slack x.cfg d := by
  have hrun : App.Advances x.cfg n s.app s'.app := by
    induction h with
    | nil => exact App.Advances.refl hs
    | snoc _ hstep ih => exact ih.trans (step_advances hrm hgov hpools hrules hsk hrecv ih.sane hstep)
  exact ⟨hrun.sane, hrun.supply, hrun.slack⟩

end

/-! ## a run with one upgrade -/

/-- a validator and a delegation with rewards, the module accounts that hold them and the validator's
tokens, and the admin's stake; the power index has lost the validator -/
def rewardedChain : AnteState String Unit where
  app := { App.commissionChain "me1val1" with
    auth := ((⟨.empty, .empty, 10⟩ : AuthState String).setAccount
      ((Account.newEmptyModuleAccount "distribution" []).setAccountNumber 8)).setAccount
        ((Account.newEmptyModuleAccount "bonded_tokens_pool" [burner, stakingPerm]).setAccountNumber 9)
    staking := { (App.commissionChain "me1val1").staking with
      lastValidatorPower := Table.empty.put ("me1val1", 3)
      stakes := Table.empty.put (nodeStake "me1admin" "me1val1") } }
  grants := ()
  calls := []

theorem rewardedChain_sane : rewardedChain.app.Sane (Config.fixed "me1admin" "me1dev") := by
  have hsound := App.commissionChain_sound "me1val1"
  refine ⟨⟨hsound.bank, hsound.supply, fun _ _ => rfl, hsound.distr⟩, fun a d hne => ?_, ?_,
    fun d => ((App.commissionChain_backed "me1val1").slack_bounds hsound d).1⟩
  · obtain ⟨r, hr, rfl, rfl⟩ := BankState.exists_row_of_balance hne
    rcases List.mem_cons.mp hr with rfl | hr
    · decide
    · rw [List.mem_singleton.mp hr]
      decide
  · exact Table.lookupD_of_rows (P := fun cs : DecCoins => DecCoins.IsValid cs) (by decide) (by decide)

/-- the rewards are withdrawn, the chain starts again at height zero, and is upgraded -/
theorem run_sane_rewarded : ∃ s', Run .fixed DeductFeeDecorator.parseHundred
    DeductFeeDecorator.fixedDecorator rewardedChain 1 s' ∧ s'.app.bank.supplyOf "umec" = 300000500 := by
  obtain ⟨app, h⟩ := exists_ok_of_isOk (x := rewardedChain.app.withdrawRewards
    (Config.fixed "me1admin" "me1dev") .unslashed .first "me1del" "me1val1" >>= fun s =>
      prepForZeroHeightGenesis .fixed .first [] s >>= fun s =>
        resetExponent (Config.fixed "me1admin" "me1dev") .first s >>=
          fixValidator (Config.fixed "me1admin" "me1dev")) (by decide +kernel)
  obtain ⟨s1, hwithdraw, h⟩ := bind_eq_ok.mp h
  obtain ⟨s2, hrestart, hupgrade⟩ := bind_eq_ok.mp h
  have hrun : Run .fixed DeductFeeDecorator.parseHundred DeductFeeDecorator.fixedDecorator
      rewardedChain 1 { rewardedChain with app := app } :=
    ((Run.nil.snoc (.withdraw .first _ _ hwithdraw)).snoc (.restart .first [] hrestart)).snoc
      (.upgrade .first hupgrade)
  obtain ⟨_, hsupply, _⟩ := run_sane (fun _ _ => rfl) (by decide) (by decide)
    RewardRules.unslashed_nonNegative rfl rfl rewardedChain_sane hrun
  refine ⟨_, hrun, ?_⟩
  rw [hsupply]
  decide

end MeChain
