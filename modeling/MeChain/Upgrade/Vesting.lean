import MeChain.Upgrade.Balances
import MeChain.Upgrade.Renumber

/-!
# The vesting locks through `resetExponent`

The lock of a vesting account is computed from amounts inside the account.  The loop multiplies the
balances; the accounts it writes back have a new number and nothing else, and two constant addresses
get plain accounts.

* `KindFrom`         the account at an address has the kind it had, or has become a plain one;
* `kindFrom_run`     so it is after the run, for every account stored before;
* `locksKept_iff`    the lock of an account is multiplied with its balance exactly when it is zero.
-/

set_option linter.unusedSectionVars false

namespace MeChain
open Fallible

variable {Addr : Type} [SdkAddress Addr] [DecidableEq Addr]

/-! ## the kinds through the run -/

/-- the account at `x` is of kind `k`, or a plain account has taken its place -/
def KindFrom (x : Addr) (k : AccountKind) (s : AuthState Addr) : Prop :=
  s.kindAt x = some k ∨ s.kindAt x = some .base

section
variable {x : Addr} {k : AccountKind} {s : AuthState Addr} {a : Account Addr}

theorem KindFrom.setAccount (h : KindFrom x k s)
    (ha : x = a.address → a.kind = k ∨ a.kind = .base) : KindFrom x k (s.setAccount a) := by
  unfold KindFrom
  rw [AuthState.kindAt_setAccount]
  by_cases hx : x = a.address
  · rw [if_pos hx]
    exact (ha hx).imp (congrArg some) (congrArg some)
  · rw [if_neg hx]
    exact h

theorem KindFrom.moveNumber2 (h : KindFrom x k s) (ha : x = a.address → a.kind = k) :
    KindFrom x k (moveNumber2 s a).1 ∧ (x = (moveNumber2 s a).2.address →
      (moveNumber2 s a).2.kind = k) := by
  unfold MeChain.moveNumber2
  split
  · exact ⟨KindFrom.setAccount (s := s.nextAccountNumber.2) h (fun hx => Or.inl (ha hx)), ha⟩
  · exact ⟨h, ha⟩

theorem KindFrom.moveNumber1 (h : KindFrom x k s) (ha : x = a.address → a.kind = k) :
    KindFrom x k (moveNumber1 s a).1 ∧ (x = (moveNumber1 s a).2.address →
      (moveNumber1 s a).2.kind = k) := by
  unfold MeChain.moveNumber1
  split
  · have hmeid : KindFrom x k (s.setAccount (meidAdminAccount Addr)) :=
      h.setAccount (fun _ => Or.inr rfl)
    exact ⟨hmeid.setAccount (fun hx => Or.inl (ha hx)), ha⟩
  · exact ⟨h, ha⟩

theorem KindFrom.moveNumber3 (h : KindFrom x k s) (ha : x = a.address → a.kind = k) :
    KindFrom x k (moveNumber3 s a).1 := by
  unfold MeChain.moveNumber3
  split
  · have hmoved : KindFrom x k (moveToNext s a) :=
      KindFrom.setAccount (s := s.nextAccountNumber.2) h (fun hx => Or.inl (ha hx))
    exact hmoved.setAccount (a := airDropAccount Addr) (fun _ => Or.inr rfl)
  · exact h

theorem KindFrom.renumber (h : KindFrom x k s) (ha : x = a.address → a.kind = k) :
    KindFrom x k (renumber s a) := by
  have h2 := h.moveNumber2 ha
  have h1 := h2.1.moveNumber1 h2.2
  exact h1.1.moveNumber3 h1.2

end

/-- **After the run** an account that was stored has its kind, or has become a plain account. -/
theorem kindFrom_run {cfg : Config Addr} {ctx : Context} {s s' : App Addr}
    (h : resetExponent cfg ctx s = .ok s') {account : Account Addr}
    (hacc : account ∈ s.auth.getAllAccounts) :
    KindFrom account.address account.kind s'.auth := by
  have hstored : s.auth.kindAt account.address = some account.kind :=
    AuthState.kindAt_eq_some.mpr ⟨account, AuthState.mem_getAllAccounts.mp hacc, rfl⟩
  rcases resetExponent_auth h with ⟨hnil, _⟩ | ⟨s0, hmint, hauth⟩
  · rw [hnil] at hacc
    exact absurd hacc List.not_mem_nil
  · have h0 : KindFrom account.address account.kind s0 := by
      rcases hmint with ⟨_, rfl⟩ | ⟨hno, perms, rfl⟩
      · exact Or.inl hstored
      · -- the mint module account is created at an address where nothing is stored
        refine Or.inl ?_
        have hne : account.address ≠ newModuleAddress cfg.names.mint := by
          intro he
          have hhas := AuthState.hasAccount_iff.mpr
            ⟨account, AuthState.mem_getAllAccounts.mp hacc⟩
          rw [he, hno] at hhas
          cases hhas
        unfold AuthState.kindAt
        rw [AuthState.getAccount_create, if_neg hne]
        exact hstored
    rw [hauth]
    refine foldl_run (f := renumber) (I := fun _ t => KindFrom account.address account.kind t) h0 ?_
    intro done a rest t hl hI
    refine hI.renumber (fun hx => ?_)
    have hmem : a ∈ s.auth.getAllAccounts := by
      rw [hl]
      simp
    rw [Table.eq_of_key (t := s.auth.accounts) hmem hacc hx.symm]

/-! ## the locks -/

theorem lockedAmount_base {a : Account Addr} (h : a.kind = .base) (t : ℤ) (d : String) :
    a.lockedAmount t d = 0 := by
  simp only [Account.lockedAmount, h]

theorem lockedCoins_of_stored {s : App Addr} {x : Addr} {a : Account Addr}
    (h : s.auth.getAccount x = some a) (ctx : Context) (d : String) :
    s.lockedCoins ctx x d = a.lockedAmount ctx.blockTime d := by
  simp only [App.lockedCoins, h]

/-- nothing rescales a lock: it is what it was, or it is gone -/
theorem lockedCoins_run {cfg : Config Addr} {ctx : Context} {s s' : App Addr}
    (h : resetExponent cfg ctx s = .ok s') {account : Account Addr}
    (hacc : account ∈ s.auth.getAllAccounts) (later : Context) (d : String) :
    s'.lockedCoins later account.address d = account.lockedAmount later.blockTime d ∨
      s'.lockedCoins later account.address d = 0 := by
  rcases kindFrom_run h hacc with hk | hk
  · obtain ⟨a, ha, hkind⟩ := AuthState.kindAt_eq_some.mp hk
    rw [lockedCoins_of_stored ha]
    exact Or.inl (Account.lockedAmount_of_kind hkind _ _)
  · obtain ⟨a, ha, hkind⟩ := AuthState.kindAt_eq_some.mp hk
    rw [lockedCoins_of_stored ha]
    exact Or.inr (lockedAmount_base hkind _ _)

/-- What a change of precision should do to an account, seen from a later block: the umec locked in
it and the umec it can spend are both 100 times what they would have been. -/
structure LocksKept (s s' : App Addr) (a : Addr) (later : Context) : Prop where
  locked : s'.lockedCoins later a baseMEDenom = 100 * s.lockedCoins later a baseMEDenom
  spendable : s'.spendableCoins later a baseMEDenom = 100 * s.spendableCoins later a baseMEDenom

/-- **The lock of an account follows its balance exactly when nothing is locked.** -/
theorem locksKept_iff {cfg : Config Addr} {ctx : Context} {s s' : App Addr}
    (h : resetExponent cfg ctx s = .ok s') {account : Account Addr}
    (hacc : account ∈ s.auth.getAllAccounts) (later : Context) :
    LocksKept s s' account.address later ↔
      account.lockedAmount later.blockTime baseMEDenom = 0 := by
  have hstored := AuthState.mem_getAllAccounts.mp hacc
  have hbefore := lockedCoins_of_stored hstored later baseMEDenom
  have hafter := lockedCoins_run h hacc later baseMEDenom
  have hbalance : s'.bank.balance account.address baseMEDenom
      = 100 * s.bank.balance account.address baseMEDenom :=
    ledger_after h (fun _ => AuthState.hasAccount_iff.mpr ⟨account, hstored⟩)
  constructor
  · intro hkept
    have hlocked := hkept.locked
    rw [hbefore] at hlocked
    omega
  · intro hzero
    have hgone : s'.lockedCoins later account.address baseMEDenom = 0 := by
      omega
    refine ⟨?_, ?_⟩
    · rw [hgone, hbefore, hzero]
      rfl
    · unfold App.spendableCoins
      rw [hgone, hbefore, hzero, hbalance]
      ring

/-- 1000 umec that vest at time 100, held by a single account -/
def vestingAccount : Account String :=
  ⟨"me1vest", none, 7, 0, .delayedVesting ⟨[⟨"umec", 1000⟩], [], [], 100⟩, by intro _ _ h; cases h⟩

def vestingChain : App String :=
  { App.empty with
    auth := (⟨.empty, .empty, 10⟩ : AuthState String).setAccount vestingAccount
    bank := ⟨Table.empty.put ⟨"me1vest", "umec", 1000⟩, Table.empty.put ⟨"umec", 1000⟩⟩ }

theorem locksKept_vested :
    ∃ s', resetExponent (Config.fixed "me1admin" "me1dev") .first vestingChain = .ok s' ∧
      LocksKept vestingChain s' "me1vest" { Context.first with blockTime := 100 } := by
  obtain ⟨s', hs'⟩ := exists_ok_of_isOk (x := resetExponent (Config.fixed "me1admin" "me1dev") .first
    vestingChain) (by decide)
  have hmem : vestingAccount ∈ vestingChain.auth.getAllAccounts := List.mem_cons_self ..
  exact ⟨s', hs', (locksKept_iff hs' hmem { Context.first with blockTime := 100 }).mpr (by decide)⟩

/-- before the end of the vesting, 99 of every 100 umec that should be locked can be spent -/
theorem resetExponent_unlocks_vesting :
    ∃ s', resetExponent (Config.fixed "me1admin" "me1dev") .first vestingChain = .ok s' ∧
      s'.spendableCoins { Context.first with blockTime := 99 } "me1vest" baseMEDenom = 99000 ∧
      vestingChain.spendableCoins { Context.first with blockTime := 99 } "me1vest" baseMEDenom = 0 ∧
      ¬ LocksKept vestingChain s' "me1vest" { Context.first with blockTime := 99 } := by
  obtain ⟨s', hs', hspend⟩ := exists_ok_of_check
    (x := resetExponent (Config.fixed "me1admin" "me1dev") .first vestingChain)
    (p := fun s' => s'.spendableCoins { Context.first with blockTime := 99 } "me1vest" baseMEDenom
      = 99000) (by decide)
  have hnone : vestingChain.spendableCoins { Context.first with blockTime := 99 } "me1vest"
      baseMEDenom = 0 := by
    decide
  refine ⟨s', hs', hspend, hnone, fun hkept => ?_⟩
  have hsame := hkept.spendable
  rw [hspend, hnone] at hsame
  exact absurd hsame (by decide)

end MeChain
