import MeChain.Payouts
import MeChain.Upgrade.Vesting

/-!
# What every payment keeps

* `Books`                  a well-formed bank, an account at every address that holds coins, and one
                          address in which nothing is locked;
* `debit_kept`, `credit_kept`   the two halves of a payment;
* `sendCoins_kept`, `inputOutputCoins_kept`   the payments of the bank keeper.

No payment takes coins from an address that is not among its senders.
-/

set_option linter.unusedSectionVars false

namespace MeChain
open Fallible

variable {Addr : Type} [SdkAddress Addr] [DecidableEq Addr]

/-! ## accounts -/

namespace AuthState
variable {s : AuthState Addr} {x y : Addr}

theorem hasAccount_ensure_self : (s.ensureAccount x).hasAccount x = true := by
  unfold ensureAccount
  split
  · rename_i h
    exact h
  · refine hasAccount_iff.mpr ⟨(s.newAccount (Account.newBaseAccountWithAddress x)).1, ?_⟩
    rw [getAccount_setAccount]
    exact if_pos rfl

theorem hasAccount_ensure (h : s.hasAccount y = true) : (s.ensureAccount x).hasAccount y = true := by
  unfold ensureAccount
  split
  · exact h
  · exact hasAccount_setAccount (s := s.nextAccountNumber.2) h

theorem kindAt_ensure {k : AccountKind} (h : (s.ensureAccount x).kindAt y = some k) :
    s.kindAt y = some k ∨ k = .base := by
  unfold ensureAccount at h
  split at h
  · exact Or.inl h
  · rw [kindAt_setAccount] at h
    by_cases hy : y = (s.newAccount (Account.newBaseAccountWithAddress x)).1.address
    · rw [if_pos hy] at h
      exact Or.inr (Option.some.inj h).symm
    · rw [if_neg hy] at h
      exact Or.inl h

end AuthState

/-- accounts of this kind lock nothing -/
def LockFree (Addr : Type) [SdkAddress Addr] (k : AccountKind) : Prop :=
  ∀ a : Account Addr, a.kind = k → ∀ t d, a.lockedAmount t d = 0

theorem lockFree_base : LockFree Addr .base := fun _ h t d => lockedAmount_base h t d

theorem lockFree_module (name : String) (perms : List String) :
    LockFree Addr (.module name perms) := fun _ h t d => Account.lockedAmount_module h t d

/-- whatever account is at the address locks nothing -/
def AuthState.UnlockedAt (s : AuthState Addr) (x : Addr) : Prop :=
  ∀ k, s.kindAt x = some k → LockFree Addr k

theorem AuthState.UnlockedAt.created {s : AuthState Addr} {x : Addr} (h : s.UnlockedAt x)
    (name : String) (perms : List String) : (s.createModuleAccount name perms).UnlockedAt x := by
  intro k hk
  obtain ⟨a, ha, rfl⟩ := kindAt_eq_some.mp hk
  rw [getAccount_create] at ha
  by_cases hx : x = newModuleAddress name
  · rw [if_pos hx] at ha
    cases ha
    exact lockFree_module name perms
  · rw [if_neg hx] at ha
    exact h _ (kindAt_eq_some.mpr ⟨a, ha, rfl⟩)

theorem AuthState.UnlockedAt.getModuleAccount {n : ModuleNames} {s s' : AuthState Addr} {x : Addr}
    {name : String} {r : Option (Account Addr)} (h : s.UnlockedAt x)
    (hacc : AuthState.getModuleAccount n s name = .ok (r, s')) : s'.UnlockedAt x := by
  rcases getModuleAccount_ok hacc with ⟨_, _, rfl⟩ | ⟨_, _, _, _, _, _, _, rfl⟩ | ⟨perms, _, _, _, rfl⟩
  · exact h
  · exact h
  · exact h.created name perms

theorem App.unlocked_iff {s : App Addr} {x : Addr} :
    (∀ ctx d, s.lockedCoins ctx x d = 0) ↔ s.auth.UnlockedAt x := by
  constructor
  · intro h k hk a ha t d
    obtain ⟨b, hb, hkind⟩ := AuthState.kindAt_eq_some.mp hk
    have hlock := h ⟨0, t, [], false, [], 0⟩ d
    rw [lockedCoins_of_stored hb] at hlock
    exact (Account.lockedAmount_of_kind (ha.trans hkind.symm) t d).trans hlock
  · intro h ctx d
    cases hget : s.auth.getAccount x with
    | none => simp only [App.lockedCoins, hget]
    | some a =>
      rw [lockedCoins_of_stored hget]
      exact h a.kind (AuthState.kindAt_eq_some.mpr ⟨a, hget, rfl⟩) a rfl _ d

/-! ## payments -/

/-- what payments keep of bank and accounts -/
structure Books (x : Addr) (s : App Addr) : Prop where
  bank : s.bank.WellFormed
  stored : ∀ a d, s.bank.balance a d ≠ 0 → s.auth.hasAccount a = true
  unlocked : s.auth.UnlockedAt x

section
variable {ctx : Context} {s s' : App Addr} {x y z : Addr} {amt : Coins} {b : BankState Addr}

theorem balance_credit {L : Ledger Addr String} {c : String → ℤ} (h : b.ledger = L.credit y c)
    (a : Addr) (d : String) : b.balance a d = L a d + if a = y then c d else 0 := by
  have hl := congrFun (congrFun h a) d
  exact hl.trans (Ledger.credit_apply ..)

theorem debit_kept (h : Books x s) {locked : String → ℤ}
    (hb : s.bank.subUnlockedCoins locked y amt = .ok b) :
    Books x { s with bank := b } ∧ (∀ a d, a ≠ y → b.balance a d = s.bank.balance a d) ∧
      b.supply = s.bank.supply := by
  have hwf := h.bank.subUnlockedCoins hb
  obtain ⟨hv, hl, _, hsupply⟩ := BankState.subUnlockedCoins_ok hb
  have hother : ∀ a d, a ≠ y → b.balance a d = s.bank.balance a d := by
    intro a d hne
    rw [balance_credit hl, if_neg hne, add_zero]
    rfl
  refine ⟨⟨hwf, fun a d hne => ?_, h.unlocked⟩, hother, hsupply⟩
  by_cases ha : a = y
  · refine h.stored a d (fun hzero => hne ?_)
    -- nothing was there, so nothing was taken
    have hnonneg : 0 ≤ b.balance a d := hwf.nonneg a d
    have hamt : 0 ≤ amt.amountOf d := Coins.amountOf_nonneg (fun c hc => (hv.1 c hc).2.le) d
    have hbal : b.balance a d = s.bank.balance a d + - amt.amountOf d := by
      rw [balance_credit hl, if_pos ha]
      rfl
    show b.balance a d = 0
    omega
  · exact h.stored a d (fun hzero => hne ((hother a d ha).trans hzero))

theorem credit_kept (h : Books x s) (hb : s.bank.addCoins z amt = .ok b) :
    Books x { s with bank := b, auth := s.auth.ensureAccount z } ∧
      (∀ a d, s.bank.balance a d ≤ b.balance a d) ∧ b.supply = s.bank.supply := by
  obtain ⟨hv, hl, _, hsupply⟩ := BankState.addCoins_ok hb
  refine ⟨⟨h.bank.addCoins hb, fun a d hne => ?_, fun k hk => ?_⟩, fun a d => ?_, hsupply⟩
  · by_cases ha : a = z
    · rw [ha]
      exact AuthState.hasAccount_ensure_self
    · have hsame : b.balance a d = s.bank.balance a d := by
        rw [balance_credit hl, if_neg ha, add_zero]
        rfl
      exact AuthState.hasAccount_ensure (h.stored a d (fun hzero => hne (hsame.trans hzero)))
  · rcases AuthState.kindAt_ensure hk with hk | rfl
    · exact h.unlocked k hk
    · exact lockFree_base
  · have hamt : 0 ≤ amt.amountOf d := Coins.amountOf_nonneg (fun c hc => (hv.1 c hc).2.le) d
    have hbal : b.balance a d = s.bank.balance a d + if a = z then amt.amountOf d else 0 :=
      balance_credit hl a d
    split_ifs at hbal <;> omega

/-- what a payment changes: bank and accounts, and nothing is taken from an address that does not
send -/
structure Pays (senders : Addr → Prop) (s s' : App Addr) : Prop where
  supply : s'.bank.supply = s.bank.supply
  receives : ∀ a d, ¬ senders a → s.bank.balance a d ≤ s'.bank.balance a d
  staking : s'.staking = s.staking
  distr : s'.distr = s.distr

theorem sendCoins_kept (h : Books x s) (hsend : App.sendCoins ctx s y z amt = .ok s') :
    Books x s' ∧ Pays (· = y) s s' := by
  obtain ⟨b, hb, hsend⟩ := bind_eq_ok.mp hsend
  obtain ⟨b', hb', hsend⟩ := bind_eq_ok.mp hsend
  cases hsend
  obtain ⟨hdebit, hother, hsub⟩ := debit_kept h hb
  obtain ⟨hcredit, hle, hadd⟩ := credit_kept hdebit hb'
  refine ⟨hcredit, hadd.trans hsub, fun a d hne => ?_, rfl, rfl⟩
  exact (hother a d hne).symm.le.trans (hle a d)

theorem getModuleAccount_kept {n : ModuleNames} {name : String} {r : Option (Account Addr)}
    {auth : AuthState Addr} (h : Books x s)
    (hacc : AuthState.getModuleAccount n s.auth name = .ok (r, auth)) :
    Books x { s with auth := auth } := by
  refine ⟨h.bank, fun a d hne => ?_, h.unlocked.getModuleAccount hacc⟩
  obtain ⟨b, hb⟩ := AuthState.hasAccount_iff.mp (h.stored a d hne)
  exact AuthState.hasAccount_iff.mpr ⟨b, AuthState.getModuleAccount_mono hacc hb⟩

/-- a payment of several senders and receivers, one after the other -/
theorem inputOutputCoins_kept (h : Books x s) {inputs outputs : List InOut}
    (hio : App.inputOutputCoins ctx s inputs outputs = .ok s') :
    Books x s' ∧ Pays (fun a => ∃ io ∈ inputs, App.bech32 io.address = .ok a) s s' := by
  obtain ⟨_, _, hio⟩ := bind_eq_ok.mp hio
  obtain ⟨t, hin, hout⟩ := bind_eq_ok.mp hio
  have hdebits : Books x t ∧ Pays (fun a => ∃ io ∈ inputs, App.bech32 io.address = .ok a) s t := by
    refine foldlM_ok (I := fun done t => Books x t ∧
      Pays (fun a => ∃ io ∈ done, App.bech32 io.address = .ok a) s t) hin
      ⟨h, rfl, fun _ _ _ => le_rfl, rfl, rfl⟩ ?_
    intro done io rest t t' _ hI hstep
    obtain ⟨a, ha, hstep⟩ := bind_eq_ok.mp hstep
    obtain ⟨b, hb, hstep⟩ := bind_eq_ok.mp hstep
    cases hstep
    obtain ⟨hkept, hother, hsupply⟩ := debit_kept hI.1 hb
    refine ⟨hkept, hsupply.trans hI.2.supply, fun y d hy => ?_, hI.2.staking, hI.2.distr⟩
    have hya : y ≠ a := fun he => hy ⟨io, by simp, he ▸ ha⟩
    have hdone : ¬ ∃ io ∈ done, App.bech32 io.address = .ok y := fun hex => by
      obtain ⟨io', hio', hy'⟩ := hex
      exact hy ⟨io', List.mem_append_left _ hio', hy'⟩
    exact (hI.2.receives y d hdone).trans (hother y d hya).symm.le
  refine foldlM_ok (I := fun _ t => Books x t ∧
    Pays (fun a => ∃ io ∈ inputs, App.bech32 io.address = .ok a) s t) hout hdebits ?_
  intro done io rest t t' _ hI hstep
  obtain ⟨a, _, hstep⟩ := bind_eq_ok.mp hstep
  obtain ⟨b, hb, hstep⟩ := bind_eq_ok.mp hstep
  cases hstep
  obtain ⟨hkept, hle, hsupply⟩ := credit_kept hI.1 hb
  exact ⟨hkept, hsupply.trans hI.2.supply, fun y d hy => (hI.2.receives y d hy).trans (hle y d),
    hI.2.staking, hI.2.distr⟩

end

end MeChain
