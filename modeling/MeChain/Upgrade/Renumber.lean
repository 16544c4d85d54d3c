import MeChain.Upgrade.ResetExponent

/-!
# What `resetExponent` does to the account numbers

The bank calls of the loop change the account store once: the first `MintCoins` creates the mint
module account if there is none.  Everything else is `renumber`, folded over the accounts listed
before the loop.

* `renumber_cases`          the branches one account goes through;
* `renumber_spec`           the same by what they do to the numbers, the index and the counter;
* `getAccount_renumber`     what they do to the accounts;
* `resetExponent_auth`      the account store after a successful run.
-/

set_option linter.unusedSectionVars false

namespace MeChain
open Fallible

variable {Addr : Type} [SdkAddress Addr] [DecidableEq Addr]

/-! ## one account -/

/-- the address of the meid admin -/
def meidAdmin (Addr : Type) [SdkAddress Addr] : Addr := mustAccAddressFromBech32 meidAdminAddress

/-- the address of the air drop account -/
def airDrop (Addr : Type) [SdkAddress Addr] : Addr := mustAccAddressFromBech32 airDropAddress

def meidAdminAccount (Addr : Type) [SdkAddress Addr] : Account Addr :=
  (Account.newBaseAccountWithAddress (meidAdmin Addr)).setAccountNumber 1

def airDropAccount (Addr : Type) [SdkAddress Addr] : Account Addr :=
  (Account.newBaseAccountWithAddress (airDrop Addr)).setAccountNumber 3

/-- the account gets the next number -/
def moveToNext (s : AuthState Addr) (a : Account Addr) : AuthState Addr :=
  s.nextAccountNumber.2.setAccount (a.setAccountNumber s.globalAccountNumber)

/-- **The branches an account goes through.**  An account that has number 2 while number 3 is the
next one is moved twice. -/
theorem renumber_cases {s : AuthState Addr} {a : Account Addr}
    (h2 : a.accountNumber = 2 → 3 ≤ s.globalAccountNumber) :
    (a.accountNumber = 1 ∧
      renumber s a = (s.setAccount (meidAdminAccount Addr)).setAccount (a.setAccountNumber 2)) ∨
    (a.accountNumber = 2 ∧ 3 < s.globalAccountNumber ∧ renumber s a = moveToNext s a) ∨
    (∃ t, (a.accountNumber = 3 ∧ t = s ∨
        a.accountNumber = 2 ∧ s.globalAccountNumber = 3 ∧ t = moveToNext s a) ∧
      renumber s a = (moveToNext t a).setAccount (airDropAccount Addr)) ∨
    (a.accountNumber ≠ 1 ∧ a.accountNumber ≠ 2 ∧ a.accountNumber ≠ 3 ∧ renumber s a = s) := by
  by_cases n1 : a.accountNumber = 1
  · refine Or.inl ⟨n1, ?_⟩
    simp [renumber, moveNumber2, moveNumber1, moveNumber3, n1, meidAdminAccount, meidAdmin]
  by_cases n2 : a.accountNumber = 2
  · have hc := h2 n2
    by_cases c3 : s.globalAccountNumber = 3
    · refine Or.inr (Or.inr (Or.inl ⟨moveToNext s a, Or.inr ⟨n2, c3, rfl⟩, ?_⟩))
      simp [renumber, moveNumber2, moveNumber1, moveNumber3, n2, AuthState.nextAccountNumber, c3,
        moveToNext, airDropAccount, airDrop, Account.setAccountNumber]
    · refine Or.inr (Or.inl ⟨n2, by omega, ?_⟩)
      have c1 : s.globalAccountNumber ≠ 1 := by omega
      simp [renumber, moveNumber2, moveNumber1, moveNumber3, n2, AuthState.nextAccountNumber, c1, c3,
        moveToNext]
  by_cases n3 : a.accountNumber = 3
  · refine Or.inr (Or.inr (Or.inl ⟨s, Or.inl ⟨n3, rfl⟩, ?_⟩))
    simp [renumber, moveNumber2, moveNumber1, moveNumber3, n3, AuthState.nextAccountNumber,
      moveToNext, airDropAccount, airDrop]
  · refine Or.inr (Or.inr (Or.inr ⟨n1, n2, n3, ?_⟩))
    simp [renumber, moveNumber2, moveNumber1, moveNumber3, n1, n2, n3]

/-- an inner case that the outer one has already decided -/
theorem ite_ite_same {α : Type} (p : Prop) [Decidable p] (a b c : α) :
    (if p then a else if p then b else c) = if p then a else c := by
  by_cases h : p
  · rw [if_pos h, if_pos h]
  · rw [if_neg h, if_neg h, if_neg h]

theorem numberOf_moveToNext (s : AuthState Addr) (a : Account Addr) (x : Addr) :
    (moveToNext s a).numberOf x
      = if x = a.address then some s.globalAccountNumber else s.numberOf x := by
  rw [moveToNext, AuthState.numberOf_setAccount]
  rfl

theorem addressOf_moveToNext (s : AuthState Addr) (a : Account Addr) (n : Nat) :
    (moveToNext s a).addressOf n
      = if n = s.globalAccountNumber then some a.address else s.addressOf n := by
  rw [moveToNext, AuthState.addressOf_setAccount]
  rfl

/-- the same branches by what they do to the numbers, the index and the counter -/
theorem renumber_spec {s : AuthState Addr} {a : Account Addr}
    (h2 : a.accountNumber = 2 → 3 ≤ s.globalAccountNumber) :
    (a.accountNumber = 1 ∧ (renumber s a).globalAccountNumber = s.globalAccountNumber ∧
      (∀ x, (renumber s a).numberOf x = if x = a.address then some 2
        else if x = meidAdmin Addr then some 1 else s.numberOf x) ∧
      ∀ n, (renumber s a).addressOf n = if n = 2 then some a.address
        else if n = 1 then some (meidAdmin Addr) else s.addressOf n) ∨
    (a.accountNumber = 2 ∧ 3 < s.globalAccountNumber ∧
      (renumber s a).globalAccountNumber = s.globalAccountNumber + 1 ∧
      (∀ x, (renumber s a).numberOf x = if x = a.address then some s.globalAccountNumber
        else s.numberOf x) ∧
      ∀ n, (renumber s a).addressOf n = if n = s.globalAccountNumber then some a.address
        else s.addressOf n) ∨
    (∃ f, (a.accountNumber = 3 ∧ f = s.globalAccountNumber ∨
        a.accountNumber = 2 ∧ s.globalAccountNumber = 3 ∧ f = 4) ∧
      (renumber s a).globalAccountNumber = f + 1 ∧
      (∀ x, (renumber s a).numberOf x = if x = airDrop Addr then some 3
        else if x = a.address then some f else s.numberOf x) ∧
      ∀ n, (renumber s a).addressOf n = if n = 3 then some (airDrop Addr)
        else if n = f then some a.address else s.addressOf n) ∨
    (a.accountNumber ≠ 1 ∧ a.accountNumber ≠ 2 ∧ a.accountNumber ≠ 3 ∧ renumber s a = s) := by
  rcases renumber_cases h2 with ⟨h, e⟩ | ⟨h, hc, e⟩ | ⟨t, ht, e⟩ | h
  · refine Or.inl ⟨h, by rw [e]; rfl, fun x => ?_, fun n => ?_⟩
    · rw [e, AuthState.numberOf_setAccount, AuthState.numberOf_setAccount]
      rfl
    · rw [e, AuthState.addressOf_setAccount, AuthState.addressOf_setAccount]
      rfl
  · refine Or.inr (Or.inl ⟨h, hc, by rw [e]; rfl, fun x => ?_, fun n => ?_⟩)
    · rw [e, numberOf_moveToNext]
    · rw [e, addressOf_moveToNext]
  · refine Or.inr (Or.inr (Or.inl ⟨t.globalAccountNumber, ?_, by rw [e]; rfl, fun x => ?_,
      fun n => ?_⟩))
    · rcases ht with ⟨n3, rfl⟩ | ⟨n2, hc, rfl⟩
      · exact Or.inl ⟨n3, rfl⟩
      · exact Or.inr ⟨n2, hc, by show s.globalAccountNumber + 1 = 4; rw [hc]⟩
    · rw [e, AuthState.numberOf_setAccount, numberOf_moveToNext]
      rcases ht with ⟨_, rfl⟩ | ⟨_, _, rfl⟩
      · rfl
      · rw [numberOf_moveToNext, ite_ite_same]
        rfl
    · rw [e, AuthState.addressOf_setAccount, addressOf_moveToNext]
      rcases ht with ⟨_, rfl⟩ | ⟨_, hc, rfl⟩
      · rfl
      · rw [addressOf_moveToNext, hc]
        show (if n = 3 then some (airDrop Addr) else if n = s.globalAccountNumber + 1 then
          some a.address else if n = 3 then some a.address else s.addressOf n) = _
        by_cases hn : n = 3
        · rw [if_pos hn, if_pos hn]
        · rw [if_neg hn, if_neg hn, if_neg hn]
          rfl
  · exact Or.inr (Or.inr (Or.inr h))

/-- an account after a renumbering is the one it was, or the visited one under another number, or
one of the two new ones -/
theorem getAccount_renumber {s : AuthState Addr} {a : Account Addr}
    (h2 : a.accountNumber = 2 → 3 ≤ s.globalAccountNumber) (x : Addr) :
    (renumber s a).getAccount x = s.getAccount x ∨
    (x = a.address ∧ ∃ n, (renumber s a).getAccount x = some (a.setAccountNumber n)) ∨
    (x = meidAdmin Addr ∧ a.accountNumber = 1) ∨
    (x = airDrop Addr ∧ (a.accountNumber = 3 ∨
      a.accountNumber = 2 ∧ s.globalAccountNumber = 3)) := by
  rcases renumber_cases h2 with ⟨h, e⟩ | ⟨h, hc, e⟩ | ⟨t, ht, e⟩ | ⟨_, _, _, e⟩
  · rw [e, AuthState.getAccount_setAccount, AuthState.getAccount_setAccount]
    by_cases hx : x = a.address
    · exact Or.inr (Or.inl ⟨hx, 2, if_pos hx⟩)
    · by_cases hm : x = meidAdmin Addr
      · exact Or.inr (Or.inr (Or.inl ⟨hm, h⟩))
      · exact Or.inl ((if_neg hx).trans (if_neg hm))
  · rw [e, moveToNext, AuthState.getAccount_setAccount]
    by_cases hx : x = a.address
    · exact Or.inr (Or.inl ⟨hx, _, if_pos hx⟩)
    · exact Or.inl (if_neg hx)
  · have hd : a.accountNumber = 3 ∨ a.accountNumber = 2 ∧ s.globalAccountNumber = 3 :=
      ht.imp And.left (fun h => ⟨h.1, h.2.1⟩)
    have hs : x ≠ a.address → t.getAccount x = s.getAccount x := by
      intro hx
      rcases ht with ⟨_, rfl⟩ | ⟨_, _, rfl⟩
      · rfl
      · rw [moveToNext, AuthState.getAccount_setAccount]
        exact if_neg hx
    rw [e, AuthState.getAccount_setAccount, moveToNext, AuthState.getAccount_setAccount]
    by_cases hm : x = airDrop Addr
    · exact Or.inr (Or.inr (Or.inr ⟨hm, hd⟩))
    · have hm' : x ≠ (airDropAccount Addr).address := hm
      rw [if_neg hm']
      by_cases hx : x = a.address
      · exact Or.inr (Or.inl ⟨hx, _, if_pos hx⟩)
      · exact Or.inl ((if_neg hx).trans (hs hx))
  · exact Or.inl (by rw [e])

/-! ## the account store of the run -/

theorem hasAccount_setAccount {s : AuthState Addr} {a : Account Addr} {x : Addr}
    (h : s.hasAccount x = true) : (s.setAccount a).hasAccount x = true := by
  rw [AuthState.hasAccount_iff] at *
  rw [AuthState.getAccount_setAccount]
  by_cases hx : x = a.address
  · exact ⟨a, if_pos hx⟩
  · rw [if_neg hx]
    exact h

theorem hasAccount_renumber {s : AuthState Addr} {a : Account Addr} {x : Addr}
    (h : s.hasAccount x = true) : (renumber s a).hasAccount x = true := by
  have h2 : (moveNumber2 s a).1.hasAccount x = true := by
    unfold moveNumber2
    split
    · exact hasAccount_setAccount (s := s.nextAccountNumber.2) h
    · exact h
  have h1 (t : AuthState Addr) (b : Account Addr) (ht : t.hasAccount x = true) :
      (moveNumber1 t b).1.hasAccount x = true := by
    unfold moveNumber1
    split
    · exact hasAccount_setAccount (hasAccount_setAccount ht)
    · exact ht
  have h3 (t : AuthState Addr) (b : Account Addr) (ht : t.hasAccount x = true) :
      (moveNumber3 t b).1.hasAccount x = true := by
    unfold moveNumber3
    split
    · exact hasAccount_setAccount (hasAccount_setAccount (s := t.nextAccountNumber.2) ht)
    · exact ht
  exact h3 _ _ (h1 _ _ h2)

/-- the account store after the mint module account was looked up -/
def MintEnsured (n : ModuleNames) (s s0 : AuthState Addr) : Prop :=
  (s.hasAccount (newModuleAddress n.mint) = true ∧ s0 = s) ∨
  (s.hasAccount (newModuleAddress n.mint) = false ∧
    ∃ perms, s0 = s.createModuleAccount n.mint perms)

theorem mintEnsured_of_ok {n : ModuleNames} {s s0 : AuthState Addr} {acc : Account Addr}
    (h : AuthState.getModuleAccount n s n.mint = .ok (some acc, s0)) :
    MintEnsured n s s0 ∧ s0.hasAccount (newModuleAddress n.mint) = true := by
  rcases AuthState.getModuleAccount_ok h with ⟨_, h, _⟩ | ⟨b, _, _, hb, _, _, _, rfl⟩ |
    ⟨perms, _, hb, _, rfl⟩
  · cases h
  · have hs : s0.hasAccount (newModuleAddress n.mint) = true := AuthState.hasAccount_iff.mpr ⟨b, hb⟩
    exact ⟨Or.inl ⟨hs, rfl⟩, hs⟩
  · refine ⟨Or.inr ⟨?_, perms, rfl⟩, AuthState.hasAccount_iff.mpr
      ⟨(Account.newEmptyModuleAccount n.mint perms).setAccountNumber s.globalAccountNumber, ?_⟩⟩
    · rw [Bool.eq_false_iff]
      intro hs
      obtain ⟨b, hb'⟩ := AuthState.hasAccount_iff.mp hs
      rw [hb] at hb'
      cases hb'
    · rw [AuthState.getAccount_create, if_pos rfl]

/-- **The account store after a successful run**: the accounts renumbered one after the other, from
the store in which the mint module account exists. -/
theorem resetExponent_auth {cfg : Config Addr} {ctx : Context} {s s' : App Addr}
    (h : resetExponent cfg ctx s = .ok s') :
    (s.auth.getAllAccounts = [] ∧ s'.auth = s.auth) ∨
    ∃ s0, MintEnsured cfg.names s.auth s0 ∧ s'.auth = s.auth.getAllAccounts.foldl renumber s0 := by
  have hrun := foldlM_ok (I := fun done t =>
    (∀ x, s.auth.hasAccount x = true → t.auth.hasAccount x = true) ∧
    ((done = [] ∧ t.auth = s.auth) ∨
      ∃ s0, MintEnsured cfg.names s.auth s0 ∧ t.auth = done.foldl renumber s0 ∧
        t.auth.hasAccount (newModuleAddress cfg.names.mint) = true)) h
    ⟨fun _ h => h, Or.inl ⟨rfl, rfl⟩⟩ ?_
  · rcases hrun.2 with h | ⟨s0, h0, h, _⟩
    · exact Or.inl h
    · exact Or.inr ⟨s0, h0, h⟩
  · rintro done a rest t t' hl ⟨hmono, hI⟩ hstep
    obtain ⟨u, hu, rfl⟩ := resetExponentStep_ok hstep
    have ha : s.auth.getAccount a.address = some a := by
      refine AuthState.mem_getAllAccounts.mp ?_
      rw [hl]
      simp
    obtain ⟨b, hb⟩ := AuthState.hasAccount_iff.mp (hmono _ (AuthState.hasAccount_iff.mpr ⟨a, ha⟩))
    obtain ⟨acc, hacc⟩ := scaleBalances_auth hu hb
    obtain ⟨hmint, hstored⟩ := mintEnsured_of_ok hacc
    have hmono' : ∀ x, s.auth.hasAccount x = true →
        (renumber u.auth a).hasAccount x = true := by
      intro x hx
      obtain ⟨c, hc⟩ := AuthState.hasAccount_iff.mp (hmono x hx)
      exact hasAccount_renumber (AuthState.hasAccount_iff.mpr
        ⟨c, AuthState.getModuleAccount_mono hacc hc⟩)
    refine ⟨hmono', Or.inr ?_⟩
    rcases hI with ⟨rfl, ht⟩ | ⟨s0, h0, ht, hm⟩
    · rw [ht] at hmint
      exact ⟨u.auth, hmint, rfl, hasAccount_renumber hstored⟩
    · have hsame : u.auth = t.auth := by
        refine AuthState.getModuleAccount_same hacc ?_
        obtain ⟨c, hc⟩ := AuthState.hasAccount_iff.mp hm
        rw [hc]
        simp
      refine ⟨s0, h0, ?_, hasAccount_renumber hstored⟩
      rw [List.foldl_append, ← ht, ← hsame]
      rfl

end MeChain
