import MeChain.Bank
import MeChain.Staking

/-!
# `resetExponent`: the balances of every account times 100, and three account numbers moved

The loop visits the accounts listed before it started.  For each one it mints 99 times what the
account holds into the mint module account and sends it on, then moves the account numbers 1, 2
and 3.

* `scaleBalances_ok`   one account: its holdings become 100 times what they were, the supply follows,
                       and the mint module account nets to zero;
* `scaleBalances_auth` the account store is the one `MintCoins` leaves, if the account is stored;
* `resetExponentStep_ok`  one iteration.
-/

set_option linter.unusedSectionVars false

namespace MeChain
open Fallible

def meidAdminAddress : String := "me1jy4sl7pq7vwsmap0f4ylq7hst4nejjk3fa6avs"
def airDropAddress : String := "me1w4tjt9pupkuzk0mgcz9ajp7nn96dm4uwxpvhl7"
def exponentMultiplier : ℤ := 100

variable {Addr : Type} [SdkAddress Addr] [DecidableEq Addr]

/-- what is minted for one balance: 100 times the balance less the balance -/
def mintBalance (balance : Coin) : Res Coin := do
  let scaled ← SdkInt.mul balance.amount exponentMultiplier
  let amount ← SdkInt.sub scaled balance.amount
  .ok { balance with amount := amount }

/-- the bank part of one iteration -/
def scaleBalances (cfg : Config Addr) (ctx : Context) (s : App Addr) (account : Account Addr) :
    Res (App Addr) := do
  let mintBalances ← (s.bank.getAllBalances account.address).mapM mintBalance
  let s ← s.mintCoins cfg cfg.names.mint mintBalances
  match account.kind with
  | .module name _ => s.sendCoinsFromModuleToModule cfg ctx cfg.names.mint name mintBalances
  | _ => s.sendCoinsFromModuleToAccount cfg ctx cfg.names.mint account.address mintBalances

/-! ### account numbers -/

/-- account number 2 moves to the next account number -/
def moveNumber2 (s : AuthState Addr) (account : Account Addr) : AuthState Addr × Account Addr :=
  if account.accountNumber = 2 then
    let next := s.nextAccountNumber
    let account := account.setAccountNumber next.1
    (next.2.setAccount account, account)
  else (s, account)

/-- the meid admin gets account number 1, the account that had it gets number 2 -/
def moveNumber1 (s : AuthState Addr) (account : Account Addr) : AuthState Addr × Account Addr :=
  if account.accountNumber = 1 then
    let meidAdmin := (Account.newBaseAccountWithAddress
      (mustAccAddressFromBech32 meidAdminAddress)).setAccountNumber 1
    let s := s.setAccount meidAdmin
    let account := account.setAccountNumber 2
    (s.setAccount account, account)
  else (s, account)

/-- account number 3 moves to the next account number, the air drop account gets number 3 -/
def moveNumber3 (s : AuthState Addr) (account : Account Addr) : AuthState Addr × Account Addr :=
  if account.accountNumber = 3 then
    let next := s.nextAccountNumber
    let account := account.setAccountNumber next.1
    let s := next.2.setAccount account
    let airDropAccount := (Account.newBaseAccountWithAddress
      (mustAccAddressFromBech32 airDropAddress)).setAccountNumber 3
    (s.setAccount airDropAccount, account)
  else (s, account)

/-- the three branches in sequence, on one account object -/
def renumber (s : AuthState Addr) (account : Account Addr) : AuthState Addr :=
  let r := moveNumber2 s account
  let r := moveNumber1 r.1 r.2
  (moveNumber3 r.1 r.2).1

def resetExponentStep (cfg : Config Addr) (ctx : Context) (s : App Addr) (account : Account Addr) :
    Res (App Addr) := do
  let s ← scaleBalances cfg ctx s account
  .ok { s with auth := renumber s.auth account }

def resetExponent (cfg : Config Addr) (ctx : Context) (s : App Addr) : Res (App Addr) :=
  s.auth.getAllAccounts.foldlM (resetExponentStep cfg ctx) s

/-! ## one iteration -/

theorem mintBalance_ok {c c' : Coin} (h : mintBalance c = .ok c') :
    c' = { c with amount := 99 * c.amount } := by
  obtain ⟨x, hx, h⟩ := bind_eq_ok.mp h
  obtain ⟨y, hy, h⟩ := bind_eq_ok.mp h
  obtain ⟨_, rfl⟩ := SdkInt.mul_ok.mp hx
  obtain ⟨_, rfl⟩ := SdkInt.sub_ok.mp hy
  cases h
  congr 1
  show c.amount * 100 - c.amount = 99 * c.amount
  ring

theorem mintBalances_ok {cs cs' : Coins} (h : cs.mapM mintBalance = .ok cs') :
    cs' = cs.map fun c => { c with amount := 99 * c.amount } := by
  induction cs generalizing cs' with
  | nil => cases h; rfl
  | cons c cs ih =>
    obtain ⟨c', cs'', hc, hcs, rfl⟩ := mapM_cons_ok.mp h
    rw [mintBalance_ok hc, ih hcs, List.map_cons]

theorem amountOf_mintBalances {b : BankState Addr} {a : Addr} {cs : Coins}
    (h : (b.getAllBalances a).mapM mintBalance = .ok cs) (d : String) :
    cs.amountOf d = 99 * b.balance a d := by
  rw [mintBalances_ok h, Coins.amountOf_map_mul, BankState.amountOf_getAllBalances]

/-- both ways of sending the minted coins are a transfer from the mint module to the account -/
theorem sendMinted_ok {cfg : Config Addr} {ctx : Context} {s s' : App Addr} {account : Account Addr}
    {amt : Coins}
    (h : (match account.kind with
      | .module name _ => s.sendCoinsFromModuleToModule cfg ctx cfg.names.mint name amt
      | _ => s.sendCoinsFromModuleToAccount cfg ctx cfg.names.mint account.address amt) = .ok s') :
    ∃ auth, (auth = s.auth ∨ ∃ name perms acc, account.kind = .module name perms ∧
        AuthState.getModuleAccount cfg.names s.auth name = .ok (some acc, auth)) ∧
      App.sendCoins ctx { s with auth := auth } (newModuleAddress cfg.names.mint) account.address amt
        = .ok s' := by
  cases hk : account.kind with
  | module name perms =>
    simp only [hk] at h
    obtain ⟨acc, auth, hacc, hsend⟩ := App.sendCoinsFromModuleToModule_ok h
    refine ⟨auth, Or.inr ⟨name, perms, acc, rfl, hacc⟩, ?_⟩
    rw [account.moduleAddress name perms hk]
    exact hsend
  | _ =>
    simp only [hk] at h
    exact ⟨s.auth, Or.inl rfl, (App.sendCoinsFromModuleToAccount_ok h).2⟩

/-- **One account scaled**: it is credited 99 times what it holds, in every denomination; no other
account changes, whatever the account is. -/
theorem scaleBalances_ok {cfg : Config Addr} {ctx : Context} {s s' : App Addr}
    {account : Account Addr} (h : scaleBalances cfg ctx s account = .ok s') :
    ∃ b auth, s' = { s with bank := b, auth := auth } ∧
      b.ledger = s.bank.ledger.credit account.address
        (fun d => 99 * s.bank.balance account.address d) ∧
      (∀ d, b.total d = s.bank.total d + 99 * s.bank.balance account.address d) ∧
      (∀ d, b.supplyOf d = s.bank.supplyOf d + 99 * s.bank.balance account.address d) := by
  obtain ⟨amt, hamt, h⟩ := bind_eq_ok.mp h
  obtain ⟨s1, hmint, h⟩ := bind_eq_ok.mp h
  have hd := amountOf_mintBalances hamt
  obtain ⟨b1, _, auth1, _, rfl, l1, t1, p1⟩ := App.mintCoins_ok hmint
  obtain ⟨auth2, _, hsend⟩ := sendMinted_ok h
  obtain ⟨b2, rfl, l2, t2, p2⟩ := App.sendCoins_ok hsend
  refine ⟨b2, _, rfl, ?_, fun d => ?_, fun d => ?_⟩
  · have hz : (fun d => Coins.amountOf amt d + -Coins.amountOf amt d) = fun _ => (0 : ℤ) := by
      funext d
      ring
    rw [l2, l1, Ledger.credit_credit, hz, Ledger.credit_zero]
    congr 1
    funext d
    exact hd d
  · rw [t2, t1, hd]
  · rw [BankState.supplyOf, p2]
    exact (p1 d).trans (by rw [hd])

/-- when the account is stored, the account store afterwards is the one that `MintCoins` leaves -/
theorem scaleBalances_auth {cfg : Config Addr} {ctx : Context} {s s' : App Addr}
    {account a : Account Addr} (h : scaleBalances cfg ctx s account = .ok s')
    (hs : s.auth.getAccount account.address = some a) :
    ∃ acc, AuthState.getModuleAccount cfg.names s.auth cfg.names.mint = .ok (some acc, s'.auth) := by
  obtain ⟨amt, _, h⟩ := bind_eq_ok.mp h
  obtain ⟨s1, hmint, h⟩ := bind_eq_ok.mp h
  obtain ⟨b1, acc, auth1, hacc, rfl, _, _, _⟩ := App.mintCoins_ok hmint
  obtain ⟨auth2, hauth, hsend⟩ := sendMinted_ok h
  obtain ⟨b2, rfl, _, _, _⟩ := App.sendCoins_ok hsend
  have hstored : auth1.getAccount account.address = some a := AuthState.getModuleAccount_mono hacc hs
  have h2 : auth2 = auth1 := by
    rcases hauth with rfl | ⟨name, perms, acc2, hk, hacc2⟩
    · rfl
    · refine AuthState.getModuleAccount_same hacc2 ?_
      rw [← account.moduleAddress name perms hk]
      show auth1.getAccount account.address ≠ none
      rw [hstored]
      simp
  refine ⟨acc, ?_⟩
  show _ = Except.ok (some acc, auth2.ensureAccount account.address)
  rw [h2, AuthState.ensureAccount_of_stored hstored]
  exact hacc

theorem resetExponentStep_ok {cfg : Config Addr} {ctx : Context} {s s' : App Addr}
    {account : Account Addr} (h : resetExponentStep cfg ctx s account = .ok s') :
    ∃ t, scaleBalances cfg ctx s account = .ok t ∧
      s' = { t with auth := renumber t.auth account } := by
  obtain ⟨t, ht, h⟩ := bind_eq_ok.mp h
  cases h
  exact ⟨t, ht, rfl⟩

end MeChain
