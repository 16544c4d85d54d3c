import Mathlib.Algebra.BigOperators.Group.Finset.Sigma
import Mathlib.Data.List.Sort
import Mathlib.Data.String.Basic
import MeChain.Auth
import MeChain.Lib.Ledger

/-!
# The bank keeper

The balances are a table of (address, denomination) rows.  `BankState.ledger` reads them as a
ledger, and every operation is proved to be a credit of that ledger:

* `addCoins_ok`, `subUnlockedCoins_ok`   one account is credited, respectively debited;
* `sendCoins_ok`                         a debit and a credit of the same coins;
* `mintCoins_ok`                         a credit that the supply follows;
* `inputOutputCoins_ok`                  the inputs are debited and the outputs credited.

`BankState.total` is the sum of the stored balances of one denomination.
-/

set_option linter.unusedSectionVars false

namespace MeChain
open Fallible

variable {Addr : Type} [SdkAddress Addr] [DecidableEq Addr]

namespace BankState

/-- `GetBalance` -/
def balance (b : BankState Addr) (a : Addr) (d : String) : ℤ :=
  b.balances.valueAt Balance.amount (a, d)

/-- `GetSupply` -/
def supplyOf (b : BankState Addr) (d : String) : ℤ := b.supply.valueAt Coin.amount d

/-- the sum of all stored balances of one denomination -/
def total (b : BankState Addr) (d : String) : ℤ :=
  b.balances.sum (fun r => if r.denom = d then r.amount else 0)

/-- `GetAllBalances`: the coins of one account, in the order of their denominations -/
def getAllBalances (b : BankState Addr) (a : Addr) : Coins :=
  ((b.balances.rows.filter (fun r => r.address = a)).map fun r => ⟨r.denom, r.amount⟩).insertionSort
    (fun x y => x.denom ≤ y.denom)

/-- `setBalance` stores no zero balance -/
def setBalance (b : BankState Addr) (a : Addr) (c : Coin) : Res (BankState Addr) :=
  if ¬ (validDenom c.denom = true ∧ 0 ≤ c.amount) then goError .invalidCoins c.denom
  else if c.amount = 0 then .ok { b with balances := b.balances.del (a, c.denom) }
  else .ok { b with balances := b.balances.put ⟨a, c.denom, c.amount⟩ }

/-- `setSupply` stores no zero supply -/
def setSupply (b : BankState Addr) (c : Coin) : BankState Addr :=
  if c.amount = 0 then { b with supply := b.supply.del c.denom }
  else { b with supply := b.supply.put c }

def addCoin (a : Addr) (b : BankState Addr) (c : Coin) : Res (BankState Addr) := do
  let newBalance ← SdkInt.add (b.balance a c.denom) c.amount
  b.setBalance a ⟨c.denom, newBalance⟩

def addCoins (b : BankState Addr) (a : Addr) (amt : Coins) : Res (BankState Addr) :=
  if ¬ amt.IsValid then goError .invalidCoins amt.str
  else amt.foldlM (addCoin a) b

/-- `locked` gives the locked amount of each denomination -/
def subUnlockedCoin (locked : String → ℤ) (a : Addr) (b : BankState Addr) (c : Coin) :
    Res (BankState Addr) :=
  if b.balance a c.denom < locked c.denom then
    goError .insufficientFunds "locked amount exceeds account balance funds"
  else if b.balance a c.denom - locked c.denom < c.amount then
    goError .insufficientFunds "spendable balance is smaller than the amount"
  else do
    let newBalance ← SdkInt.sub (b.balance a c.denom) c.amount
    b.setBalance a ⟨c.denom, newBalance⟩

def subUnlockedCoins (b : BankState Addr) (locked : String → ℤ) (a : Addr) (amt : Coins) :
    Res (BankState Addr) :=
  if ¬ amt.IsValid then goError .invalidCoins amt.str
  else amt.foldlM (subUnlockedCoin locked a) b

def addSupply (b : BankState Addr) (c : Coin) : Res (BankState Addr) := do
  let supply ← SdkInt.add (b.supplyOf c.denom) c.amount
  .ok (b.setSupply ⟨c.denom, supply⟩)

/-- the balances as a ledger -/
def ledger (b : BankState Addr) : Ledger Addr String := b.balance

/-! ## reads -/

theorem amountOf_perm {a b : Coins} (h : a.Perm b) (d : String) : a.amountOf d = b.amountOf d :=
  (h.map _).sum_eq

theorem getAllBalances_perm (b : BankState Addr) (a : Addr) :
    (b.getAllBalances a).Perm
      ((b.balances.rows.filter (fun r => r.address = a)).map fun r => ⟨r.denom, r.amount⟩) :=
  List.perm_insertionSort _ _

theorem amountOf_rows (rows : List (Balance Addr)) (a : Addr) (d : String) :
    Coins.amountOf ((rows.filter (fun r => r.address = a)).map fun r => ⟨r.denom, r.amount⟩) d
      = (rows.map (fun r => if r.key = (a, d) then r.amount else 0)).sum := by
  induction rows with
  | nil => rfl
  | cons r rows ih =>
    rw [List.map_cons, List.sum_cons, ← ih]
    by_cases ha : r.address = a
    · rw [List.filter_cons_of_pos (by simpa using ha), List.map_cons, Coins.amountOf_cons]
      by_cases hd : r.denom = d
      · simp [Balance.key, ha, hd]
      · simp [Balance.key, hd]
    · rw [List.filter_cons_of_neg (by simpa using ha)]
      simp [Balance.key, ha]

theorem amountOf_getAllBalances (b : BankState Addr) (a : Addr) (d : String) :
    (b.getAllBalances a).amountOf d = b.balance a d := by
  rw [amountOf_perm (b.getAllBalances_perm a), amountOf_rows]
  exact Table.sum_single b.balances Balance.amount (a, d)

theorem valueAt_denom (b : BankState Addr) (a : Addr) (d e : String) :
    b.balances.valueAt (fun r => if r.denom = d then r.amount else 0) (a, e)
      = if e = d then b.balance a e else 0 := by
  unfold balance Table.valueAt
  cases hg : b.balances.get (a, e) with
  | none => simp
  | some r =>
    have hk : r.denom = e := congrArg Prod.snd (Table.get_key hg)
    simp [hk]

/-- the sum of the stored balances is the total of the ledger over the accounts that have rows -/
theorem total_eq_ledger (b : BankState Addr) {S : Finset Addr}
    (hS : ∀ r ∈ b.balances.rows, r.address ∈ S) (d : String) :
    b.total d = Ledger.total b.ledger S d := by
  let D : Finset String := insert d (b.balances.rows.map Balance.denom).toFinset
  have hk : ∀ k ∈ b.balances.keys, k ∈ S ×ˢ D := by
    intro k hk
    obtain ⟨r, hr, rfl⟩ := List.mem_map.mp hk
    refine Finset.mem_product.mpr ⟨hS r hr, Finset.mem_insert_of_mem ?_⟩
    exact List.mem_toFinset.mpr (List.mem_map_of_mem hr)
  unfold total Ledger.total
  rw [Table.sum_eq_finset _ _ hk, Finset.sum_product]
  refine Finset.sum_congr rfl (fun a _ => ?_)
  simp only [valueAt_denom]
  rw [Finset.sum_ite_eq' D d (fun e => b.balance a e), if_pos (Finset.mem_insert_self _ _)]
  rfl

theorem exists_row_of_balance {b : BankState Addr} {a : Addr} {d : String}
    (h : b.balance a d ≠ 0) : ∃ r ∈ b.balances.rows, r.address = a ∧ r.denom = d := by
  cases hg : b.balances.get (a, d) with
  | none => exact absurd (Table.valueAt_none hg) h
  | some r =>
    have hk : r.key = (a, d) := Table.get_key hg
    rw [Balance.key, Prod.mk.injEq] at hk
    exact ⟨r, Table.mem_of_get hg, hk⟩

/-! ## one balance -/

theorem setBalance_write {b b' : BankState Addr} {a : Addr} {c : Coin}
    (h : b.setBalance a c = .ok b') :
    0 ≤ c.amount ∧ b'.supply = b.supply ∧
    (∀ x d, b'.balance x d = if x = a ∧ d = c.denom then c.amount else b.balance x d) ∧
    (∀ d, b'.total d + (if c.denom = d then b.balance a c.denom else 0)
      = b.total d + if c.denom = d then c.amount else 0) := by
  unfold setBalance at h
  obtain ⟨hc, h⟩ := guard_eq_ok.mp h
  rw [not_not] at hc
  by_cases h0 : c.amount = 0
  · rw [if_pos h0] at h
    cases h
    refine ⟨hc.2, rfl, fun x d => ?_, fun d => ?_⟩
    · simp only [balance, Table.valueAt_del, Prod.mk.injEq, h0]
    · rw [← valueAt_denom, h0, ite_self, add_zero]
      exact Table.sum_del b.balances _ (a, c.denom)
  · rw [if_neg h0] at h
    cases h
    refine ⟨hc.2, rfl, fun x d => ?_, fun d => ?_⟩
    · simp only [balance, Table.valueAt_put, Balance.key, Prod.mk.injEq]
    · rw [← valueAt_denom]
      exact Table.sum_put b.balances _ ⟨a, c.denom, c.amount⟩

theorem setBalance_credit {b b' : BankState Addr} {a : Addr} {d : String} {x : ℤ}
    (h : b.setBalance a ⟨d, b.balance a d + x⟩ = .ok b') :
    b'.ledger = b.ledger.credit a (fun e => if d = e then x else 0) ∧
    (∀ e, b'.total e = b.total e + if d = e then x else 0) ∧ b'.supply = b.supply := by
  obtain ⟨_, hs, hb, ht⟩ := setBalance_write h
  refine ⟨?_, fun e => ?_, hs⟩
  · funext y e
    show b'.balance y e = _
    rw [hb, Ledger.credit_apply]
    by_cases hy : y = a
    · by_cases he : d = e
      · rw [if_pos ⟨hy, he.symm⟩, if_pos hy, if_pos he, hy, ← he]
        rfl
      · rw [if_neg (fun h => he h.2.symm), if_pos hy, if_neg he, add_zero]
        rfl
    · rw [if_neg (fun h => hy h.1), if_neg hy, add_zero]
      rfl
  · have he := ht e
    by_cases hd : d = e
    · simp only [hd, if_true] at he ⊢
      omega
    · simp only [hd, if_false] at he ⊢
      omega

/-! ## coins in and out of an account -/

theorem foldlM_credit {f : BankState Addr → Coin → Res (BankState Addr)} {a : Addr} {k : ℤ}
    (hf : ∀ b c b', f b c = .ok b' →
      b'.ledger = b.ledger.credit a (fun d => if c.denom = d then k * c.amount else 0) ∧
      (∀ d, b'.total d = b.total d + if c.denom = d then k * c.amount else 0) ∧
      b'.supply = b.supply)
    {amt : Coins} {b b' : BankState Addr} (h : amt.foldlM f b = .ok b') :
    b'.ledger = b.ledger.credit a (fun d => k * amt.amountOf d) ∧
    (∀ d, b'.total d = b.total d + k * amt.amountOf d) ∧ b'.supply = b.supply := by
  induction amt generalizing b with
  | nil =>
    rw [foldlM_nil_ok] at h
    subst h
    simp
  | cons c amt ih =>
    obtain ⟨t, ht, hrest⟩ := foldlM_cons_ok.mp h
    obtain ⟨h1, h2, h3⟩ := hf b c t ht
    obtain ⟨i1, i2, i3⟩ := ih hrest
    have hsum (d : String) : (if c.denom = d then k * c.amount else 0) + k * Coins.amountOf amt d
        = k * Coins.amountOf (c :: amt) d := by
      rw [Coins.amountOf_cons]
      split <;> ring
    refine ⟨?_, fun d => ?_, i3.trans h3⟩
    · rw [i1, h1, Ledger.credit_credit]
      simp only [hsum]
    · rw [i2, h2, add_assoc, hsum]

theorem addCoins_ok {b b' : BankState Addr} {a : Addr} {amt : Coins}
    (h : b.addCoins a amt = .ok b') :
    amt.IsValid ∧ b'.ledger = b.ledger.credit a amt.amountOf ∧
    (∀ d, b'.total d = b.total d + amt.amountOf d) ∧ b'.supply = b.supply := by
  unfold addCoins at h
  obtain ⟨hv, h⟩ := guard_eq_ok.mp h
  have hr := foldlM_credit (k := 1) (a := a) (f := addCoin a) (fun b c b' hb => by
    obtain ⟨x, hx, hset⟩ := bind_eq_ok.mp hb
    obtain ⟨_, rfl⟩ := SdkInt.add_ok.mp hx
    simpa using setBalance_credit hset) h
  simp only [one_mul] at hr
  exact ⟨not_not.mp hv, hr⟩

theorem subUnlockedCoins_ok {b b' : BankState Addr} {locked : String → ℤ} {a : Addr} {amt : Coins}
    (h : b.subUnlockedCoins locked a amt = .ok b') :
    amt.IsValid ∧ b'.ledger = b.ledger.credit a (fun d => - amt.amountOf d) ∧
    (∀ d, b'.total d = b.total d - amt.amountOf d) ∧ b'.supply = b.supply := by
  unfold subUnlockedCoins at h
  obtain ⟨hv, h⟩ := guard_eq_ok.mp h
  have hr := foldlM_credit (k := -1) (a := a) (f := subUnlockedCoin locked a) (fun b c b' hb => by
    unfold subUnlockedCoin at hb
    obtain ⟨_, hb⟩ := guard_eq_ok.mp hb
    obtain ⟨_, hb⟩ := guard_eq_ok.mp hb
    obtain ⟨x, hx, hset⟩ := bind_eq_ok.mp hb
    obtain ⟨_, rfl⟩ := SdkInt.sub_ok.mp hx
    rw [sub_eq_add_neg] at hset
    simpa using setBalance_credit hset) h
  simp only [neg_mul, one_mul, ← sub_eq_add_neg] at hr
  exact ⟨not_not.mp hv, hr⟩

/-! ## the supply -/

theorem supplyOf_setSupply (b : BankState Addr) (c : Coin) (d : String) :
    (b.setSupply c).supplyOf d = if d = c.denom then c.amount else b.supplyOf d := by
  unfold setSupply supplyOf
  by_cases h0 : c.amount = 0
  · rw [if_pos h0, Table.valueAt_del, h0]
  · rw [if_neg h0, Table.valueAt_put]

theorem balances_setSupply (b : BankState Addr) (c : Coin) :
    (b.setSupply c).balances = b.balances := by
  unfold setSupply
  split <;> rfl

theorem addSupply_ok {amt : Coins} {b b' : BankState Addr} (h : amt.foldlM addSupply b = .ok b') :
    b'.balances = b.balances ∧ ∀ d, b'.supplyOf d = b.supplyOf d + amt.amountOf d := by
  induction amt generalizing b with
  | nil =>
    rw [foldlM_nil_ok] at h
    subst h
    simp
  | cons c amt ih =>
    obtain ⟨t, ht, hrest⟩ := foldlM_cons_ok.mp h
    obtain ⟨x, hx, hset⟩ := bind_eq_ok.mp ht
    obtain ⟨_, rfl⟩ := SdkInt.add_ok.mp hx
    cases hset
    obtain ⟨i1, i2⟩ := ih hrest
    refine ⟨i1.trans (balances_setSupply _ _), fun d => ?_⟩
    rw [i2, supplyOf_setSupply, Coins.amountOf_cons]
    by_cases hd : d = c.denom
    · rw [if_pos hd, if_pos hd.symm, hd]
      ring
    · rw [if_neg hd, if_neg (Ne.symm hd), zero_add]

theorem ledger_congr {b b' : BankState Addr} (h : b'.balances = b.balances) :
    b'.ledger = b.ledger := by
  funext x d
  simp only [ledger, balance, h]

theorem total_congr {b b' : BankState Addr} (h : b'.balances = b.balances) (d : String) :
    b'.total d = b.total d := by
  simp only [total, h]

end BankState

/-! ## the keeper -/

/-- an input or output of a multi-send, with its address as a string -/
structure InOut where
  address : String
  coins : Coins
deriving DecidableEq, Repr

namespace App

/-- `LockedCoins`: what vests in the account of an address, if it has one -/
def lockedCoins (s : App Addr) (ctx : Context) (a : Addr) (d : String) : ℤ :=
  match s.auth.getAccount a with
  | some acc => acc.lockedAmount ctx.blockTime d
  | none => 0

/-- `SpendableCoins`, one denomination: what an account holds less what is locked in it -/
def spendableCoins (s : App Addr) (ctx : Context) (a : Addr) (d : String) : ℤ :=
  s.bank.balance a d - s.lockedCoins ctx a d

def blockedAddr (cfg : Config Addr) (a : Addr) : Bool :=
  SdkAddress.str a ∈ cfg.names.blockedAddresses Addr

def sendCoins (ctx : Context) (s : App Addr) (fromAddr toAddr : Addr) (amt : Coins) :
    Res (App Addr) := do
  let b ← s.bank.subUnlockedCoins (s.lockedCoins ctx fromAddr) fromAddr amt
  let b ← b.addCoins toAddr amt
  .ok { s with bank := b, auth := s.auth.ensureAccount toAddr }

/-- `MintCoins`: only a module account with the minter permission may mint -/
def mintCoins (cfg : Config Addr) (s : App Addr) (moduleName : String) (amt : Coins) :
    Res (App Addr) := do
  let r ← AuthState.getModuleAccount cfg.names s.auth moduleName
  match r.1 with
  | none => goPanic "module account does not exist"
  | some acc =>
    if ¬ acc.hasPermission minter then goPanic "module account does not have permissions to mint"
    else do
      let b ← s.bank.addCoins acc.address amt
      let b ← amt.foldlM BankState.addSupply b
      .ok { s with bank := b, auth := r.2 }

def sendCoinsFromModuleToModule (cfg : Config Addr) (ctx : Context) (s : App Addr)
    (senderModule recipientModule : String) (amt : Coins) : Res (App Addr) :=
  match (AuthState.getModuleAddress cfg.names senderModule : Option Addr) with
  | none => goPanic "module account does not exist"
  | some senderAddr => do
    let r ← AuthState.getModuleAccount cfg.names s.auth recipientModule
    match r.1 with
    | none => goPanic "module account does not exist"
    | some acc => sendCoins ctx { s with auth := r.2 } senderAddr acc.address amt

def sendCoinsFromModuleToAccount (cfg : Config Addr) (ctx : Context) (s : App Addr)
    (senderModule : String) (recipientAddr : Addr) (amt : Coins) : Res (App Addr) :=
  match (AuthState.getModuleAddress cfg.names senderModule : Option Addr) with
  | none => goPanic "module account does not exist"
  | some senderAddr =>
    if blockedAddr cfg recipientAddr then goError .unauthorized "not allowed to receive funds"
    else sendCoins ctx s senderAddr recipientAddr amt

/-! ### multi-sends -/

def bech32 (s : String) : Res Addr :=
  match accAddressFromBech32 s with
  | .ok a => .ok a
  | .error e => .error (.error e)

/-- `ValidateBasic` of an input or output -/
def validateBasic (Addr : Type) [SdkAddress Addr] (io : InOut) : Res Unit := do
  let _ ← (bech32 io.address : Res Addr)
  if ¬ io.coins.IsValid ∨ io.coins = [] then goError .invalidCoins io.coins.str else .ok ()

/-- the amounts of a list of inputs or outputs together -/
def ioTotal (l : List InOut) (d : String) : ℤ := (l.map fun io => io.coins.amountOf d).sum

def ioDenoms (l : List InOut) : List String := l.flatMap fun io => io.coins.map Coin.denom

/-- `ValidateInputsOutputs`: every entry is valid and the two sides have equal totals -/
def validateInputsOutputs (Addr : Type) [SdkAddress Addr] (inputs outputs : List InOut) :
    Res Unit := do
  let _ ← inputs.mapM (validateBasic Addr)
  let _ ← outputs.mapM (validateBasic Addr)
  if ∀ d ∈ ioDenoms inputs ++ ioDenoms outputs, ioTotal inputs d = ioTotal outputs d then .ok ()
  else goError .inputOutputMismatch "sum inputs != sum outputs"

def subInput (ctx : Context) (s : App Addr) (io : InOut) : Res (App Addr) := do
  let a ← bech32 io.address
  let b ← s.bank.subUnlockedCoins (s.lockedCoins ctx a) a io.coins
  .ok { s with bank := b }

def addOutput (s : App Addr) (io : InOut) : Res (App Addr) := do
  let a ← bech32 io.address
  let b ← s.bank.addCoins a io.coins
  .ok { s with bank := b, auth := s.auth.ensureAccount a }

/-- `InputOutputCoins`: every input is debited, then every output is credited -/
def inputOutputCoins (ctx : Context) (s : App Addr) (inputs outputs : List InOut) :
    Res (App Addr) := do
  let _ ← validateInputsOutputs Addr inputs outputs
  let s ← inputs.foldlM (subInput ctx) s
  outputs.foldlM addOutput s

/-! ### what the operations do -/

theorem sendCoins_ok {ctx : Context} {s s' : App Addr} {x y : Addr} {amt : Coins}
    (h : sendCoins ctx s x y amt = .ok s') :
    ∃ b, s' = { s with bank := b, auth := s.auth.ensureAccount y } ∧
      b.ledger = (s.bank.ledger.credit x (fun d => - amt.amountOf d)).credit y amt.amountOf ∧
      (∀ d, b.total d = s.bank.total d) ∧ b.supply = s.bank.supply := by
  obtain ⟨b1, h1, h⟩ := bind_eq_ok.mp h
  obtain ⟨b2, h2, h⟩ := bind_eq_ok.mp h
  cases h
  obtain ⟨_, l1, t1, s1⟩ := BankState.subUnlockedCoins_ok h1
  obtain ⟨_, l2, t2, s2⟩ := BankState.addCoins_ok h2
  refine ⟨b2, rfl, ?_, fun d => ?_, s2.trans s1⟩
  · rw [l2, l1]
  · rw [t2, t1]
    ring

theorem mintCoins_ok {cfg : Config Addr} {s s' : App Addr} {name : String} {amt : Coins}
    (h : mintCoins cfg s name amt = .ok s') :
    ∃ b acc auth, AuthState.getModuleAccount cfg.names s.auth name = .ok (some acc, auth) ∧
      s' = { s with bank := b, auth := auth } ∧
      b.ledger = s.bank.ledger.credit (newModuleAddress name) amt.amountOf ∧
      (∀ d, b.total d = s.bank.total d + amt.amountOf d) ∧
      (∀ d, b.supplyOf d = s.bank.supplyOf d + amt.amountOf d) := by
  obtain ⟨⟨r, auth⟩, hr, h⟩ := bind_eq_ok.mp h
  cases r with
  | none => simp [goPanic] at h
  | some acc =>
    obtain ⟨_, h⟩ := guard_eq_ok.mp h
    obtain ⟨b1, h1, h⟩ := bind_eq_ok.mp h
    obtain ⟨b2, h2, h⟩ := bind_eq_ok.mp h
    cases h
    obtain ⟨_, l1, t1, s1⟩ := BankState.addCoins_ok h1
    obtain ⟨e2, s2⟩ := BankState.addSupply_ok h2
    refine ⟨b2, acc, auth, hr, rfl, ?_, fun d => ?_, fun d => ?_⟩
    · rw [BankState.ledger_congr e2, l1, AuthState.getModuleAccount_address hr]
    · rw [BankState.total_congr e2, t1]
    · rw [s2, BankState.supplyOf, s1]
      rfl

theorem getModuleAddress_some {n : ModuleNames} {name : String} {a : Addr}
    (h : AuthState.getModuleAddress n name = some a) :
    a = newModuleAddress name ∧ AuthState.permissionsFor n name ≠ none := by
  unfold AuthState.getModuleAddress at h
  cases hp : AuthState.permissionsFor n name with
  | none => simp [hp] at h
  | some perms =>
    simp only [hp, Option.map_some, Option.some.injEq] at h
    exact ⟨h.symm, by simp⟩

theorem sendCoinsFromModuleToModule_ok {cfg : Config Addr} {ctx : Context} {s s' : App Addr}
    {sender recipient : String} {amt : Coins}
    (h : s.sendCoinsFromModuleToModule cfg ctx sender recipient amt = .ok s') :
    ∃ acc auth, AuthState.getModuleAccount cfg.names s.auth recipient = .ok (some acc, auth) ∧
      sendCoins ctx { s with auth := auth } (newModuleAddress sender)
        (newModuleAddress recipient) amt = .ok s' := by
  unfold sendCoinsFromModuleToModule at h
  cases ha : (AuthState.getModuleAddress cfg.names sender : Option Addr) with
  | none => simp [ha, goPanic] at h
  | some a =>
    simp only [ha] at h
    obtain ⟨⟨r, auth⟩, hr, h⟩ := bind_eq_ok.mp h
    cases r with
    | none => simp [goPanic] at h
    | some acc =>
      refine ⟨acc, auth, hr, ?_⟩
      rw [← (getModuleAddress_some ha).1, ← AuthState.getModuleAccount_address hr]
      exact h

theorem sendCoinsFromModuleToAccount_ok {cfg : Config Addr} {ctx : Context} {s s' : App Addr}
    {sender : String} {y : Addr} {amt : Coins}
    (h : s.sendCoinsFromModuleToAccount cfg ctx sender y amt = .ok s') :
    blockedAddr cfg y = false ∧ sendCoins ctx s (newModuleAddress sender) y amt = .ok s' := by
  unfold sendCoinsFromModuleToAccount at h
  cases ha : (AuthState.getModuleAddress cfg.names sender : Option Addr) with
  | none => simp [ha, goPanic] at h
  | some a =>
    simp only [ha] at h
    by_cases hb : blockedAddr cfg y = true
    · simp [hb, goError] at h
    · rw [if_neg hb, (getModuleAddress_some ha).1] at h
      exact ⟨by simpa using hb, h⟩

/-! ### what a multi-send does -/

/-- the inputs or outputs with their addresses decoded -/
def Decoded (l : List InOut) (r : List (Addr × Coins)) : Prop :=
  List.Forall₂ (fun io p => bech32 io.address = .ok p.1 ∧ p.2 = io.coins) l r

/-- decoded coins as credits of a ledger -/
def ioCredits (k : ℤ) (r : List (Addr × Coins)) : List (Addr × (String → ℤ)) :=
  r.map fun p => (p.1, fun d => k * p.2.amountOf d)

theorem ioTotal_cons (io : InOut) (l : List InOut) (d : String) :
    ioTotal (io :: l) d = io.coins.amountOf d + ioTotal l d := by
  simp [ioTotal]

theorem ioTotal_eq_zero {l : List InOut} {d : String} (h : d ∉ ioDenoms l) : ioTotal l d = 0 := by
  induction l with
  | nil => rfl
  | cons io l ih =>
    have hd : d ∉ io.coins.map Coin.denom ∧ d ∉ ioDenoms l := by
      constructor
      · exact fun hi => h (List.mem_flatMap.mpr ⟨io, List.mem_cons_self .., hi⟩)
      · intro hi
        obtain ⟨io', hio, hd⟩ := List.mem_flatMap.mp hi
        exact h (List.mem_flatMap.mpr ⟨io', List.mem_cons_of_mem _ hio, hd⟩)
    rw [ioTotal_cons, Coins.amountOf_eq_zero hd.1, ih hd.2, add_zero]

theorem validateInputsOutputs_ok {inputs outputs : List InOut}
    (h : validateInputsOutputs Addr inputs outputs = .ok ()) (d : String) :
    ioTotal inputs d = ioTotal outputs d := by
  obtain ⟨_, _, h⟩ := bind_eq_ok.mp h
  obtain ⟨_, _, h⟩ := bind_eq_ok.mp h
  by_cases hd : d ∈ ioDenoms inputs ++ ioDenoms outputs
  · by_contra hne
    rw [if_neg (fun hall => hne (hall d hd))] at h
    cases h
  · rw [List.mem_append, not_or] at hd
    rw [ioTotal_eq_zero hd.1, ioTotal_eq_zero hd.2]

theorem foldlM_io {f : App Addr → InOut → Res (App Addr)} {k : ℤ}
    (hf : ∀ s io s', f s io = .ok s' → ∃ a, bech32 io.address = .ok a ∧
      s'.bank.ledger = s.bank.ledger.credit a (fun d => k * io.coins.amountOf d) ∧
      (∀ d, s'.bank.total d = s.bank.total d + k * io.coins.amountOf d) ∧
      s'.bank.supply = s.bank.supply)
    {l : List InOut} {s s' : App Addr} (h : l.foldlM f s = .ok s') :
    ∃ r, Decoded l r ∧ s'.bank.ledger = s.bank.ledger.credits (ioCredits k r) ∧
      (∀ d, s'.bank.total d = s.bank.total d + k * ioTotal l d) ∧
      s'.bank.supply = s.bank.supply := by
  induction l generalizing s with
  | nil =>
    rw [foldlM_nil_ok] at h
    subst h
    exact ⟨[], List.Forall₂.nil, rfl, by simp [ioTotal], rfl⟩
  | cons io l ih =>
    obtain ⟨t, ht, hrest⟩ := foldlM_cons_ok.mp h
    obtain ⟨a, ha, h1, h2, h3⟩ := hf s io t ht
    obtain ⟨r, hr, i1, i2, i3⟩ := ih hrest
    refine ⟨(a, io.coins) :: r, List.Forall₂.cons ⟨ha, rfl⟩ hr, ?_, fun d => ?_, i3.trans h3⟩
    · rw [i1, h1]
      rfl
    · rw [i2, h2, ioTotal_cons]
      ring

/-- **A multi-send**: the inputs are debited, the outputs credited, the totals agree, and neither
supply nor the sum of balances changes. -/
theorem inputOutputCoins_ok {ctx : Context} {s s' : App Addr} {inputs outputs : List InOut}
    (h : inputOutputCoins ctx s inputs outputs = .ok s') :
    ∃ ins outs, Decoded inputs ins ∧ Decoded outputs outs ∧
      s'.bank.ledger = (s.bank.ledger.credits (ioCredits (-1) ins)).credits (ioCredits 1 outs) ∧
      (∀ d, ioTotal inputs d = ioTotal outputs d) ∧
      (∀ d, s'.bank.total d = s.bank.total d) ∧ s'.bank.supply = s.bank.supply := by
  obtain ⟨_, hv, h⟩ := bind_eq_ok.mp h
  obtain ⟨t, hin, hout⟩ := bind_eq_ok.mp h
  have heq := validateInputsOutputs_ok hv
  obtain ⟨ins, hins, l1, t1, s1⟩ := foldlM_io (k := -1) (fun s io s' hs => by
    obtain ⟨a, ha, hs⟩ := bind_eq_ok.mp hs
    obtain ⟨b, hb, hs⟩ := bind_eq_ok.mp hs
    cases hs
    obtain ⟨_, lb, tb, sb⟩ := BankState.subUnlockedCoins_ok hb
    refine ⟨a, ha, ?_, fun d => ?_, sb⟩
    · simpa only [neg_mul, one_mul] using lb
    · rw [tb]
      ring) hin
  obtain ⟨outs, houts, l2, t2, s2⟩ := foldlM_io (k := 1) (fun s io s' hs => by
    obtain ⟨a, ha, hs⟩ := bind_eq_ok.mp hs
    obtain ⟨b, hb, hs⟩ := bind_eq_ok.mp hs
    cases hs
    obtain ⟨_, lb, tb, sb⟩ := BankState.addCoins_ok hb
    refine ⟨a, ha, ?_, fun d => ?_, sb⟩
    · simpa only [one_mul] using lb
    · rw [tb]
      ring) hout
  refine ⟨ins, outs, hins, houts, by rw [l2, l1], heq, fun d => ?_, s2.trans s1⟩
  rw [t2, t1, heq]
  ring

end App

end MeChain
