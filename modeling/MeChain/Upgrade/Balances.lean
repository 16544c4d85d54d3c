import MeChain.Upgrade.ResetExponent

/-!
# What `resetExponent` does to the bank

The loop visits every stored account once, in whatever order the store lists them.  The invariant
of the run: the accounts visited hold 100 times what they held, the others, the mint module account
among them, hold what they held (`scaledOver`).

* `resetExponent_run`      balances, supply and frame after a successful run;
* `resetExponent_scales`   every umec balance and the umec supply times 100;
* `resetExponent_umec_only_iff`  other denominations stay as they are exactly when no stored
                           account holds any.
-/

set_option linter.unusedSectionVars false

namespace MeChain
open Fallible

variable {Addr : Type} [SdkAddress Addr] [DecidableEq Addr]

/-- the ledger after the accounts of a list were visited -/
def scaledOver (L : Ledger Addr String) (visited : List (Account Addr)) : Ledger Addr String :=
  fun x d => if x ∈ visited.map Account.address then 100 * L x d else L x d

theorem scaledOver_nil (L : Ledger Addr String) : scaledOver L [] = L := by
  funext x d
  simp [scaledOver]

theorem scaledOver_snoc (L : Ledger Addr String) (done : List (Account Addr)) (a : Account Addr)
    (ha : a.address ∉ done.map Account.address) :
    (scaledOver L done).credit a.address (fun d => 99 * scaledOver L done a.address d)
      = scaledOver L (done ++ [a]) := by
  funext x d
  rw [Ledger.credit_apply]
  simp only [scaledOver, List.map_append, List.map_cons, List.map_nil, List.mem_append,
    List.mem_singleton, if_neg ha]
  by_cases hx : x = a.address
  · rw [if_neg (hx ▸ ha), if_pos hx, if_pos (Or.inr hx), hx]
    ring
  · rw [if_neg hx, add_zero]
    simp [hx]

theorem accounts_nodup (s : AuthState Addr) : (s.getAllAccounts.map Account.address).Nodup :=
  s.accounts.nodup

theorem notMem_visited {l done rest : List (Account Addr)} {a : Account Addr}
    (hl : l = done ++ a :: rest) (hn : (l.map Account.address).Nodup) :
    a.address ∉ done.map Account.address := by
  rw [hl, List.map_append, List.map_cons] at hn
  intro h
  exact List.disjoint_of_nodup_append hn h (List.mem_cons_self ..)

/-- the bank after the accounts of `done` were visited, from the bank `b` -/
structure ScaledBank (b : BankState Addr) (done : List (Account Addr)) (t : BankState Addr) :
    Prop where
  ledger : t.ledger = scaledOver b.ledger done
  supply : ∀ d, t.supplyOf d = b.supplyOf d
    + 99 * (done.map fun a => b.balance a.address d).sum
  matched : ∀ d, t.supplyOf d - t.total d = b.supplyOf d - b.total d

theorem ScaledBank.start (b : BankState Addr) : ScaledBank b [] b where
  ledger := (scaledOver_nil _).symm
  supply _ := by simp
  matched _ := rfl

theorem ScaledBank.waiting {b t : BankState Addr} {done : List (Account Addr)} {a : Account Addr}
    (h : ScaledBank b done t) (ha : a.address ∉ done.map Account.address) (d : String) :
    t.balance a.address d = b.balance a.address d := by
  have hL := congrFun (congrFun h.ledger a.address) d
  rw [scaledOver, if_neg ha] at hL
  exact hL

theorem ScaledBank.step {cfg : Config Addr} {ctx : Context} {b : BankState Addr} {t u : App Addr}
    {done : List (Account Addr)} {a : Account Addr} (h : ScaledBank b done t.bank)
    (ha : a.address ∉ done.map Account.address) (hu : scaleBalances cfg ctx t a = .ok u) :
    ScaledBank b (done ++ [a]) u.bank := by
  obtain ⟨c, auth, rfl, lc, tc, sc⟩ := scaleBalances_ok hu
  refine ⟨?_, fun d => ?_, fun d => ?_⟩
  · show c.ledger = _
    rw [lc, ← scaledOver_snoc _ _ _ ha, ← h.ledger]
    rfl
  · show c.supplyOf d = _
    rw [sc, h.supply, h.waiting ha, List.map_append, List.sum_append]
    simp only [List.map_cons, List.map_nil, List.sum_cons, List.sum_nil]
    ring
  · show c.supplyOf d - c.total d = _
    rw [sc, tc, ← h.matched]
    ring

/-- **The run.**  After a successful loop every stored account holds 100 times what it held, the
supply has grown by what was minted, and nothing but bank and accounts changed. -/
theorem resetExponent_run {cfg : Config Addr} {ctx : Context} {s s' : App Addr}
    (h : resetExponent cfg ctx s = .ok s') :
    ScaledBank s.bank s.auth.getAllAccounts s'.bank ∧
    s'.staking = s.staking ∧ s'.distr = s.distr ∧ s'.slashing = s.slashing := by
  refine foldlM_ok (I := fun done t => ScaledBank s.bank done t.bank ∧
    t.staking = s.staking ∧ t.distr = s.distr ∧ t.slashing = s.slashing) h ?_ ?_
  · exact ⟨ScaledBank.start _, rfl, rfl, rfl⟩
  · intro done a rest t t' hl hI hstep
    obtain ⟨hbank, h1, h2, h3⟩ := hI
    obtain ⟨u, hu, rfl⟩ := resetExponentStep_ok hstep
    have hscaled := hbank.step (notMem_visited hl (accounts_nodup s.auth)) hu
    obtain ⟨c, auth, rfl, _⟩ := scaleBalances_ok hu
    exact ⟨hscaled, h1, h2, h3⟩

/-! ## the umec balances -/

/-- an address that holds nothing, or has an account, holds 100 times what it held -/
theorem ledger_after {cfg : Config Addr} {ctx : Context} {s s' : App Addr}
    (h : resetExponent cfg ctx s = .ok s') {a : Addr} {d : String}
    (hacc : s.bank.balance a d ≠ 0 → s.auth.hasAccount a = true) :
    s'.bank.balance a d = 100 * s.bank.balance a d := by
  have hL := congrFun (congrFun (resetExponent_run h).1.ledger a) d
  change s'.bank.balance a d = _ at hL
  rw [hL, scaledOver]
  by_cases ha : a ∈ s.auth.getAllAccounts.map Account.address
  · rw [if_pos ha]
    rfl
  · have hz : s.bank.balance a d = 0 := by
      by_contra hne
      exact ha (Table.has_iff.mp (hacc hne))
    rw [if_neg ha]
    show s.bank.balance a d = _
    rw [hz, mul_zero]

theorem total_scaled {b b' : BankState Addr} {d : String} {k : ℤ}
    (h : ∀ a, b'.balance a d = k * b.balance a d) : b'.total d = k * b.total d := by
  let S : Finset Addr := (b.balances.rows.map Balance.address).toFinset
    ∪ (b'.balances.rows.map Balance.address).toFinset
  have hS : ∀ r ∈ b.balances.rows, r.address ∈ S := fun r hr =>
    Finset.mem_union_left _ (List.mem_toFinset.mpr (List.mem_map_of_mem hr))
  have hS' : ∀ r ∈ b'.balances.rows, r.address ∈ S := fun r hr =>
    Finset.mem_union_right _ (List.mem_toFinset.mpr (List.mem_map_of_mem hr))
  rw [b.total_eq_ledger hS, b'.total_eq_ledger hS', ← Ledger.total_scale]
  exact Finset.sum_congr rfl (fun a _ => h a)

/-- **Every umec balance is multiplied by 100 exactly once**, the mint module account's included,
and so is the supply, which keeps matching the balances. -/
theorem resetExponent_scales {cfg : Config Addr} {ctx : Context} {s s' : App Addr}
    (h : resetExponent cfg ctx s = .ok s')
    (hacc : ∀ a d, s.bank.balance a d ≠ 0 → s.auth.hasAccount a = true)
    (hsup : ∀ d, s.bank.supplyOf d = s.bank.total d) :
    (∀ a, s'.bank.balance a baseMEDenom = 100 * s.bank.balance a baseMEDenom) ∧
    s'.bank.supplyOf baseMEDenom = 100 * s.bank.supplyOf baseMEDenom ∧
    ∀ d, s'.bank.supplyOf d = s'.bank.total d := by
  have hb (a : Addr) : s'.bank.balance a baseMEDenom = 100 * s.bank.balance a baseMEDenom :=
    ledger_after h (hacc a baseMEDenom)
  have hdiff := (resetExponent_run h).1.matched
  have hmatch (d : String) : s'.bank.supplyOf d = s'.bank.total d := by
    have := hdiff d
    rw [hsup d] at this
    omega
  refine ⟨hb, ?_, hmatch⟩
  rw [hmatch, hsup, total_scaled hb]

/-- an account store with two plain accounts and the mint module account -/
def threeAccounts : AuthState String :=
  (((⟨.empty, .empty, 10⟩ : AuthState String).setAccount
    ((Account.newBaseAccountWithAddress "me1alice").setAccountNumber 7)).setAccount
    ((Account.newEmptyModuleAccount "mint" [minter]).setAccountNumber 8)).setAccount
    ((Account.newBaseAccountWithAddress "me1bob").setAccountNumber 9)

/-- a chain on which a plain account and the mint module account hold one denomination -/
def fundedChain (denom : String) : App String :=
  { App.empty with
    auth := threeAccounts
    bank := ⟨(Table.empty.put ⟨"me1alice", denom, 5⟩).put
      ⟨newModuleAddress "mint", denom, 7⟩, Table.empty.put ⟨denom, 12⟩⟩ }

theorem fundedChain_rows {denom : String} {r : Balance String}
    (h : r ∈ (fundedChain denom).bank.balances.rows) :
    threeAccounts.hasAccount r.address = true ∧ r.denom = denom := by
  rw [fundedChain, Table.mem_put, Table.mem_put] at h
  rcases h with rfl | ⟨rfl | ⟨h, _⟩, _⟩
  · exact ⟨show threeAccounts.hasAccount (newModuleAddress "mint") = true by decide, rfl⟩
  · exact ⟨show threeAccounts.hasAccount "me1alice" = true by decide, rfl⟩
  · cases h

theorem fundedChain_stored {denom a d : String} (h : (fundedChain denom).bank.balance a d ≠ 0) :
    (fundedChain denom).auth.hasAccount a = true ∧ d = denom := by
  obtain ⟨r, hr, rfl, rfl⟩ := BankState.exists_row_of_balance h
  exact fundedChain_rows hr

theorem fundedChain_supply (d : String) :
    (fundedChain "umec").bank.supplyOf d = (fundedChain "umec").bank.total d := by
  by_cases hd : d = "umec"
  · subst hd
    decide
  · rw [BankState.supplyOf, Table.valueAt_none, BankState.total, Table.sum_zero]
    · intro r hr
      rw [(fundedChain_rows hr).2, if_neg (Ne.symm hd)]
    · rw [Table.get_eq_none_iff, fundedChain, Table.mem_keys_put]
      rintro (h | h)
      · exact hd h
      · cases h

theorem resetExponent_scales_fundedChain :
    ∃ s', resetExponent (Config.fixed "me1admin" "me1dev") .first (fundedChain "umec") = .ok s' ∧
      s'.bank.balance "me1alice" baseMEDenom = 500 ∧
      s'.bank.balance (newModuleAddress "mint") baseMEDenom = 700 ∧
      s'.bank.supplyOf baseMEDenom = 1200 := by
  obtain ⟨s', hs'⟩ := exists_ok_of_isOk (x := resetExponent (Config.fixed "me1admin" "me1dev") .first
    (fundedChain "umec")) (by decide)
  obtain ⟨hb, hs, _⟩ := resetExponent_scales hs' (fun a d h => (fundedChain_stored h).1)
    fundedChain_supply
  refine ⟨s', hs', ?_, ?_, ?_⟩
  · rw [hb]
    decide
  · rw [hb]
    decide
  · rw [hs]
    decide

/-! ## the other denominations -/

/-- **Only umec is touched exactly when there is nothing else to touch.** -/
theorem resetExponent_umec_only_iff {cfg : Config Addr} {ctx : Context} {s s' : App Addr}
    (h : resetExponent cfg ctx s = .ok s') :
    (∀ d, d ≠ baseMEDenom →
      (∀ a, s'.bank.balance a d = s.bank.balance a d) ∧
      s'.bank.supplyOf d = s.bank.supplyOf d) ↔
    ∀ acc ∈ s.auth.getAllAccounts, ∀ d, d ≠ baseMEDenom → s.bank.balance acc.address d = 0 := by
  obtain ⟨⟨hL, hS, _⟩, _⟩ := resetExponent_run h
  have hbal (a : Addr) (d : String) : s'.bank.balance a d
      = scaledOver s.bank.ledger s.auth.getAllAccounts a d := congrFun (congrFun hL a) d
  constructor
  · intro hframe acc hacc d hd
    have hsame := (hframe d hd).1 acc.address
    rw [hbal, scaledOver, if_pos (List.mem_map_of_mem hacc)] at hsame
    change 100 * s.bank.balance acc.address d = s.bank.balance acc.address d at hsame
    omega
  · intro hnone d hd
    refine ⟨fun a => ?_, ?_⟩
    · rw [hbal, scaledOver]
      by_cases ha : a ∈ s.auth.getAllAccounts.map Account.address
      · obtain ⟨acc, hacc, rfl⟩ := List.mem_map.mp ha
        rw [if_pos ha]
        show 100 * s.bank.balance acc.address d = _
        rw [hnone acc hacc d hd, mul_zero]
      · rw [if_neg ha]
        rfl
    · have hz : (s.auth.getAllAccounts.map fun a => s.bank.balance a.address d).sum = 0 := by
        apply List.sum_eq_zero
        intro x hx
        obtain ⟨acc, hacc, rfl⟩ := List.mem_map.mp hx
        exact hnone acc hacc d hd
      rw [hS, hz, mul_zero, add_zero]

theorem resetExponent_umec_only_fundedChain :
    ∃ s', resetExponent (Config.fixed "me1admin" "me1dev") .first (fundedChain "umec") = .ok s' ∧
      ∀ d, d ≠ baseMEDenom → (∀ a, s'.bank.balance a d = (fundedChain "umec").bank.balance a d) ∧
        s'.bank.supplyOf d = (fundedChain "umec").bank.supplyOf d := by
  obtain ⟨s', hs'⟩ := exists_ok_of_isOk (x := resetExponent (Config.fixed "me1admin" "me1dev") .first
    (fundedChain "umec")) (by decide)
  refine ⟨s', hs', (resetExponent_umec_only_iff hs').mpr (fun acc _ d hd => ?_)⟩
  by_contra h
  exact hd (fundedChain_stored h).2

/-- a voucher held by a plain account is multiplied like umec -/
theorem resetExponent_inflates_voucher :
    ∃ s', resetExponent (Config.fixed "me1admin" "me1dev") .first (fundedChain "ibc/27394FB0")
        = .ok s' ∧
      s'.bank.balance "me1alice" "ibc/27394FB0" = 500 ∧
      ¬ ∀ d, d ≠ baseMEDenom →
        (∀ a, s'.bank.balance a d = (fundedChain "ibc/27394FB0").bank.balance a d) ∧
        s'.bank.supplyOf d = (fundedChain "ibc/27394FB0").bank.supplyOf d := by
  obtain ⟨s', hs'⟩ := exists_ok_of_isOk (x := resetExponent (Config.fixed "me1admin" "me1dev") .first
    (fundedChain "ibc/27394FB0")) (by decide)
  have hb : s'.bank.balance "me1alice" "ibc/27394FB0" = 500 := by
    rw [ledger_after hs' (fun h => (fundedChain_stored h).1)]
    decide
  refine ⟨s', hs', hb, fun h => ?_⟩
  have := (h "ibc/27394FB0" (by decide)).1 "me1alice"
  rw [hb] at this
  revert this
  decide

end MeChain
