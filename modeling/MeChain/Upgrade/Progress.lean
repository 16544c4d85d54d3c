import MeChain.BankProgress
import MeChain.Upgrade.Balances
import MeChain.Upgrade.Renumber

/-!
# When `resetExponent` succeeds

* `kindAt_renumber`     the run keeps the kind of the account at every module address;
* `scaleBalances_total` one account can be scaled if it may receive coins and the supply has room;
* `resetExponent_isOk_iff`  the loop succeeds exactly when that holds of every account.
-/

set_option linter.unusedSectionVars false

namespace MeChain
open Fallible

variable {Addr : Type} [SdkAddress Addr] [DecidableEq Addr]

/-! ## the kind of an account through the renumbering -/

section
variable {s : AuthState Addr} {a : Account Addr} {x : Addr}

/-- a move of numbers keeps the kind at `x` and the address and kind of the account -/
def KeepsKind (x : Addr) (s : AuthState Addr) (a : Account Addr)
    (r : AuthState Addr × Account Addr) : Prop :=
  r.1.kindAt x = s.kindAt x ∧ r.2.address = a.address ∧ r.2.kind = a.kind

theorem moveNumber2_kind (h : x = a.address → s.kindAt x = some a.kind) :
    KeepsKind x s a (moveNumber2 s a) := by
  unfold moveNumber2
  split
  · exact ⟨AuthState.kindAt_setNumber h _, rfl, rfl⟩
  · exact ⟨rfl, rfl, rfl⟩

theorem moveNumber1_kind (hM : x ≠ meidAdmin Addr)
    (h : x = a.address → s.kindAt x = some a.kind) : KeepsKind x s a (moveNumber1 s a) := by
  unfold moveNumber1
  split
  · have hmeid : (s.setAccount (meidAdminAccount Addr)).kindAt x = s.kindAt x :=
      AuthState.kindAt_other hM
    exact ⟨(AuthState.kindAt_setNumber (fun hx => hmeid.trans (h hx)) 2).trans hmeid, rfl, rfl⟩
  · exact ⟨rfl, rfl, rfl⟩

theorem moveNumber3_kind (hD : x ≠ airDrop Addr)
    (h : x = a.address → s.kindAt x = some a.kind) : KeepsKind x s a (moveNumber3 s a) := by
  unfold moveNumber3
  split
  · have hmoved : (moveToNext s a).kindAt x = s.kindAt x := AuthState.kindAt_setNumber h _
    have hdrop : ((moveToNext s a).setAccount (airDropAccount Addr)).kindAt x = s.kindAt x :=
      (AuthState.kindAt_other hD).trans hmoved
    exact ⟨hdrop, rfl, rfl⟩
  · exact ⟨rfl, rfl, rfl⟩

theorem KeepsKind.self {r : AuthState Addr × Account Addr} (hr : KeepsKind x s a r)
    (h : x = a.address → s.kindAt x = some a.kind) (hx : x = r.2.address) :
    r.1.kindAt x = some r.2.kind := by
  rw [hr.1, hr.2.2]
  exact h (hx.trans hr.2.1)

theorem kindAt_renumber (hM : x ≠ meidAdmin Addr) (hD : x ≠ airDrop Addr)
    (h : x = a.address → s.kindAt x = some a.kind) : (renumber s a).kindAt x = s.kindAt x := by
  have h2 := moveNumber2_kind h
  have h1 := moveNumber1_kind hM (h2.self h)
  have h3 := moveNumber3_kind hD (h1.self (h2.self h))
  exact h3.1.trans (h1.1.trans h2.1)

end

/-! ## minting and sending -/

/-- the account at the mint module's address, if there is one, may mint -/
def AuthState.MintReady (n : ModuleNames) (s : AuthState Addr) : Prop :=
  ∀ k, s.kindAt (newModuleAddress n.mint) = some k →
    ∃ name perms, k = .module name perms ∧ minter ∈ perms

/-- the account may be sent coins by a module: a module account the binary lists, or any other
account at an address that is not blocked -/
def Account.Receives (cfg : Config Addr) (a : Account Addr) : Prop :=
  match a.kind with
  | .module name _ => AuthState.permissionsFor cfg.names name ≠ none
  | _ => App.blockedAddr cfg a.address = false

theorem hasPermission_iff {a : Account Addr} {perm : String} : a.hasPermission perm = true ↔
    ∃ name perms, a.kind = .module name perms ∧ perm ∈ perms := by
  unfold Account.hasPermission
  cases a.kind with
  | module name perms => simp
  | _ => simp

theorem permissionsFor_mint (n : ModuleNames) :
    AuthState.permissionsFor n n.mint = some [minter] :=
  AuthState.permissionsFor_listed (p := (n.mint, [minter])) (by simp [ModuleNames.maccPerms])

section
variable {cfg : Config Addr} {ctx : Context} {s s' : App Addr} {amt : Coins}

theorem getModuleAccount_mint {n : ModuleNames} {s : AuthState Addr} (h : s.MintReady n) :
    ∃ acc s', AuthState.getModuleAccount n s n.mint = .ok (some acc, s') ∧
      acc.hasPermission minter = true ∧ s'.kindAt (newModuleAddress n.mint) = some acc.kind := by
  cases ha : s.getAccount (newModuleAddress n.mint) with
  | none =>
    refine ⟨(Account.newEmptyModuleAccount n.mint [minter]).setAccountNumber s.globalAccountNumber,
      s.createModuleAccount n.mint [minter], ?_, ?_, ?_⟩
    · unfold AuthState.getModuleAccount
      rw [permissionsFor_mint, ha]
      rfl
    · exact hasPermission_iff.mpr ⟨n.mint, [minter], rfl, by simp⟩
    · rw [AuthState.kindAt, AuthState.getAccount_create, if_pos rfl]
      rfl
  | some acc =>
    have hk : s.kindAt (newModuleAddress n.mint) = some acc.kind := by
      rw [AuthState.kindAt, ha]
      rfl
    obtain ⟨name, perms, hkind, hperm⟩ := h acc.kind hk
    refine ⟨acc, s, ?_, hasPermission_iff.mpr ⟨name, perms, hkind, hperm⟩, hk⟩
    exact AuthState.getModuleAccount_stored (by rw [permissionsFor_mint]; simp) ha hkind

theorem mintReady_of_ok {n : ModuleNames} {s s' : AuthState Addr} {acc : Account Addr}
    (h : AuthState.getModuleAccount n s n.mint = .ok (some acc, s'))
    (hp : acc.hasPermission minter = true) : s.MintReady n ∧ s'.MintReady n := by
  have hacc (t : AuthState Addr) (ht : t.getAccount (newModuleAddress n.mint) = some acc) :
      t.MintReady n := by
    intro k hk
    rw [AuthState.kindAt, ht] at hk
    cases hk
    exact hasPermission_iff.mp hp
  rcases AuthState.getModuleAccount_ok h with ⟨_, hr, _⟩ | ⟨b, _, _, hb, _, _, hr, rfl⟩ |
    ⟨perms, _, hb, hr, rfl⟩
  · cases hr
  · cases hr
    exact ⟨hacc _ hb, hacc _ hb⟩
  · refine ⟨fun k hk => ?_, hacc _ ?_⟩
    · rw [AuthState.kindAt, hb] at hk
      cases hk
    · rw [AuthState.getAccount_create, if_pos rfl, hr]

theorem mintCoins_total (hmint : s.auth.MintReady cfg.names) (hwf : s.bank.WellFormed)
    (hv : amt.IsValid)
    (hroom : ∀ c ∈ amt,
      SdkInt.Fits (s.bank.balance (newModuleAddress cfg.names.mint) c.denom + c.amount) ∧
      SdkInt.Fits (s.bank.supplyOf c.denom + c.amount)) :
    ∃ s', s.mintCoins cfg cfg.names.mint amt = .ok s' := by
  obtain ⟨acc, auth, hacc, hperm, _⟩ := getModuleAccount_mint hmint
  have haddr := AuthState.getModuleAccount_address hacc
  obtain ⟨b1, h1⟩ := BankState.addCoins_total (b := s.bank) (a := acc.address) hv (by
    intro c hc
    rw [haddr]
    exact ⟨hwf.nonneg _ _, (hroom c hc).1⟩)
  obtain ⟨_, _, _, hsup⟩ := BankState.addCoins_ok h1
  obtain ⟨b2, h2⟩ := BankState.addSupply_total (b := b1) hv (by
    intro c hc
    rw [BankState.supplyOf, hsup]
    exact (hroom c hc).2)
  refine ⟨{ s with bank := b2, auth := auth }, bind_eq_ok.mpr ⟨_, hacc, ?_⟩⟩
  dsimp only
  rw [if_neg (not_not.mpr hperm)]
  exact bind_eq_ok.mpr ⟨b1, h1, bind_eq_ok.mpr ⟨b2, h2, rfl⟩⟩

theorem lockedCoins_module {x : Addr} {name : String} {perms : List String}
    (h : s.auth.kindAt x = some (.module name perms)) (d : String) : s.lockedCoins ctx x d = 0 := by
  obtain ⟨a, ha, hk⟩ := AuthState.kindAt_eq_some.mp h
  unfold App.lockedCoins
  rw [ha]
  exact Account.lockedAmount_module hk _ d

/-- both ways of sending minted coins, as one transfer -/
theorem sendMinted_eq {account : Account Addr} (hrec : account.Receives cfg)
    (hkind : ∀ name perms, account.kind = .module name perms →
      s.auth.kindAt account.address = some account.kind) :
    (match account.kind with
      | .module name _ => s.sendCoinsFromModuleToModule cfg ctx cfg.names.mint name amt
      | _ => s.sendCoinsFromModuleToAccount cfg ctx cfg.names.mint account.address amt)
    = s.sendCoins ctx (newModuleAddress cfg.names.mint) account.address amt := by
  have hmint : (AuthState.getModuleAddress cfg.names cfg.names.mint : Option Addr)
      = some (newModuleAddress cfg.names.mint) := by
    rw [AuthState.getModuleAddress, permissionsFor_mint]
    rfl
  cases hkd : account.kind with
  | module name perms =>
    simp only [Account.Receives, hkd] at hrec
    obtain ⟨acc, hacc, hk⟩ := AuthState.kindAt_eq_some.mp (hkind name perms hkd)
    have haddr := account.moduleAddress name perms hkd
    rw [haddr] at hacc
    have hget := AuthState.getModuleAccount_stored hrec hacc (hk.trans hkd)
    simp only [App.sendCoinsFromModuleToModule, hmint, hget, ok_bind]
    rw [haddr, AuthState.getAccount_address hacc]
  | _ =>
    simp only [Account.Receives, hkd] at hrec
    simp only [App.sendCoinsFromModuleToAccount, hmint]
    rw [if_neg (by rw [hrec]; simp)]

theorem receives_of_ok {account : Account Addr}
    (h : (match account.kind with
      | .module name _ => s.sendCoinsFromModuleToModule cfg ctx cfg.names.mint name amt
      | _ => s.sendCoinsFromModuleToAccount cfg ctx cfg.names.mint account.address amt) = .ok s') :
    account.Receives cfg := by
  unfold Account.Receives
  cases hk : account.kind with
  | module name perms =>
    simp only [hk] at h ⊢
    obtain ⟨acc, auth, hacc, _⟩ := App.sendCoinsFromModuleToModule_ok h
    rcases AuthState.getModuleAccount_ok hacc with ⟨_, hr, _⟩ | ⟨_, _, _, _, _, hp, _⟩ |
      ⟨perms, hp, _⟩
    · cases hr
    · exact hp
    · rw [hp]
      simp
  | _ =>
    simp only [hk] at h ⊢
    exact (App.sendCoinsFromModuleToAccount_ok h).1

/-! ### well-formed stores stay well-formed -/

theorem mintCoins_wellFormed {name : String} (hwf : s.bank.WellFormed)
    (h : s.mintCoins cfg name amt = .ok s') : s'.bank.WellFormed := by
  obtain ⟨⟨r, auth⟩, _, h⟩ := bind_eq_ok.mp h
  cases r with
  | none => simp [goPanic] at h
  | some acc =>
    obtain ⟨_, h⟩ := guard_eq_ok.mp h
    obtain ⟨b1, h1, h⟩ := bind_eq_ok.mp h
    obtain ⟨b2, h2, h⟩ := bind_eq_ok.mp h
    cases h
    exact (hwf.addCoins h1).addSupply h2

theorem scaleBalances_wellFormed {account : Account Addr} (hwf : s.bank.WellFormed)
    (h : scaleBalances cfg ctx s account = .ok s') : s'.bank.WellFormed := by
  obtain ⟨amt, _, h⟩ := bind_eq_ok.mp h
  obtain ⟨s1, hmint, h⟩ := bind_eq_ok.mp h
  obtain ⟨auth, _, hsend⟩ := sendMinted_ok h
  have hwf1 := mintCoins_wellFormed hwf hmint
  exact App.wellFormed_sendCoins (s := { s1 with auth := auth }) hwf1 hsend

/-! ## one account -/

theorem scaleBalances_guard {account : Account Addr}
    (h : scaleBalances cfg ctx s account = .ok s') :
    s.auth.MintReady cfg.names ∧ account.Receives cfg := by
  obtain ⟨amt, _, h⟩ := bind_eq_ok.mp h
  obtain ⟨s1, hmint, h⟩ := bind_eq_ok.mp h
  refine ⟨?_, receives_of_ok h⟩
  obtain ⟨⟨r, auth⟩, hr, hmint⟩ := bind_eq_ok.mp hmint
  cases r with
  | none => simp [goPanic] at hmint
  | some acc =>
    obtain ⟨hperm, _⟩ := guard_eq_ok.mp hmint
    exact (mintReady_of_ok hr (not_not.mp hperm)).1

theorem mintBalance_total {c : Coin} (h0 : 0 ≤ c.amount) (hf : SdkInt.Fits (100 * c.amount)) :
    mintBalance c = .ok { c with amount := 99 * c.amount } := by
  have hmul : c.amount * exponentMultiplier = 100 * c.amount := mul_comm _ _
  have hsub : c.amount * exponentMultiplier - c.amount = 99 * c.amount := by
    rw [hmul]
    ring
  unfold mintBalance
  rw [SdkInt.mul_ok.mpr ⟨hmul ▸ hf, rfl⟩, ok_bind, SdkInt.sub_ok.mpr ⟨?_, rfl⟩, ok_bind, hsub]
  rw [hsub]
  exact SdkInt.fits_of_le (by omega) (by omega) hf

theorem isValid_scaled {cs : Coins} (h : cs.IsValid) :
    Coins.IsValid (cs.map fun c => { c with amount := 99 * c.amount }) := by
  constructor
  · intro c hc
    obtain ⟨x, hx, rfl⟩ := List.mem_map.mp hc
    obtain ⟨hd, hpos⟩ := h.1 x hx
    exact ⟨hd, by show 0 < 99 * x.amount; omega⟩
  · exact List.pairwise_map.mpr h.2

/-- **One account can be scaled** if the mint module may mint, the account may receive, and the
supply has room. -/
theorem scaleBalances_total {account : Account Addr} (hwf : s.bank.WellFormed)
    (hsup : ∀ d, s.bank.supplyOf d = s.bank.total d) (hmint : s.auth.MintReady cfg.names)
    (hrec : account.Receives cfg)
    (hkind : ∀ name perms, account.kind = .module name perms →
      s.auth.kindAt account.address = some account.kind)
    (hroom : ∀ d, SdkInt.Fits (s.bank.supplyOf d + 99 * s.bank.balance account.address d)) :
    ∃ s', scaleBalances cfg ctx s account = .ok s' := by
  let cs := s.bank.getAllBalances account.address
  let amt : Coins := cs.map fun c => { c with amount := 99 * c.amount }
  have hcs : cs.IsValid := hwf.isValid account.address
  have hv : amt.IsValid := isValid_scaled hcs
  -- every balance is at most the supply
  have hfit (x : Addr) (d : String) :
      SdkInt.Fits (s.bank.balance x d + 99 * s.bank.balance account.address d) := by
    have h1 := hwf.nonneg x d
    have h2 := hwf.nonneg account.address d
    have h3 := hwf.balance_le x d
    have h4 := hsup d
    exact SdkInt.fits_of_le (by omega) (by omega) (hroom d)
  have hcoins : cs.mapM mintBalance = .ok amt := by
    refine mapM_of (fun c hc => mintBalance_total (hcs.1 c hc).2.le ?_)
    have hf := hfit account.address c.denom
    rw [← BankState.amount_getAllBalances hc] at hf
    rw [show 100 * c.amount = c.amount + 99 * c.amount by ring]
    exact hf
  have hamt : ∀ c ∈ amt, c.amount = 99 * s.bank.balance account.address c.denom := by
    intro c hc
    obtain ⟨x, hx, rfl⟩ := List.mem_map.mp hc
    show 99 * x.amount = _
    rw [BankState.amount_getAllBalances hx]
  obtain ⟨s1, h1⟩ := mintCoins_total hmint hwf hv (by
    intro c hc
    rw [hamt c hc]
    exact ⟨hfit _ _, hroom _⟩)
  obtain ⟨b, acc, auth, hacc, rfl, hl, htotal, _⟩ := App.mintCoins_ok h1
  have hwf1 := mintCoins_wellFormed hwf h1
  obtain ⟨acc', auth', hacc', hperm, hmintKind⟩ := getModuleAccount_mint hmint
  rw [hacc] at hacc'
  cases hacc'
  obtain ⟨name, perms, hmodule, _⟩ := hasPermission_iff.mp hperm
  rw [hmodule] at hmintKind
  have hnodup : (amt.map Coin.denom).Nodup := List.pairwise_map.mpr (BankState.denoms_ne hv)
  -- the minted coins are in the mint module's account, and the supply has room for them
  have hheld : ∀ c ∈ amt, c.amount ≤ b.balance (newModuleAddress cfg.names.mint) c.denom := by
    intro c hc
    have hc' := congrFun (congrFun hl (newModuleAddress cfg.names.mint)) c.denom
    rw [Ledger.credit_self, Coins.amountOf_of_mem hnodup hc] at hc'
    have hnn := hwf.nonneg (newModuleAddress cfg.names.mint) c.denom
    exact (le_add_of_nonneg_left hnn).trans_eq hc'.symm
  have hfits : ∀ d, SdkInt.Fits (b.total d) := by
    intro d
    rw [htotal, ← hsup, amountOf_mintBalances hcoins]
    exact hroom d
  have hsend : ∃ s2, App.sendCoins ctx { s with bank := b, auth := auth }
      (newModuleAddress cfg.names.mint) account.address amt = .ok s2 :=
    App.sendCoins_total hwf1 hfits hv (fun c hc => by
      rw [App.spendableCoins_of_unlocked (lockedCoins_module hmintKind c.denom)]
      exact hheld c hc)
  obtain ⟨s2, h2⟩ := hsend
  refine ⟨s2, bind_eq_ok.mpr ⟨amt, hcoins, bind_eq_ok.mpr ⟨_, h1, ?_⟩⟩⟩
  rw [← h2]
  refine sendMinted_eq hrec (fun name perms hk => ?_)
  exact AuthState.kindAt_mono hacc (hkind name perms hk)

/-! ## the run -/

/-- the state before an iteration, after the accounts of `done` were visited -/
structure Halfway (cfg : Config Addr) (s : App Addr) (done : List (Account Addr)) (t : App Addr) :
    Prop where
  bank : ScaledBank s.bank done t.bank
  wellFormed : t.bank.WellFormed
  mint : t.auth.MintReady cfg.names
  stored : ∀ a ∈ s.auth.getAllAccounts, t.auth.hasAccount a.address = true
  kinds : ∀ x k, x ≠ meidAdmin Addr → x ≠ airDrop Addr → s.auth.kindAt x = some k →
    t.auth.kindAt x = some k

/-- the addresses of the two constants are not those of modules -/
def ConstantsApart (cfg : Config Addr) : Prop :=
  ∀ p ∈ cfg.names.maccPerms,
    newModuleAddress p.1 ≠ meidAdmin Addr ∧ newModuleAddress p.1 ≠ airDrop Addr

instance : Decidable (ConstantsApart cfg) :=
  inferInstanceAs (Decidable (∀ p ∈ cfg.names.maccPerms, _))

theorem ConstantsApart.of_listed (h : ConstantsApart cfg) {name : String}
    (hn : AuthState.permissionsFor cfg.names name ≠ none) :
    newModuleAddress name ≠ meidAdmin Addr ∧ newModuleAddress name ≠ airDrop Addr := by
  obtain ⟨perms, hp⟩ := Option.ne_none_iff_exists'.mp hn
  obtain ⟨p, hfind, _⟩ := Option.map_eq_some_iff.mp hp
  have hname : p.1 = name := by simpa using List.find?_some hfind
  rw [← hname]
  exact h p (List.mem_of_find?_eq_some hfind)

theorem kindAt_of_mem {s : AuthState Addr} {a : Account Addr} (h : a ∈ s.getAllAccounts) :
    s.kindAt a.address = some a.kind := by
  rw [AuthState.kindAt, AuthState.mem_getAllAccounts.mp h]
  rfl

theorem Halfway.step {t t' : App Addr} {done rest : List (Account Addr)} {a : Account Addr}
    (hapart : ConstantsApart cfg) (h : Halfway cfg s done t)
    (hl : s.auth.getAllAccounts = done ++ a :: rest)
    (hstep : resetExponentStep cfg ctx t a = .ok t') : Halfway cfg s (done ++ [a]) t' := by
  obtain ⟨u, hu, rfl⟩ := resetExponentStep_ok hstep
  have ha : a ∈ s.auth.getAllAccounts := by
    rw [hl]
    simp
  obtain ⟨b, hb⟩ := AuthState.hasAccount_iff.mp (h.stored a ha)
  obtain ⟨acc, hacc⟩ := scaleBalances_auth hu hb
  obtain ⟨acc', auth', hacc', hperm, _⟩ := getModuleAccount_mint h.mint
  rw [hacc] at hacc'
  cases hacc'
  -- a kind kept so far is kept by the lookup and by the renumbering
  have hkinds (x : Addr) (k : AccountKind) (hM : x ≠ meidAdmin Addr) (hD : x ≠ airDrop Addr)
      (hk : s.auth.kindAt x = some k) : (renumber u.auth a).kindAt x = some k := by
    have hu' := AuthState.kindAt_mono hacc (h.kinds x k hM hD hk)
    rw [kindAt_renumber hM hD (fun hx => ?_)]
    · exact hu'
    · rw [hx, kindAt_of_mem ha] at hk
      rw [hu', hk]
  have hwf := scaleBalances_wellFormed h.wellFormed hu
  have hbank := h.bank.step (notMem_visited hl (accounts_nodup s.auth)) hu
  refine ⟨hbank, hwf, fun k hk => ?_, fun x hx => ?_, hkinds⟩
  · have hlisted : AuthState.permissionsFor cfg.names cfg.names.mint ≠ none := by
      rw [permissionsFor_mint]
      simp
    obtain ⟨hM, hD⟩ := hapart.of_listed hlisted
    have hready := (mintReady_of_ok hacc hperm).2
    change (renumber u.auth a).kindAt _ = some k at hk
    by_cases hx : newModuleAddress cfg.names.mint = a.address
    · have hmem := h.kinds _ _ hM hD (by rw [hx]; exact kindAt_of_mem ha)
      have hsame := AuthState.kindAt_mono hacc hmem
      rw [hkinds _ a.kind hM hD (by rw [hx]; exact kindAt_of_mem ha)] at hk
      exact hready k (hsame.trans hk)
    · rw [kindAt_renumber hM hD (fun he => absurd he hx)] at hk
      exact hready k hk
  · obtain ⟨b', hb'⟩ := AuthState.hasAccount_iff.mp (h.stored x hx)
    exact hasAccount_renumber (AuthState.hasAccount_iff.mpr
      ⟨b', AuthState.getModuleAccount_mono hacc hb'⟩)

/-- What `resetExponent` needs of the state: room in the supply for what is minted, an account that
may mint, and accounts that may receive. -/
structure Scalable (cfg : Config Addr) (s : App Addr) : Prop where
  room : ∀ d, SdkInt.Fits (s.bank.supplyOf d
    + 99 * (s.auth.getAllAccounts.map fun a => s.bank.balance a.address d).sum)
  mint : s.auth.MintReady cfg.names
  receives : ∀ a ∈ s.auth.getAllAccounts, a.Receives cfg

theorem held_append (b : BankState Addr) (l r : List (Account Addr)) (d : String) :
    ((l ++ r).map fun a => b.balance a.address d).sum
      = (l.map fun a => b.balance a.address d).sum + (r.map fun a => b.balance a.address d).sum := by
  rw [List.map_append, List.sum_append]

theorem held_nonneg {b : BankState Addr} (h : b.WellFormed) (l : List (Account Addr)) (d : String) :
    0 ≤ (l.map fun a => b.balance a.address d).sum := by
  refine List.sum_nonneg (fun x hx => ?_)
  obtain ⟨a, _, rfl⟩ := List.mem_map.mp hx
  exact h.nonneg _ _

theorem resetExponent_total (hapart : ConstantsApart cfg) (hwf : s.bank.WellFormed)
    (hsup : ∀ d, s.bank.supplyOf d = s.bank.total d) (hs : Scalable cfg s) :
    ∃ s', resetExponent cfg ctx s = .ok s' := by
  have hrun := foldlM_total (f := resetExponentStep cfg ctx) (l := s.auth.getAllAccounts)
    (s := s) (I := Halfway cfg s) ?_ ?_
  · obtain ⟨s', hs', _⟩ := hrun
    exact ⟨s', hs'⟩
  · refine ⟨ScaledBank.start _, hwf, hs.mint, fun a ha => ?_, fun _ _ _ _ hk => hk⟩
    exact AuthState.hasAccount_iff.mpr ⟨a, AuthState.mem_getAllAccounts.mp ha⟩
  · intro done a rest t hl hI
    have ha : a ∈ s.auth.getAllAccounts := by
      rw [hl]
      simp
    have hnew := notMem_visited hl (accounts_nodup s.auth)
    have htotal : ∃ u, scaleBalances cfg ctx t a = .ok u :=
      scaleBalances_total hI.wellFormed (fun d => by
      have hm := hI.bank.matched d
      have h0 := hsup d
      omega) hI.mint (hs.receives a ha) (fun name perms hk => by
      have hrec := hs.receives a ha
      simp only [Account.Receives, hk] at hrec
      obtain ⟨hM, hD⟩ := hapart.of_listed hrec
      rw [← a.moduleAddress name perms hk] at hM hD
      exact hI.kinds _ _ hM hD (kindAt_of_mem ha)) (fun d => by
      have hroom := hs.room d
      have h1 := held_nonneg hwf rest d
      have h2 := hI.wellFormed.nonneg a.address d
      have h3 := hI.wellFormed.nonneg a.address d
      have h4 := hI.wellFormed.balance_le a.address d
      have h5 := hI.bank.matched d
      have h6 := hsup d
      have h7 := hI.bank.supply d
      have h8 := hI.bank.waiting hnew d
      rw [hl, held_append, List.map_cons, List.sum_cons] at hroom
      exact SdkInt.fits_of_le (by omega) (by omega) hroom)
    obtain ⟨u, hu⟩ := htotal
    have hstep : resetExponentStep cfg ctx t a = .ok { u with auth := renumber u.auth a } :=
      bind_eq_ok.mpr ⟨u, hu, rfl⟩
    exact ⟨_, hstep, hI.step hapart hl hstep⟩

/-- **`resetExponent` succeeds exactly when the state is scalable.** -/
theorem resetExponent_isOk_iff (hapart : ConstantsApart cfg) (hwf : s.bank.WellFormed)
    (hsup : ∀ d, s.bank.supplyOf d = s.bank.total d) :
    (∃ s', resetExponent cfg ctx s = .ok s') ↔ Scalable cfg s := by
  refine ⟨fun h => ?_, resetExponent_total hapart hwf hsup⟩
  obtain ⟨s', h⟩ := h
  have hrun := foldlM_ok (I := fun done t => t.bank.WellFormed ∧
    (done = [] → t = s) ∧ (done ≠ [] → s.auth.MintReady cfg.names) ∧
    ∀ a ∈ done, a.Receives cfg) h ⟨hwf, fun _ => rfl, fun hne => absurd rfl hne,
      fun a ha => absurd ha List.not_mem_nil⟩ (by
    intro done a rest t t' _ hI hstep
    obtain ⟨hwft, hfirst, hmint, hrec⟩ := hI
    obtain ⟨u, hu, rfl⟩ := resetExponentStep_ok hstep
    obtain ⟨hready, ha⟩ := scaleBalances_guard hu
    have hwfu := scaleBalances_wellFormed hwft hu
    refine ⟨hwfu, fun he => ?_, fun _ => ?_, fun x hx => ?_⟩
    · simp at he
    · by_cases hd : done = []
      · rw [← hfirst hd]
        exact hready
      · exact hmint hd
    · rcases List.mem_append.mp hx with hx | hx
      · exact hrec x hx
      · rw [List.mem_singleton.mp hx]
        exact ha)
  refine ⟨fun d => ?_, ?_, hrun.2.2.2⟩
  · rw [← (resetExponent_run h).1.supply d]
    exact hrun.1.supply d
  · intro k hk
    obtain ⟨a, ha, _⟩ := AuthState.kindAt_eq_some.mp hk
    refine hrun.2.2.1 (fun he => ?_) k hk
    have hmem : a ∈ s.auth.getAllAccounts := Table.mem_of_get ha
    rw [he] at hmem
    cases hmem

end

end MeChain
