import MeChain.BankProgress
import MeChain.ValidatorSet

/-!
# The payment between the pools

`ApplyAndReturnValidatorSetUpdates` ends with one payment: the tokens of the validators it bonded, less
those of the validators it unbonded, go from one pool to the other.

* `applyAndReturn_ok`    the loops over the staking store, and then the payment;
* `updatePools_cases`    nothing is paid, or one pool pays the other;
* `updatePools_frame`    the payment touches bank and accounts only;
* `PoolPays`, `updatePools_ends_iff`   what a pool needs to pay: without it the call panics;
* `PoolsMoved`           what the payment leaves as it is.
-/

set_option linter.unusedSectionVars false

namespace MeChain
open Fallible

variable {Addr : Type} [SdkAddress Addr] [DecidableEq Addr]

namespace App

section
variable {cfg : Config Addr} {ctx : Context} {s t : App Addr} {sender recipient : String} {n : ℤ}

theorem sendTokens_ok (h : s.sendTokens cfg ctx sender recipient n = .ok t) :
    ∃ acc auth, AuthState.getModuleAccount cfg.names s.auth recipient = .ok (some acc, auth) ∧
      ({ s with auth := auth } : App Addr).sendCoins ctx (newModuleAddress sender)
        (newModuleAddress recipient) [⟨s.staking.bondDenom, n⟩] = .ok t := by
  obtain ⟨coin, hcoin, h⟩ := bind_eq_ok.mp h
  obtain ⟨_, rfl⟩ := newCoin_ok.mp hcoin
  exact sendCoinsFromModuleToModule_ok (panicOnError_ok.mp h)

/-- **The payment**: nothing, or the difference from one pool to the other. -/
theorem updatePools_cases {into out : ℤ} (h : s.updatePools cfg ctx into out = .ok t) :
    (into = out ∧ t = s) ∨
    (out < into ∧
      s.sendTokens cfg ctx cfg.names.notBondedPool cfg.names.bondedPool (into - out) = .ok t) ∨
    into < out ∧
      s.sendTokens cfg ctx cfg.names.bondedPool cfg.names.notBondedPool (out - into) = .ok t := by
  unfold updatePools at h
  by_cases hin : out < into
  · rw [if_pos hin] at h
    obtain ⟨amt, hamt, h⟩ := bind_eq_ok.mp h
    obtain ⟨_, rfl⟩ := SdkInt.sub_ok.mp hamt
    exact Or.inr (Or.inl ⟨hin, h⟩)
  · rw [if_neg hin] at h
    by_cases hout : into < out
    · rw [if_pos hout] at h
      obtain ⟨amt, hamt, h⟩ := bind_eq_ok.mp h
      obtain ⟨_, rfl⟩ := SdkInt.sub_ok.mp hamt
      exact Or.inr (Or.inr ⟨hout, h⟩)
    · rw [if_neg hout] at h
      cases h
      exact Or.inl ⟨le_antisymm (not_lt.mp hin) (not_lt.mp hout), rfl⟩

theorem updatePools_frame {into out : ℤ} (h : s.updatePools cfg ctx into out = .ok t) :
    t = { s with auth := t.auth, bank := t.bank } := by
  have hsend : ∀ {sender recipient n}, s.sendTokens cfg ctx sender recipient n = .ok t →
      t = { s with auth := t.auth, bank := t.bank } := by
    intro sender recipient n h
    obtain ⟨_, auth, _, h⟩ := sendTokens_ok h
    obtain ⟨b, rfl, _⟩ := sendCoins_ok h
    rfl
  rcases updatePools_cases h with ⟨_, rfl⟩ | ⟨_, h⟩ | ⟨_, h⟩
  · rfl
  · exact hsend h
  · exact hsend h

/-- an account that is created for a module locks nothing -/
theorem lockedCoins_getModuleAccount {name : String} {r : Option (Account Addr)} {auth : AuthState Addr}
    (h : AuthState.getModuleAccount cfg.names s.auth name = .ok (r, auth)) (x : Addr) (d : String) :
    ({ s with auth := auth } : App Addr).lockedCoins ctx x d = s.lockedCoins ctx x d := by
  rcases AuthState.getModuleAccount_ok h with ⟨_, _, rfl⟩ | ⟨_, _, _, _, _, _, _, rfl⟩ |
    ⟨perms, _, hnone, _, rfl⟩
  · rfl
  · rfl
  · unfold lockedCoins
    rw [show ({ s with auth := s.auth.createModuleAccount name perms } : App Addr).auth.getAccount x
      = _ from AuthState.getAccount_create ..]
    by_cases hx : x = newModuleAddress name
    · rw [if_pos hx, hx, hnone]
      exact Account.lockedAmount_module rfl _ _
    · rw [if_neg hx]

/-- a pool can pay an amount of tokens to another: they have a denomination, whatever account is at the
recipient's address is a module account, and the sender can spend them -/
structure PoolPays (ctx : Context) (s : App Addr) (sender recipient : String) (n : ℤ) : Prop where
  denom : validDenom s.staking.bondDenom = true
  recipient : ∀ k, s.auth.kindAt (newModuleAddress recipient) = some k →
    ∃ name perms, k = .module name perms
  funds : n ≤ s.spendableCoins ctx (newModuleAddress sender) s.staking.bondDenom

theorem sendTokens_ends_iff (hw : s.bank.WellFormed) (hsupply : ∀ d, s.bank.supplyOf d = s.bank.total d)
    (hsender : AuthState.permissionsFor cfg.names sender ≠ none)
    (hrecipient : AuthState.permissionsFor cfg.names recipient ≠ none) (hn : 0 < n) :
    (∃ t, s.sendTokens cfg ctx sender recipient n = .ok t) ↔ PoolPays ctx s sender recipient n := by
  constructor
  · rintro ⟨t, h⟩
    obtain ⟨coin, hcoin, _⟩ := bind_eq_ok.mp h
    obtain ⟨acc, auth, hacc, hsend⟩ := sendTokens_ok h
    refine ⟨(newCoin_ok.mp hcoin).1.1, fun k hk => ?_, ?_⟩
    · obtain ⟨a, ha, rfl⟩ := AuthState.kindAt_eq_some.mp hk
      rcases AuthState.getModuleAccount_ok hacc with ⟨_, hr, _⟩ | ⟨_, nm, perms, ha', hkind, _⟩ |
        ⟨_, _, hnone, _⟩
      · cases hr
      · rw [ha] at ha'
        cases ha'
        exact ⟨nm, perms, hkind⟩
      · rw [ha] at hnone
        cases hnone
    · obtain ⟨b, hb, _⟩ := bind_eq_ok.mp hsend
      have hspent := BankState.subUnlockedCoins_spendable hb _ (List.mem_singleton_self _)
      rw [lockedCoins_getModuleAccount hacc] at hspent
      exact hspent
  · intro h
    have hacc : ∃ acc auth,
        AuthState.getModuleAccount cfg.names s.auth recipient = .ok (some acc, auth) := by
      obtain ⟨perms, hperms⟩ := Option.ne_none_iff_exists'.mp hrecipient
      cases ha : s.auth.getAccount (newModuleAddress recipient) with
      | none =>
        refine ⟨(s.auth.newAccount (Account.newEmptyModuleAccount recipient perms)).1,
          s.auth.createModuleAccount recipient perms, ?_⟩
        simp only [AuthState.getModuleAccount, hperms, ha]
        rfl
      | some a =>
        obtain ⟨nm, ps, hkind⟩ := h.recipient a.kind (AuthState.kindAt_eq_some.mpr ⟨a, ha, rfl⟩)
        exact ⟨_, _, AuthState.getModuleAccount_stored hrecipient ha hkind⟩
    obtain ⟨acc, auth, hacc⟩ := hacc
    have hvalid : Coins.IsValid [⟨s.staking.bondDenom, n⟩] :=
      ⟨List.forall_mem_singleton.mpr ⟨h.denom, hn⟩, List.pairwise_singleton _ _⟩
    have hsend : ∃ t, ({ s with auth := auth } : App Addr).sendCoins ctx (newModuleAddress sender)
        (newModuleAddress recipient) [⟨s.staking.bondDenom, n⟩] = .ok t := by
      refine sendCoins_total hw (fun d => ?_) hvalid (List.forall_mem_singleton.mpr ?_)
      · rw [← hsupply]
        exact hw.supply d
      · rw [spendableCoins, lockedCoins_getModuleAccount hacc]
        exact h.funds
    obtain ⟨t, ht⟩ := hsend
    obtain ⟨perms, hperms⟩ := Option.ne_none_iff_exists'.mp hsender
    have hmodule : s.sendCoinsFromModuleToModule cfg ctx sender recipient [⟨s.staking.bondDenom, n⟩]
        = .ok t := by
      unfold sendCoinsFromModuleToModule
      rw [AuthState.getModuleAddress, hperms, Option.map_some]
      refine bind_eq_ok.mpr ⟨_, hacc, ?_⟩
      rw [← AuthState.getModuleAccount_address hacc] at ht
      exact ht
    exact ⟨t, bind_eq_ok.mpr ⟨_, newCoin_ok.mpr ⟨⟨h.denom, hn.le⟩, rfl⟩, panicOnError_ok.mpr hmodule⟩⟩

theorem PoolPays.fits (h : PoolPays ctx s sender recipient n) (hw : s.bank.WellFormed)
    (hsupply : ∀ d, s.bank.supplyOf d = s.bank.total d) (hn : 0 < n) : SdkInt.Fits n := by
  have hlocked := s.lockedCoins_nonneg ctx (newModuleAddress sender) s.staking.bondDenom
  have hle := hw.balance_le (newModuleAddress sender) s.staking.bondDenom
  have hfunds := h.funds
  unfold spendableCoins at hfunds
  rw [← hsupply] at hle
  exact SdkInt.fits_of_le hn.le (by omega) (hw.supply s.staking.bondDenom)

/-- the pool that has to pay can -/
def PoolsCover (cfg : Config Addr) (ctx : Context) (s : App Addr) (into out : ℤ) : Prop :=
  (out < into → PoolPays ctx s cfg.names.notBondedPool cfg.names.bondedPool (into - out)) ∧
    (into < out → PoolPays ctx s cfg.names.bondedPool cfg.names.notBondedPool (out - into))

/-- **When the payment between the pools succeeds**, over a sound bank. -/
theorem updatePools_ends_iff (hw : s.bank.WellFormed)
    (hsupply : ∀ d, s.bank.supplyOf d = s.bank.total d) {into out : ℤ} :
    (∃ t, s.updatePools cfg ctx into out = .ok t) ↔ s.PoolsCover cfg ctx into out := by
  have hbonded : AuthState.permissionsFor cfg.names cfg.names.bondedPool ≠ none := by
    rw [AuthState.permissionsFor_listed (p := (cfg.names.bondedPool, [burner, stakingPerm]))
      (by simp [ModuleNames.maccPerms])]
    exact Option.some_ne_none _
  have hnotBonded : AuthState.permissionsFor cfg.names cfg.names.notBondedPool ≠ none := by
    rw [AuthState.permissionsFor_listed (p := (cfg.names.notBondedPool, [burner, stakingPerm]))
      (by simp [ModuleNames.maccPerms])]
    exact Option.some_ne_none _
  constructor
  · rintro ⟨t, h⟩
    rcases updatePools_cases h with ⟨heq, _⟩ | ⟨hlt, h⟩ | ⟨hlt, h⟩
    · exact ⟨fun hlt => by omega, fun hlt => by omega⟩
    · exact ⟨fun _ => (sendTokens_ends_iff hw hsupply hnotBonded hbonded (by omega)).mp ⟨t, h⟩,
        fun hlt' => by omega⟩
    · exact ⟨fun hlt' => by omega,
        fun _ => (sendTokens_ends_iff hw hsupply hbonded hnotBonded (by omega)).mp ⟨t, h⟩⟩
  · rintro ⟨hin, hout⟩
    unfold updatePools
    by_cases hlt : out < into
    · rw [if_pos hlt]
      have hpays := hin hlt
      obtain ⟨t, ht⟩ := (sendTokens_ends_iff hw hsupply hnotBonded hbonded (by omega)).mpr hpays
      exact ⟨t, bind_eq_ok.mpr ⟨_, SdkInt.sub_ok.mpr ⟨hpays.fits hw hsupply (by omega), rfl⟩, ht⟩⟩
    · rw [if_neg hlt]
      by_cases hlt' : into < out
      · rw [if_pos hlt']
        have hpays := hout hlt'
        obtain ⟨t, ht⟩ := (sendTokens_ends_iff hw hsupply hbonded hnotBonded (by omega)).mpr hpays
        exact ⟨t, bind_eq_ok.mpr ⟨_, SdkInt.sub_ok.mpr ⟨hpays.fits hw hsupply (by omega), rfl⟩, ht⟩⟩
      · exact ⟨s, if_neg hlt'⟩

/-- Money that moved between the two token pools at most, and no account but theirs that is new. -/
structure PoolsMoved (cfg : Config Addr) (s t : App Addr) : Prop where
  supply : t.bank.supply = s.bank.supply
  together : ∀ d, t.bank.balance (newModuleAddress cfg.names.bondedPool) d
      + t.bank.balance (newModuleAddress cfg.names.notBondedPool) d
    = s.bank.balance (newModuleAddress cfg.names.bondedPool) d
      + s.bank.balance (newModuleAddress cfg.names.notBondedPool) d
  others : ∀ a, a ≠ newModuleAddress cfg.names.bondedPool →
    a ≠ newModuleAddress cfg.names.notBondedPool →
    (∀ d, t.bank.balance a d = s.bank.balance a d) ∧ t.auth.getAccount a = s.auth.getAccount a
  stored : ∀ a b, s.auth.getAccount a = some b → t.auth.getAccount a = some b

theorem PoolsMoved.refl (cfg : Config Addr) (s : App Addr) : PoolsMoved cfg s s :=
  ⟨rfl, fun _ => rfl, fun _ _ _ => ⟨fun _ => rfl, rfl⟩, fun _ _ h => h⟩

theorem PoolsMoved.trans {u : App Addr} (h : PoolsMoved cfg s t) (h' : PoolsMoved cfg t u) :
    PoolsMoved cfg s u := by
  refine ⟨h'.supply.trans h.supply, fun d => (h'.together d).trans (h.together d),
    fun a hb hn => ?_, fun a b hab => h'.stored a b (h.stored a b hab)⟩
  obtain ⟨hbal, hacc⟩ := h.others a hb hn
  obtain ⟨hbal', hacc'⟩ := h'.others a hb hn
  exact ⟨fun d => (hbal' d).trans (hbal d), hacc'.trans hacc⟩

theorem sendTokens_moved (h : s.sendTokens cfg ctx sender recipient n = .ok t) :
    t.bank.supply = s.bank.supply ∧
    (∃ amt : String → ℤ, ∀ a d, t.bank.balance a d = s.bank.balance a d
      + (if a = newModuleAddress sender then -amt d else 0)
      + if a = newModuleAddress recipient then amt d else 0) ∧
    (∀ a, a ≠ newModuleAddress recipient → t.auth.getAccount a = s.auth.getAccount a) ∧
    ∀ a b, s.auth.getAccount a = some b → t.auth.getAccount a = some b := by
  obtain ⟨acc, auth, hacc, hsend⟩ := sendTokens_ok h
  obtain ⟨b, rfl, hledger, _, hsupply⟩ := sendCoins_ok hsend
  have hauth : auth.ensureAccount (newModuleAddress recipient) = auth :=
    AuthState.ensureAccount_of_stored (AuthState.getModuleAccount_found hacc)
  refine ⟨hsupply, ⟨Coins.amountOf [⟨s.staking.bondDenom, n⟩], fun a d => ?_⟩, fun a hne => ?_,
    fun a c hc => ?_⟩
  · exact congrFun (congrFun hledger a) d
  · show (auth.ensureAccount _).getAccount a = _
    rw [hauth]
    exact AuthState.getModuleAccount_other hacc hne
  · show (auth.ensureAccount _).getAccount a = _
    rw [hauth]
    exact AuthState.getModuleAccount_mono hacc hc

theorem updatePools_moved {into out : ℤ} (h : s.updatePools cfg ctx into out = .ok t) :
    PoolsMoved cfg s t := by
  rcases updatePools_cases h with ⟨_, rfl⟩ | ⟨_, h⟩ | ⟨_, h⟩
  · exact PoolsMoved.refl cfg t
  · obtain ⟨hsupply, ⟨amt, hbal⟩, hother, hstored⟩ := sendTokens_moved h
    refine ⟨hsupply, fun d => ?_, fun a hb hn => ⟨fun d => ?_, hother a hb⟩, hstored⟩
    · rw [hbal, hbal, if_pos rfl, if_pos rfl]
      by_cases heq : newModuleAddress cfg.names.bondedPool
          = (newModuleAddress cfg.names.notBondedPool : Addr)
      · rw [if_pos heq, if_pos heq.symm]
        omega
      · rw [if_neg heq, if_neg (Ne.symm heq)]
        omega
    · rw [hbal, if_neg hb, if_neg hn, add_zero, add_zero]
  · obtain ⟨hsupply, ⟨amt, hbal⟩, hother, hstored⟩ := sendTokens_moved h
    refine ⟨hsupply, fun d => ?_, fun a hb hn => ⟨fun d => ?_, hother a hn⟩, hstored⟩
    · rw [hbal, hbal, if_pos rfl, if_pos rfl]
      by_cases heq : newModuleAddress cfg.names.bondedPool
          = (newModuleAddress cfg.names.notBondedPool : Addr)
      · rw [if_pos heq, if_pos heq.symm]
        omega
      · rw [if_neg heq, if_neg (Ne.symm heq)]
        omega
    · rw [hbal, if_neg hb, if_neg hn, add_zero, add_zero]

variable [LE Addr] [DecidableLE Addr]

/-- **What `ApplyAndReturnValidatorSetUpdates` did**: the loops over the staking store, and the payment
between the pools. -/
theorem applyAndReturn_ok {updates : List ValidatorUpdate} :
    s.applyAndReturnValidatorSetUpdates cfg ctx = .ok (t, updates) ↔
    ∃ x, s.staking.updateValidatorSet cfg.powerReduction ctx.blockHeight = .ok x ∧
      ({ s with staking := x.staking } : App Addr).updatePools cfg ctx x.amtFromNotBondedToBonded
        x.amtFromBondedToNotBonded = .ok t ∧ updates = x.updates := by
  constructor
  · intro h
    obtain ⟨x, hx, h⟩ := bind_eq_ok.mp h
    obtain ⟨u, hu, h⟩ := bind_eq_ok.mp h
    cases h
    exact ⟨x, hx, hu, rfl⟩
  · rintro ⟨x, hx, hu, rfl⟩
    exact bind_eq_ok.mpr ⟨x, hx, bind_eq_ok.mpr ⟨t, hu, rfl⟩⟩

end

end App

end MeChain
