import MeChain.State

/-!
# The account keeper

* `setAccount`        writes an account under its address and its number into the number index, and
                      deletes nothing;
* `getModuleAccount`  finds the account of a module of `maccPerms`, or creates it under the next
                      account number;
* `lockedAmount`      what the vesting schedule of an account still locks of one denomination;
* `kindAt`            the kind of the account at an address.

`getModuleAccount_ok` says everything a successful call can do.
-/

set_option linter.unusedSectionVars false

namespace MeChain

variable {Addr : Type} [SdkAddress Addr]

namespace Account

def setAccountNumber (a : Account Addr) (n : Nat) : Account Addr := { a with accountNumber := n }

@[simp] theorem setAccountNumber_number (a : Account Addr) (n : Nat) :
    (a.setAccountNumber n).accountNumber = n := rfl

def newBaseAccountWithAddress (addr : Addr) : Account Addr where
  address := addr
  pubKey := none
  accountNumber := 0
  sequence := 0
  kind := .base
  moduleAddress := by intro _ _ h; cases h

def newEmptyModuleAccount (name : String) (perms : List String) : Account Addr where
  address := newModuleAddress name
  pubKey := none
  accountNumber := 0
  sequence := 0
  kind := .module name perms
  moduleAddress := by intro _ _ h; cases h; rfl

/-- `HasPermission`, of module accounts -/
def hasPermission (a : Account Addr) (perm : String) : Bool :=
  match a.kind with
  | .module _ perms => perm ∈ perms
  | _ => false

/-! ### vesting -/

/-- `GetVestedCoins` of a periodic account: the amounts of the periods that are over -/
def periodsVested (t : ℤ) : ℤ → List Period → String → ℤ
  | _, [], _ => 0
  | start, p :: ps, d =>
    if t - start < p.length then 0
    else p.amount.amountOf d + periodsVested t (start + p.length) ps d

/-- `GetVestedCoins`, one denomination, at block time `t` -/
def vestedAmount (k : AccountKind) (t : ℤ) (d : String) : ℤ :=
  match k with
  | .continuousVesting v start =>
    if t ≤ start then 0
    else if v.endTime ≤ t then v.originalVesting.amountOf d
    else
      let s := Dec.quo (Dec.ofInt (t - start)) (Dec.ofInt (v.endTime - start))
      Dec.roundInt (Dec.chopPrecisionAndRound (Dec.ofInt (v.originalVesting.amountOf d) * s))
  | .delayedVesting v => if v.endTime ≤ t then v.originalVesting.amountOf d else 0
  | .periodicVesting v start periods =>
    if t ≤ start then 0
    else if v.endTime ≤ t then v.originalVesting.amountOf d
    else periodsVested t start periods d
  | _ => 0

/-- `LockedCoinsFromVesting`: what still vests, less what is delegated out of it -/
def lockedFromVesting (v : BaseVesting) (vesting : ℤ) (d : String) : ℤ :=
  vesting - min vesting (v.delegatedVesting.amountOf d)

/-- `LockedCoins`, one denomination; accounts that do not vest lock nothing -/
def lockedAmount (a : Account Addr) (t : ℤ) (d : String) : ℤ :=
  match a.kind with
  | .continuousVesting v _ | .delayedVesting v | .periodicVesting v _ _ | .permanentLocked v =>
    lockedFromVesting v (v.originalVesting.amountOf d - vestedAmount a.kind t d) d
  | _ => 0

theorem lockedAmount_module {a : Account Addr} {name : String} {perms : List String}
    (h : a.kind = .module name perms) (t : ℤ) (d : String) : a.lockedAmount t d = 0 := by
  simp only [lockedAmount, h]

theorem lockedAmount_of_kind {a b : Account Addr} (h : a.kind = b.kind) (t : ℤ) (d : String) :
    a.lockedAmount t d = b.lockedAmount t d := by
  unfold lockedAmount
  rw [h]

theorem lockedAmount_nonneg (a : Account Addr) (t : ℤ) (d : String) : 0 ≤ a.lockedAmount t d := by
  have hlocks (v : BaseVesting) (vesting : ℤ) : 0 ≤ lockedFromVesting v vesting d := by
    unfold lockedFromVesting
    omega
  unfold lockedAmount
  split
  · exact hlocks _ _
  · exact hlocks _ _
  · exact hlocks _ _
  · exact hlocks _ _
  · exact le_rfl

end Account

namespace AuthState

def getAccount (s : AuthState Addr) [DecidableEq Addr] (addr : Addr) : Option (Account Addr) :=
  s.accounts.get addr

def getAllAccounts (s : AuthState Addr) : List (Account Addr) := s.accounts.rows

section
variable [DecidableEq Addr]

def hasAccount (s : AuthState Addr) (addr : Addr) : Bool := s.accounts.has addr

def setAccount (s : AuthState Addr) (a : Account Addr) : AuthState Addr :=
  { s with
    accounts := s.accounts.put a
    accountNumbers := s.accountNumbers.put (a.accountNumber, a.address) }

def nextAccountNumber (s : AuthState Addr) : Nat × AuthState Addr :=
  (s.globalAccountNumber, { s with globalAccountNumber := s.globalAccountNumber + 1 })

/-- `NewAccount`: set the next account number -/
def newAccount (s : AuthState Addr) (a : Account Addr) : Account Addr × AuthState Addr :=
  (a.setAccountNumber s.nextAccountNumber.1, s.nextAccountNumber.2)

/-- the permissions the binary lists for a module name -/
def permissionsFor (n : ModuleNames) (name : String) : Option (List String) :=
  (n.maccPerms.find? (fun p => p.1 = name)).map Prod.snd

theorem permissionsFor_listed {n : ModuleNames} {p : String × List String} (h : p ∈ n.maccPerms) :
    permissionsFor n p.1 = some p.2 := by
  have hsome : (n.maccPerms.find? (fun q => q.1 = p.1)).isSome = true :=
    List.find?_isSome.mpr ⟨p, h, decide_eq_true rfl⟩
  obtain ⟨q, hq⟩ := Option.isSome_iff_exists.mp hsome
  have hkey : q.1 = p.1 := by simpa using List.find?_some hq
  have hnames : (n.maccPerms.map Prod.fst).Nodup := n.distinct
  have hsame : q = p := List.inj_on_of_nodup_map hnames (List.mem_of_find?_eq_some hq) h hkey
  rw [permissionsFor, hq, hsame]
  rfl

def getModuleAddress (n : ModuleNames) (name : String) : Option Addr :=
  (permissionsFor n name).map fun _ => newModuleAddress name

/-- `GetModuleAccount`: nil for a name without permissions entry; the stored account, which must be
a module account; otherwise a new one -/
def getModuleAccount (n : ModuleNames) (s : AuthState Addr) (name : String) :
    Res (Option (Account Addr) × AuthState Addr) :=
  match permissionsFor n name with
  | none => .ok (none, s)
  | some perms =>
    match s.getAccount (newModuleAddress name) with
    | some acc =>
      match acc.kind with
      | .module _ _ => .ok (some acc, s)
      | _ => goPanic "account is not a module account"
    | none =>
      let r := s.newAccount (Account.newEmptyModuleAccount name perms)
      .ok (some r.1, r.2.setAccount r.1)

/-- the account of a recipient is created when it does not exist -/
def ensureAccount (s : AuthState Addr) (addr : Addr) : AuthState Addr :=
  if s.hasAccount addr then s
  else
    let r := s.newAccount (Account.newBaseAccountWithAddress addr)
    r.2.setAccount r.1

/-! ## one write -/

theorem getAccount_setAccount (s : AuthState Addr) (a : Account Addr) (x : Addr) :
    (s.setAccount a).getAccount x = if x = a.address then some a else s.getAccount x :=
  s.accounts.get_put a x

theorem index_setAccount (s : AuthState Addr) (a : Account Addr) (k : Nat) :
    (s.setAccount a).accountNumbers.get k
      = if k = a.accountNumber then some (a.accountNumber, a.address)
        else s.accountNumbers.get k :=
  s.accountNumbers.get_put _ k

theorem hasAccount_iff {s : AuthState Addr} {x : Addr} :
    s.hasAccount x = true ↔ ∃ a, s.getAccount x = some a := by
  rw [hasAccount, Table.has_iff, Table.mem_keys_iff]
  rfl

theorem mem_getAllAccounts {s : AuthState Addr} {a : Account Addr} :
    a ∈ s.getAllAccounts ↔ s.getAccount a.address = some a := Table.mem_rows_iff

theorem ensureAccount_of_stored {s : AuthState Addr} {x : Addr} {a : Account Addr}
    (h : s.getAccount x = some a) : s.ensureAccount x = s := by
  rw [ensureAccount, if_pos (hasAccount_iff.mpr ⟨a, h⟩)]

theorem getAccount_address {s : AuthState Addr} {x : Addr} {a : Account Addr}
    (h : s.getAccount x = some a) : a.address = x := Table.get_key h

/-! ## the two directions of the numbering -/

/-- the number of the account at an address -/
def numberOf (s : AuthState Addr) (x : Addr) : Option Nat :=
  (s.getAccount x).map Account.accountNumber

/-- the address the number index gives -/
def addressOf (s : AuthState Addr) (n : Nat) : Option Addr :=
  (s.accountNumbers.get n).map Prod.snd

theorem numberOf_setAccount (s : AuthState Addr) (a : Account Addr) (x : Addr) :
    (s.setAccount a).numberOf x
      = if x = a.address then some a.accountNumber else s.numberOf x := by
  unfold numberOf
  rw [getAccount_setAccount]
  split
  · rfl
  · rfl

theorem addressOf_setAccount (s : AuthState Addr) (a : Account Addr) (n : Nat) :
    (s.setAccount a).addressOf n
      = if n = a.accountNumber then some a.address else s.addressOf n := by
  unfold addressOf
  rw [index_setAccount]
  split
  · rfl
  · rfl

theorem numberOf_eq_some {s : AuthState Addr} {x : Addr} {n : Nat} :
    s.numberOf x = some n ↔ ∃ a, s.getAccount x = some a ∧ a.accountNumber = n := by
  rw [numberOf, Option.map_eq_some_iff]

/-- two maps that invert each other at a number and an address, after `x0` was given number `n0` -/
theorem assign_agrees {N : Addr → Option Nat} {I : Nat → Option Addr} {x0 x : Addr} {n0 n : Nat}
    (hnew : n = n0 → x ≠ x0 → N x ≠ some n0) (hold : n ≠ n0 → x = x0 → I n ≠ some x0)
    (hkeep : n ≠ n0 → x ≠ x0 → (I n = some x ↔ N x = some n)) :
    (if n = n0 then some x0 else I n) = some x ↔ (if x = x0 then some n0 else N x) = some n := by
  by_cases hn : n = n0
  · rw [if_pos hn]
    by_cases hx : x = x0
    · rw [if_pos hx, hx, hn]
      exact iff_of_true rfl rfl
    · rw [if_neg hx]
      exact iff_of_false (fun e => hx (Option.some.inj e).symm) (hn ▸ hnew hn hx)
  · rw [if_neg hn]
    by_cases hx : x = x0
    · rw [if_pos hx]
      exact iff_of_false (hx ▸ hold hn hx) (fun e => hn (Option.some.inj e).symm)
    · rw [if_neg hx]
      exact hkeep hn hx

/-- **A consistent numbering**: numbers are pairwise distinct and below the counter, and the index
gives number `n` to the account whose number is `n`. -/
structure Numbered (s : AuthState Addr) : Prop where
  distinct : ∀ x y n, s.numberOf x = some n → s.numberOf y = some n → x = y
  below : ∀ x n, s.numberOf x = some n → n < s.globalAccountNumber
  agrees : ∀ n x, s.addressOf n = some x ↔ s.numberOf x = some n

/-- when the index agrees, no two accounts have the same number -/
theorem Numbered.of_agrees {s : AuthState Addr}
    (hbelow : ∀ x n, s.numberOf x = some n → n < s.globalAccountNumber)
    (hagrees : ∀ n x, s.addressOf n = some x ↔ s.numberOf x = some n) : s.Numbered := by
  refine ⟨fun x y n hx hy => ?_, hbelow, hagrees⟩
  have hx' := (hagrees n x).mpr hx
  rw [(hagrees n y).mpr hy] at hx'
  exact (Option.some.inj hx').symm

theorem Numbered.listed_below {s : AuthState Addr} (h : s.Numbered) {a : Account Addr}
    (ha : a ∈ s.getAllAccounts) : a.accountNumber < s.globalAccountNumber :=
  h.below a.address _ (numberOf_eq_some.mpr ⟨a, mem_getAllAccounts.mp ha, rfl⟩)

/-- a number is in use when a listed account has it -/
def InUse (s : AuthState Addr) (n : Nat) : Prop := ∃ a ∈ s.getAllAccounts, a.accountNumber = n

theorem inUse_iff {s : AuthState Addr} {n : Nat} : s.InUse n ↔ ∃ x, s.numberOf x = some n := by
  constructor
  · rintro ⟨a, ha, hn⟩
    exact ⟨a.address, numberOf_eq_some.mpr ⟨a, mem_getAllAccounts.mp ha, hn⟩⟩
  · rintro ⟨x, hx⟩
    obtain ⟨a, ha, hn⟩ := numberOf_eq_some.mp hx
    exact ⟨a, Table.mem_of_get ha, hn⟩

/-! ## module accounts -/

/-- the state after the creation of the account of a module -/
def createModuleAccount (s : AuthState Addr) (name : String) (perms : List String) :
    AuthState Addr :=
  let r := s.newAccount (Account.newEmptyModuleAccount name perms)
  r.2.setAccount r.1

/-- **What `getModuleAccount` can do**: there is no such module, or its account is stored, or it is
created. -/
theorem getModuleAccount_ok {n : ModuleNames} {s s' : AuthState Addr} {name : String}
    {r : Option (Account Addr)} (h : getModuleAccount n s name = .ok (r, s')) :
    (permissionsFor n name = none ∧ r = none ∧ s' = s) ∨
    (∃ acc nm perms, s.getAccount (newModuleAddress name) = some acc ∧
      acc.kind = .module nm perms ∧ permissionsFor n name ≠ none ∧ r = some acc ∧ s' = s) ∨
    (∃ perms, permissionsFor n name = some perms ∧
      s.getAccount (newModuleAddress name) = none ∧
      r = some ((Account.newEmptyModuleAccount name perms).setAccountNumber s.globalAccountNumber) ∧
      s' = s.createModuleAccount name perms) := by
  unfold getModuleAccount at h
  cases hp : permissionsFor n name with
  | none =>
    simp only [hp] at h
    cases h
    exact Or.inl ⟨rfl, rfl, rfl⟩
  | some perms =>
    simp only [hp] at h
    cases ha : s.getAccount (newModuleAddress name) with
    | none =>
      simp only [ha] at h
      cases h
      exact Or.inr (Or.inr ⟨perms, rfl, rfl, rfl, rfl⟩)
    | some acc =>
      simp only [ha] at h
      cases hk : acc.kind with
      | module nm ps =>
        simp only [hk] at h
        cases h
        exact Or.inr (Or.inl ⟨acc, nm, ps, rfl, hk, by simp, rfl, rfl⟩)
      | _ => simp [hk, goPanic] at h

theorem getModuleAccount_address {n : ModuleNames} {s s' : AuthState Addr} {name : String}
    {acc : Account Addr} (h : getModuleAccount n s name = .ok (some acc, s')) :
    acc.address = newModuleAddress name := by
  rcases getModuleAccount_ok h with ⟨_, h, _⟩ | ⟨_, _, _, ha, _, _, h, _⟩ | ⟨_, _, _, h, _⟩
  · cases h
  · cases h
    exact getAccount_address ha
  · cases h
    rfl

theorem getAccount_create (s : AuthState Addr) (name : String) (perms : List String) (x : Addr) :
    (s.createModuleAccount name perms).getAccount x
      = if x = newModuleAddress name then
          some ((Account.newEmptyModuleAccount name perms).setAccountNumber s.globalAccountNumber)
        else s.getAccount x := by
  unfold createModuleAccount
  rw [getAccount_setAccount]
  rfl

theorem getModuleAccount_mono {n : ModuleNames} {s s' : AuthState Addr} {name : String}
    {r : Option (Account Addr)} (h : getModuleAccount n s name = .ok (r, s')) {x : Addr}
    {a : Account Addr} (ha : s.getAccount x = some a) : s'.getAccount x = some a := by
  rcases getModuleAccount_ok h with ⟨_, _, rfl⟩ | ⟨_, _, _, _, _, _, _, rfl⟩ | ⟨perms, _, hn, _, rfl⟩
  · exact ha
  · exact ha
  · rw [getAccount_create, if_neg, ha]
    intro e
    rw [e, hn] at ha
    cases ha

/-- only the module's own account can be new -/
theorem getModuleAccount_other {n : ModuleNames} {s s' : AuthState Addr} {name : String}
    {r : Option (Account Addr)} (h : getModuleAccount n s name = .ok (r, s')) {x : Addr}
    (hx : x ≠ newModuleAddress name) : s'.getAccount x = s.getAccount x := by
  rcases getModuleAccount_ok h with ⟨_, _, rfl⟩ | ⟨_, _, _, _, _, _, _, rfl⟩ | ⟨perms, _, _, _, rfl⟩
  · rfl
  · rfl
  · rw [getAccount_create, if_neg hx]

theorem getModuleAccount_found {n : ModuleNames} {s s' : AuthState Addr} {name : String}
    {acc : Account Addr} (h : getModuleAccount n s name = .ok (some acc, s')) :
    s'.getAccount (newModuleAddress name) = some acc := by
  rcases getModuleAccount_ok h with ⟨_, hr, _⟩ | ⟨_, _, _, ha, _, _, hr, rfl⟩ | ⟨_, _, _, hr, rfl⟩
  · cases hr
  · cases hr
    exact ha
  · cases hr
    rw [getAccount_create, if_pos rfl]

theorem getModuleAccount_same {n : ModuleNames} {s s' : AuthState Addr} {name : String}
    {r : Option (Account Addr)} (h : getModuleAccount n s name = .ok (r, s'))
    (ha : s.getAccount (newModuleAddress name) ≠ none) : s' = s := by
  rcases getModuleAccount_ok h with ⟨_, _, rfl⟩ | ⟨_, _, _, _, _, _, _, rfl⟩ | ⟨perms, _, hn, _, rfl⟩
  · rfl
  · rfl
  · exact absurd hn ha

theorem getModuleAccount_stored {n : ModuleNames} {s : AuthState Addr} {name nm : String}
    {acc : Account Addr} {perms : List String} (hn : permissionsFor n name ≠ none)
    (ha : s.getAccount (newModuleAddress name) = some acc) (hk : acc.kind = .module nm perms) :
    getModuleAccount n s name = .ok (some acc, s) := by
  obtain ⟨ps, hps⟩ := Option.ne_none_iff_exists'.mp hn
  simp only [getModuleAccount, hps, ha, hk]

/-! ## the kind of an account -/

/-- the kind of the account at an address -/
def kindAt (s : AuthState Addr) (x : Addr) : Option AccountKind :=
  (s.getAccount x).map Account.kind

theorem kindAt_setAccount (s : AuthState Addr) (a : Account Addr) (x : Addr) :
    (s.setAccount a).kindAt x = if x = a.address then some a.kind else s.kindAt x := by
  unfold kindAt
  rw [getAccount_setAccount]
  split
  · rfl
  · rfl

theorem kindAt_eq_some {s : AuthState Addr} {x : Addr} {k : AccountKind} :
    s.kindAt x = some k ↔ ∃ a, s.getAccount x = some a ∧ a.kind = k := by
  rw [kindAt, Option.map_eq_some_iff]

theorem kindAt_setNumber {s : AuthState Addr} {x : Addr} {a : Account Addr}
    (h : x = a.address → s.kindAt x = some a.kind) (n : Nat) :
    (s.setAccount (a.setAccountNumber n)).kindAt x = s.kindAt x := by
  rw [kindAt_setAccount]
  by_cases hx : x = (a.setAccountNumber n).address
  · rw [if_pos hx, h hx]
    rfl
  · rw [if_neg hx]

theorem kindAt_other {s : AuthState Addr} {x : Addr} {a : Account Addr} (h : x ≠ a.address) :
    (s.setAccount a).kindAt x = s.kindAt x := by
  rw [kindAt_setAccount, if_neg h]

theorem kindAt_mono {n : ModuleNames} {s s' : AuthState Addr} {x : Addr} {name : String}
    {r : Option (Account Addr)} {k : AccountKind} (h : getModuleAccount n s name = .ok (r, s'))
    (hk : s.kindAt x = some k) : s'.kindAt x = some k := by
  obtain ⟨a, ha, hkind⟩ := kindAt_eq_some.mp hk
  exact kindAt_eq_some.mpr ⟨a, getModuleAccount_mono h ha, hkind⟩

end

end AuthState

end MeChain
