import MeChain.Upgrade.Occupied

/-!
# When the renumbering keeps the account numbers consistent

* `kept_run`           from a clear start every account is kept, up to its number;
* `Renumbered`         what the renumbering is for;
* `FreeWay`            the condition on the store before the upgrade;
* `renumbered_iff`     the numbering is consistent afterwards exactly when the way was free.
-/

set_option linter.unusedSectionVars false

namespace MeChain
open Fallible

variable {Addr : Type} [SdkAddress Addr] [DecidableEq Addr]

/-! ## the theorem -/

section
variable {s0 : AuthState Addr} {l : List (Account Addr)}

theorem Occupied.run (hs : Start s0 l) : Occupied s0 l (l.foldl renumber s0) := by
  refine foldl_run (I := fun done t => Occupied s0 done t) ?_ ?_
  · exact ⟨⟨0, 0, rfl, by simp, Or.inr ⟨by simp [Dropped], rfl⟩⟩, by simp [Dropped],
      fun n => by simp⟩
  · rintro done a rest t rfl h
    exact h.step hs

/-- the same account, up to its number -/
def SameHolder (a b : Account Addr) : Prop :=
  a.kind = b.kind ∧ a.pubKey = b.pubKey ∧ a.sequence = b.sequence

/-- from a clear start every account is kept, up to its number -/
theorem kept_run (hs : Start s0 l) (hc : Clear s0 l) {x : Addr} {b : Account Addr}
    (hb : s0.getAccount x = some b) :
    ∃ b', (l.foldl renumber s0).getAccount x = some b' ∧ SameHolder b' b := by
  refine (foldl_run (I := fun _ (t : AuthState Addr) =>
    s0.globalAccountNumber ≤ t.globalAccountNumber ∧
      ∃ b', t.getAccount x = some b' ∧ SameHolder b' b) ?_ ?_).2
  · exact ⟨le_refl _, b, hb, rfl, rfl, rfl⟩
  · rintro done a rest t rfl ⟨hle, b', hb', hsame⟩
    have ha := hs.listed a (by simp)
    have hlt := hs.below a (by simp)
    have h2 : a.accountNumber = 2 → 3 ≤ t.globalAccountNumber := by omega
    refine ⟨?_, ?_⟩
    · rcases renumber_spec h2 with ⟨_, h, _⟩ | ⟨_, _, h, _⟩ | ⟨f, hf, h, _⟩ | ⟨_, _, _, h⟩
      · omega
      · omega
      · omega
      · rw [h]
        exact hle
    · rcases getAccount_renumber h2 x with h | ⟨rfl, n, h⟩ | ⟨rfl, h1⟩ | ⟨rfl, hd⟩
      · exact ⟨b', h.trans hb', hsame⟩
      · rw [ha] at hb
        cases hb
        exact ⟨_, h, rfl, rfl, rfl⟩
      · rw [(hc.meid ⟨a, by simp, h1⟩).1] at hb
        cases hb
      · rw [hc.drop ⟨a, by simp, by omega⟩] at hb
        cases hb

/-- with numbers 2 and 3 not in use only account 1 and the meid admin change -/
theorem untouched_run (hs : Start s0 l)
    (h23 : ∀ b ∈ l, b.accountNumber ≠ 2 ∧ b.accountNumber ≠ 3) :
    (∀ x, x ≠ meidAdmin Addr → (∀ b ∈ l, b.address ≠ x) →
      (l.foldl renumber s0).numberOf x = s0.numberOf x) ∧
    ∀ b ∈ l, b.accountNumber = 1 → (l.foldl renumber s0).numberOf b.address = some 2 := by
  refine foldl_run (I := fun (done : List (Account Addr)) (t : AuthState Addr) =>
    (∀ x, x ≠ meidAdmin Addr → (∀ b ∈ done, b.address ≠ x) → t.numberOf x = s0.numberOf x) ∧
    ∀ b ∈ done, b.accountNumber = 1 → t.numberOf b.address = some 2) ?_ ?_
  · exact ⟨fun _ _ _ => rfl, fun b hb => absurd hb List.not_mem_nil⟩
  · intro done a rest t hl hI
    obtain ⟨hsame, htwo⟩ := hI
    have ha := h23 a (by rw [hl]; simp)
    rw [hl] at hs
    rcases renumber_spec (s := t) (a := a) (fun h => absurd h ha.1) with ⟨n1, _, hN, _⟩ |
      ⟨n2, _⟩ | ⟨f, hf, _⟩ | ⟨n1, _, _, e⟩
    · constructor
      · intro x hx hne
        obtain ⟨hdone, hxa⟩ := forall_snoc.mp hne
        rw [hN, if_neg hxa.symm, if_neg hx]
        exact hsame x hx hdone
      · intro b hb hb1
        rcases List.mem_append.mp hb with hb | hb
        · exact absurd (hb1.trans n1.symm) (hs.others b (Or.inl hb)).2
        · rw [List.mem_singleton.mp hb, hN, if_pos rfl]
    · exact absurd n2 ha.1
    · omega
    · rw [e]
      constructor
      · intro x hx hne
        exact hsame x hx (forall_snoc.mp hne).1
      · intro b hb hb1
        rcases List.mem_append.mp hb with hb | hb
        · exact htwo b hb hb1
        · exact absurd (List.mem_singleton.mp hb ▸ hb1) n1

end

/-- **What the renumbering is for**: a consistent numbering, no account lost or changed otherwise,
and the three numbers where they belong. -/
structure Renumbered (s s' : AuthState Addr) : Prop where
  numbered : s'.Numbered
  kept : ∀ x b, s.getAccount x = some b → ∃ b', s'.getAccount x = some b' ∧ SameHolder b' b
  moved : s.InUse 1 → s.InUse 2 → s.InUse 3 →
    s'.numberOf (meidAdmin Addr) = some 1 ∧
    (∀ b ∈ s.getAllAccounts, b.accountNumber = 1 → s'.numberOf b.address = some 2) ∧
    s'.numberOf (airDrop Addr) = some 3

/-- The condition on the store before the upgrade: the meid admin has no account when number 1 is
moved, and number 2 is below the counter; number 2 is not moved alone; the air drop account does
not exist when number 3 is moved, which it also is when it is the next number and number 2 gets it. -/
structure FreeWay (n : ModuleNames) (s : AuthState Addr) : Prop where
  meid : s.InUse 1 → s.getAccount (meidAdmin Addr) = none ∧ 3 ≤ s.globalAccountNumber
  two : s.InUse 2 → s.InUse 1
  drop : s.InUse 3 ∨ s.InUse 2 ∧ s.globalAccountNumber = 3 ∧
    s.hasAccount (newModuleAddress n.mint) = true → s.getAccount (airDrop Addr) = none

section
variable {n : ModuleNames} {s s0 : AuthState Addr}

theorem numberOf_create (s : AuthState Addr) (name : String) (perms : List String) (x : Addr) :
    (s.createModuleAccount name perms).numberOf x
      = if x = newModuleAddress name then some s.globalAccountNumber else s.numberOf x := by
  unfold AuthState.createModuleAccount
  rw [AuthState.numberOf_setAccount]
  rfl

theorem addressOf_create (s : AuthState Addr) (name : String) (perms : List String) (k : Nat) :
    (s.createModuleAccount name perms).addressOf k
      = if k = s.globalAccountNumber then some (newModuleAddress name) else s.addressOf k := by
  unfold AuthState.createModuleAccount
  rw [AuthState.addressOf_setAccount]
  rfl

theorem numbered_create {name : String} {perms : List String} (h : s.Numbered)
    (hnew : s.getAccount (newModuleAddress name) = none) :
    (s.createModuleAccount name perms).Numbered := by
  have hnone := numberOf_none.mpr hnew
  have hlt {x : Addr} {k : Nat} (hx : s.numberOf x = some k) : k ≠ s.globalAccountNumber := by
    have := h.below x k hx
    omega
  have hagrees (k : Nat) (x : Addr) : (s.createModuleAccount name perms).addressOf k = some x ↔
      (s.createModuleAccount name perms).numberOf x = some k := by
    rw [numberOf_create, addressOf_create]
    refine AuthState.assign_agrees (fun _ _ e => hlt e rfl) (fun _ _ => ?_) (fun _ _ => h.agrees k x)
    rw [ne_eq, h.agrees, hnone]
    simp
  refine AuthState.Numbered.of_agrees (fun x k hx => ?_) hagrees
  show k < s.globalAccountNumber + 1
  rw [numberOf_create] at hx
  split at hx
  · have := Option.some.inj hx
    omega
  · have := h.below x k hx
    omega

theorem MintEnsured.stored (h0 : MintEnsured n s s0) {x : Addr} {b : Account Addr}
    (hb : s.getAccount x = some b) : s0.getAccount x = some b := by
  rcases h0 with ⟨_, rfl⟩ | ⟨hm, perms, rfl⟩
  · exact hb
  · rw [AuthState.getAccount_create, if_neg, hb]
    rintro rfl
    rw [AuthState.hasAccount_iff.mpr ⟨b, hb⟩] at hm
    cases hm

theorem getAccount_none_of_not {x : Addr} (h : s.hasAccount x = false) : s.getAccount x = none := by
  by_contra hne
  obtain ⟨b, hb⟩ := Option.ne_none_iff_exists'.mp hne
  rw [AuthState.hasAccount_iff.mpr ⟨b, hb⟩] at h
  cases h

theorem MintEnsured.start (h0 : MintEnsured n s s0) (hs : s.Numbered) :
    Start s0 s.getAllAccounts where
  numbered := by
    rcases h0 with ⟨_, rfl⟩ | ⟨hm, perms, rfl⟩
    · exact hs
    · exact numbered_create hs (getAccount_none_of_not hm)
  listed b hb := h0.stored (AuthState.mem_getAllAccounts.mp hb)
  addresses := s.accounts.nodup

theorem MintEnsured.none_iff (h0 : MintEnsured n s s0) {x : Addr}
    (hx : x ≠ newModuleAddress n.mint) : s0.getAccount x = none ↔ s.getAccount x = none := by
  rcases h0 with ⟨_, rfl⟩ | ⟨_, perms, rfl⟩
  · exact Iff.rfl
  · rw [AuthState.getAccount_create, if_neg hx]

theorem MintEnsured.counter_le (h0 : MintEnsured n s s0) :
    s.globalAccountNumber ≤ s0.globalAccountNumber := by
  rcases h0 with ⟨_, rfl⟩ | ⟨_, perms, rfl⟩
  · exact le_refl _
  · exact Nat.le_succ _

theorem MintEnsured.dropped_iff (h0 : MintEnsured n s s0) (hs : s.Numbered) :
    Dropped s0 s.getAllAccounts ↔ s.InUse 3 ∨ s.InUse 2 ∧ s.globalAccountNumber = 3 ∧
      s.hasAccount (newModuleAddress n.mint) = true := by
  rcases h0 with ⟨hm, rfl⟩ | ⟨hm, perms, rfl⟩
  · constructor
    · rintro ⟨b, hb, h3 | ⟨h2, hc⟩⟩
      · exact Or.inl ⟨b, hb, h3⟩
      · exact Or.inr ⟨⟨b, hb, h2⟩, hc, hm⟩
    · rintro (⟨b, hb, h3⟩ | ⟨⟨b, hb, h2⟩, hc, _⟩)
      · exact ⟨b, hb, Or.inl h3⟩
      · exact ⟨b, hb, Or.inr ⟨h2, hc⟩⟩
  · constructor
    · rintro ⟨b, hb, h3 | ⟨h2, hc⟩⟩
      · exact Or.inl ⟨b, hb, h3⟩
      · have := hs.listed_below hb
        change s.globalAccountNumber + 1 = 3 at hc
        omega
    · rintro (⟨b, hb, h3⟩ | ⟨_, _, h⟩)
      · exact ⟨b, hb, Or.inl h3⟩
      · rw [hm] at h
        cases h

theorem MintEnsured.two_listed (h0 : MintEnsured n s s0) (hc : 3 ≤ s.globalAccountNumber) {x : Addr}
    (hx : s0.numberOf x = some 2) : s.InUse 2 := by
  rw [AuthState.inUse_iff]
  rcases h0 with ⟨_, rfl⟩ | ⟨_, perms, rfl⟩
  · exact ⟨x, hx⟩
  · rw [numberOf_create] at hx
    split at hx
    · have := Option.some.inj hx
      omega
    · exact ⟨x, hx⟩

theorem MintEnsured.clear (h0 : MintEnsured n s s0) (hs : s.Numbered)
    (hMm : meidAdmin Addr ≠ newModuleAddress n.mint)
    (hDm : airDrop Addr ≠ newModuleAddress n.mint) (hfree : FreeWay n s) :
    Clear s0 s.getAllAccounts where
  meid h := ⟨(h0.none_iff hMm).mpr (hfree.meid h).1, (hfree.meid h).2.trans h0.counter_le⟩
  two h := hfree.two h
  drop h := (h0.none_iff hDm).mpr (hfree.drop ((h0.dropped_iff hs).mp h))

theorem renumbered_of_freeWay (hMD : meidAdmin Addr ≠ airDrop Addr)
    (hMm : meidAdmin Addr ≠ newModuleAddress n.mint)
    (hDm : airDrop Addr ≠ newModuleAddress n.mint) (hs : s.Numbered) (h0 : MintEnsured n s s0)
    (hfree : FreeWay n s) : Renumbered s (s.getAllAccounts.foldl renumber s0) := by
  have hstart := h0.start hs
  have hclear := h0.clear hs hMm hDm hfree
  have hrun := Visited.run hMD hstart hclear
  refine ⟨hrun.numbered hstart hclear (fun x hx h1 => ?_), fun x b hb => ?_, fun h1 h2 h3 => ?_⟩
  · exact h0.two_listed (hfree.meid h1).2 hx
  · exact kept_run hstart hclear (h0.stored hb)
  · have hdropped := (h0.dropped_iff hs).mpr (Or.inl h3)
    refine ⟨hrun.meid_set h1, fun b hb hb1 => ?_, hrun.drop_set hdropped⟩
    exact (hrun.two_num b.address).mpr (Or.inl ⟨b, hb, hb1, rfl⟩)

theorem three_le_of_numbered (hMm : meidAdmin Addr ≠ newModuleAddress n.mint) (hs : s.Numbered)
    (h0 : MintEnsured n s s0) (h : (s.getAllAccounts.foldl renumber s0).Numbered)
    (h1 : s.InUse 1) : 3 ≤ s.globalAccountNumber := by
  by_contra hlt
  obtain ⟨a, ha, ha1⟩ := h1
  have hc : s.globalAccountNumber = 2 := by
    have := hs.listed_below ha
    omega
  have h23 : ∀ b ∈ s.getAllAccounts, b.accountNumber ≠ 2 ∧ b.accountNumber ≠ 3 := by
    intro b hb
    have := hs.listed_below hb
    omega
  obtain ⟨hsame, htwo⟩ := untouched_run (h0.start hs) h23
  have htwo := htwo a ha ha1
  have hstored := AuthState.mem_getAllAccounts.mp ha
  obtain ⟨moved, dropped, hcount, hmoved, hdropped⟩ := (Occupied.run (h0.start hs)).counter
  rcases h0 with ⟨_, rfl⟩ | ⟨hm, perms, rfl⟩
  · -- number 2 is not below the counter, which has not moved
    have hlt2 := h.below _ _ htwo
    have hno : ¬ Dropped s0 s0.getAllAccounts := by
      rintro ⟨b, hb, hd⟩
      have := h23 b hb
      omega
    have hno2 : ¬ ∃ b ∈ s0.getAllAccounts, b.accountNumber = 2 := fun ⟨b, hb, h2⟩ => (h23 b hb).1 h2
    simp only [hno, hno2, false_and, false_or] at hmoved hdropped
    omega
  · -- number 2 is that of the mint module account created before the loop
    have hmint := hsame (newModuleAddress n.mint) hMm.symm (fun b hb e => by
      rw [AuthState.hasAccount_iff.mpr ⟨b, e ▸ AuthState.mem_getAllAccounts.mp hb⟩] at hm
      cases hm)
    rw [numberOf_create, if_pos rfl, hc] at hmint
    have he := h.distinct _ _ _ hmint htwo
    rw [he, AuthState.hasAccount_iff.mpr ⟨a, hstored⟩] at hm
    cases hm

theorem freeWay_of_renumbered (hMm : meidAdmin Addr ≠ newModuleAddress n.mint)
    (hDm : airDrop Addr ≠ newModuleAddress n.mint) (hs : s.Numbered) (h0 : MintEnsured n s s0)
    (h : (s.getAllAccounts.foldl renumber s0).Numbered) : FreeWay n s := by
  have h3 := three_le_of_numbered hMm hs h0 h
  have hstart := h0.start hs
  have hclear : Clear s0 s.getAllAccounts := by
    refine (Occupied.run hstart).clear hstart.numbered h (fun h1 => (h3 h1).trans h0.counter_le)
      (fun h1 hx => ?_)
    obtain ⟨x, hx⟩ := Option.ne_none_iff_exists'.mp hx
    exact h0.two_listed (h3 h1) ((hstart.numbered.agrees 2 x).mp hx)
  refine ⟨fun h1 => ⟨?_, h3 h1⟩, hclear.two, fun hd => ?_⟩
  · exact (h0.none_iff hMm).mp (hclear.meid h1).1
  · exact (h0.none_iff hDm).mp (hclear.drop ((h0.dropped_iff hs).mpr hd))

end

/-- **Account renumbering is consistent exactly when the way is free**, whatever the order in which
the accounts are listed. -/
theorem renumbered_iff {cfg : Config Addr} {ctx : Context} {s s' : App Addr}
    (h : resetExponent cfg ctx s = .ok s') (hs : s.auth.Numbered)
    (hMD : meidAdmin Addr ≠ airDrop Addr)
    (hMm : meidAdmin Addr ≠ newModuleAddress cfg.names.mint)
    (hDm : airDrop Addr ≠ newModuleAddress cfg.names.mint) :
    Renumbered s.auth s'.auth ↔ FreeWay cfg.names s.auth := by
  rcases resetExponent_auth h with ⟨hnil, hsame⟩ | ⟨s0, h0, hrun⟩
  · have hnone (k : Nat) : ¬ s.auth.InUse k := by
      rintro ⟨b, hb, _⟩
      rw [hnil] at hb
      cases hb
    rw [hsame]
    refine iff_of_true ⟨hs, fun x b hb => ⟨b, hb, rfl, rfl, rfl⟩, fun h1 => absurd h1 (hnone 1)⟩
      ⟨fun h1 => absurd h1 (hnone 1), fun h2 => absurd h2 (hnone 2), ?_⟩
    rintro (h3 | ⟨h2, _⟩)
    · exact absurd h3 (hnone 3)
    · exact absurd h2 (hnone 2)
  · rw [hrun]
    exact ⟨fun h => freeWay_of_renumbered hMm hDm hs h0 h.numbered,
      renumbered_of_freeWay hMD hMm hDm hs h0⟩

/-! ### one chain -/

theorem numbered_of_rows {s : AuthState Addr}
    (hacc : ∀ a ∈ s.accounts.rows, a.accountNumber < s.globalAccountNumber ∧
      (a.accountNumber, a.address) ∈ s.accountNumbers.rows)
    (hidx : ∀ p ∈ s.accountNumbers.rows, s.numberOf p.2 = some p.1) : s.Numbered := by
  have hto {x : Addr} {k : Nat} (hx : s.numberOf x = some k) :
      k < s.globalAccountNumber ∧ s.addressOf k = some x := by
    obtain ⟨a, ha, rfl⟩ := AuthState.numberOf_eq_some.mp hx
    obtain ⟨hlt, hmem⟩ := hacc a (Table.mem_of_get ha)
    refine ⟨hlt, ?_⟩
    rw [AuthState.addressOf, Table.get_eq_some_iff.mpr ⟨hmem, rfl⟩,
      ← AuthState.getAccount_address ha]
    rfl
  refine AuthState.Numbered.of_agrees (fun x k hx => (hto hx).1)
    (fun k x => ⟨fun hk => ?_, fun hx => (hto hx).2⟩)
  obtain ⟨p, hp, rfl⟩ := Option.map_eq_some_iff.mp hk
  rw [← Table.get_key hp]
  exact hidx p (Table.mem_of_get hp)

/-- a chain with plain accounts under the given numbers, and the mint module account under 0 -/
def numberedChain (accounts : List (String × Nat)) (counter : Nat) : App String :=
  { App.empty with
    auth := (accounts.foldl (fun s p => s.setAccount
      ((Account.newBaseAccountWithAddress p.1).setAccountNumber p.2))
      ((⟨.empty, .empty, counter⟩ : AuthState String).setAccount
        ((Account.newEmptyModuleAccount "mint" [minter]).setAccountNumber 0))) }

theorem renumbered_three_moved :
    ∃ s', resetExponent (Config.fixed "me1admin" "me1dev") .first
        (numberedChain [("me1one", 1), ("me1two", 2), ("me1three", 3)] 4) = .ok s' ∧
      Renumbered (numberedChain [("me1one", 1), ("me1two", 2), ("me1three", 3)] 4).auth s'.auth := by
  obtain ⟨s', h⟩ := exists_ok_of_isOk (x := resetExponent (Config.fixed "me1admin" "me1dev") .first
    (numberedChain [("me1one", 1), ("me1two", 2), ("me1three", 3)] 4)) (by decide)
  refine ⟨s', h, (renumbered_iff h (numbered_of_rows (by decide) (by decide)) (by decide) (by decide)
    (by decide)).mpr ⟨fun _ => ?_, fun _ => ?_, fun _ => ?_⟩⟩
  · exact ⟨numberOf_none.mp (by decide), by decide⟩
  · exact AuthState.inUse_iff.mpr ⟨"me1one", by decide⟩
  · exact numberOf_none.mp (by decide)

/-- the meid admin already has an account, under number 5: it is overwritten, and the index still
gives number 5 to an account that now has number 1 -/
theorem renumber_overwrites_meidAdmin :
    ∃ s', resetExponent (Config.fixed "me1admin" "me1dev") .first
        (numberedChain [("me1one", 1), (meidAdminAddress, 5)] 6) = .ok s' ∧
      (numberedChain [("me1one", 1), (meidAdminAddress, 5)] 6).auth.Numbered ∧
      ¬ s'.auth.Numbered := by
  obtain ⟨s', h, hi, hn⟩ := exists_ok_of_check (x := resetExponent
    (Config.fixed "me1admin" "me1dev") .first
    (numberedChain [("me1one", 1), (meidAdminAddress, 5)] 6))
    (p := fun s' => s'.auth.addressOf 5 = some meidAdminAddress ∧
      s'.auth.numberOf meidAdminAddress = some 1) (by decide)
  refine ⟨s', h, numbered_of_rows (by decide) (by decide), fun hnum => ?_⟩
  rw [hnum.agrees, hn] at hi
  cases hi

end MeChain
