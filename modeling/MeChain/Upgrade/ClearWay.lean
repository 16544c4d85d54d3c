import MeChain.Upgrade.Renumber

/-!
# The renumbering when nothing stands in its way

* `Start`             a consistent numbering and a listing of stored accounts;
* `Clear`             nothing stands in the way of the three moves;
* `Visited`           the invariant of the run from a clear start;
* `Visited.step`      one visit keeps it: one lemma for each branch an account goes through;
* `Visited.numbered`  after the run the numbering is consistent.
-/

set_option linter.unusedSectionVars false

namespace MeChain
open Fallible

variable {Addr : Type} [SdkAddress Addr] [DecidableEq Addr]

/-! ## the way is clear -/

/-- where the renumbering starts: a consistent numbering and a listing of stored accounts -/
structure Start (s0 : AuthState Addr) (l : List (Account Addr)) : Prop where
  numbered : s0.Numbered
  listed : ∀ b ∈ l, s0.getAccount b.address = some b
  addresses : (l.map Account.address).Nodup

/-- the last branch is reached in a listing: by number 3, or by number 2 when 3 is the next one -/
def Dropped (s0 : AuthState Addr) (l : List (Account Addr)) : Prop :=
  ∃ b ∈ l, b.accountNumber = 3 ∨ b.accountNumber = 2 ∧ s0.globalAccountNumber = 3

/-- nothing stands in the way: the two new accounts are new, number 1 and number 2 are free to use,
and number 2 is not left behind -/
structure Clear (s0 : AuthState Addr) (l : List (Account Addr)) : Prop where
  meid : (∃ b ∈ l, b.accountNumber = 1) →
    s0.getAccount (meidAdmin Addr) = none ∧ 3 ≤ s0.globalAccountNumber
  two : (∃ b ∈ l, b.accountNumber = 2) → ∃ b ∈ l, b.accountNumber = 1
  drop : Dropped s0 l → s0.getAccount (airDrop Addr) = none

/-- **The invariant of the run** when the way is clear.  Number 2 is special: between the visits of
the accounts 1 and 2 it is held by both of them, or by none. -/
structure Visited (s0 : AuthState Addr) (done rest : List (Account Addr)) (t : AuthState Addr) :
    Prop where
  counter_le : s0.globalAccountNumber ≤ t.globalAccountNumber
  counter_chain : s0.globalAccountNumber = 3 → (∀ b ∈ done, b.accountNumber ≠ 2) →
    t.globalAccountNumber = 3
  below : ∀ x n, t.numberOf x = some n → n < t.globalAccountNumber
  waiting : ∀ b ∈ rest, t.numberOf b.address = some b.accountNumber
  agrees : ∀ n, n ≠ 2 → ∀ x, t.addressOf n = some x ↔ t.numberOf x = some n
  two_addr : ∀ x, t.addressOf 2 = some x ↔ (∃ b ∈ done, b.accountNumber = 1 ∧ x = b.address) ∨
    ((∀ b ∈ done, b.accountNumber ≠ 1) ∧ s0.addressOf 2 = some x)
  two_num : ∀ x, t.numberOf x = some 2 ↔ (∃ b ∈ done, b.accountNumber = 1 ∧ x = b.address) ∨
    ((∀ b ∈ done, b.accountNumber ≠ 2) ∧ s0.numberOf x = some 2)
  meid_free : (∃ b ∈ rest, b.accountNumber = 1) → t.numberOf (meidAdmin Addr) = none
  meid_set : (∃ b ∈ done, b.accountNumber = 1) → t.numberOf (meidAdmin Addr) = some 1
  drop_free : Dropped s0 rest → t.numberOf (airDrop Addr) = none
  drop_set : Dropped s0 done → t.numberOf (airDrop Addr) = some 3

section
variable {s0 t : AuthState Addr} {done rest : List (Account Addr)} {a : Account Addr}

theorem Start.others (hs : Start s0 (done ++ a :: rest)) :
    ∀ b, b ∈ done ∨ b ∈ rest → b.address ≠ a.address ∧ b.accountNumber ≠ a.accountNumber := by
  have hn := hs.addresses
  simp only [List.map_append, List.map_cons, List.nodup_append, List.nodup_cons, List.mem_map,
    List.mem_cons] at hn
  intro b hb
  have hne : b.address ≠ a.address := by
    rcases hb with hb | hb
    · exact hn.2.2 _ ⟨b, hb, rfl⟩ _ (Or.inl rfl)
    · exact fun e => hn.2.1.1 ⟨b, hb, e⟩
  refine ⟨hne, fun he => hne ?_⟩
  have hb' := hs.listed b (by simp only [List.mem_append, List.mem_cons]; tauto)
  have ha' := hs.listed a (by simp)
  exact hs.numbered.distinct _ _ _ (AuthState.numberOf_eq_some.mpr ⟨b, hb', rfl⟩)
    (AuthState.numberOf_eq_some.mpr ⟨a, ha', he.symm⟩)

theorem Start.number (hs : Start s0 (done ++ a :: rest)) :
    s0.numberOf a.address = some a.accountNumber :=
  AuthState.numberOf_eq_some.mpr ⟨a, hs.listed a (by simp), rfl⟩

/-- a visited account that has number 2 is below the counter -/
theorem Visited.two_le (h : Visited s0 done (a :: rest) t) :
    a.accountNumber = 2 → 3 ≤ t.globalAccountNumber := by
  intro h2
  have := h.below _ _ (h.waiting a (List.mem_cons_self ..))
  omega

theorem numberOf_none {s : AuthState Addr} {x : Addr} :
    s.numberOf x = none ↔ s.getAccount x = none := by
  rw [AuthState.numberOf, Option.map_eq_none_iff]

/-- what is known about the account visited next, among the others of its listing -/
structure Next (s0 : AuthState Addr) (done rest : List (Account Addr)) (a : Account Addr) : Prop where
  number : s0.numberOf a.address = some a.accountNumber
  others : ∀ b, b ∈ done ∨ b ∈ rest → b.address ≠ a.address ∧ b.accountNumber ≠ a.accountNumber
  unique : ∀ x, s0.numberOf x = some a.accountNumber → x = a.address
  below : ∀ b, b ∈ done ∨ b ∈ rest ∨ b = a → b.accountNumber < s0.globalAccountNumber
  not_meid : (∃ b, (b ∈ done ∨ b ∈ rest ∨ b = a) ∧ b.accountNumber = 1) →
    3 ≤ s0.globalAccountNumber ∧ ∀ b, b ∈ done ∨ b ∈ rest ∨ b = a → b.address ≠ meidAdmin Addr
  not_drop : (∃ b, (b ∈ done ∨ b ∈ rest ∨ b = a) ∧
      (b.accountNumber = 3 ∨ b.accountNumber = 2 ∧ s0.globalAccountNumber = 3)) →
    ∀ b, b ∈ done ∨ b ∈ rest ∨ b = a → b.address ≠ airDrop Addr

theorem Start.next (hs : Start s0 (done ++ a :: rest)) (hc : Clear s0 (done ++ a :: rest)) :
    Next s0 done rest a := by
  have hmem (b : Account Addr) : b ∈ done ++ a :: rest ↔ b ∈ done ∨ b ∈ rest ∨ b = a := by
    simp only [List.mem_append, List.mem_cons]
    tauto
  have hstored (b : Account Addr) (hb : b ∈ done ∨ b ∈ rest ∨ b = a) :
      s0.getAccount b.address = some b := hs.listed b ((hmem b).mpr hb)
  refine ⟨hs.number, hs.others, fun x hx => hs.numbered.distinct _ _ _ hx hs.number,
    fun b hb => hs.numbered.below _ _ (AuthState.numberOf_eq_some.mpr ⟨b, hstored b hb, rfl⟩),
    fun h => ?_, fun h b hb he => ?_⟩
  · obtain ⟨b, hb, h1⟩ := h
    obtain ⟨hn, hc3⟩ := hc.meid ⟨b, (hmem b).mpr hb, h1⟩
    refine ⟨hc3, fun b hb he => ?_⟩
    rw [← he, hstored b hb] at hn
    cases hn
  · obtain ⟨b', hb', hd⟩ := h
    have hn := hc.drop ⟨b', (hmem b').mpr hb', hd⟩
    rw [← he, hstored b hb] at hn
    cases hn

theorem exists_snoc {p : Account Addr → Prop} :
    (∃ b ∈ done ++ [a], p b) ↔ (∃ b ∈ done, p b) ∨ p a := by
  simp [or_and_right, exists_or]

theorem forall_snoc {p : Account Addr → Prop} :
    (∀ b ∈ done ++ [a], p b) ↔ (∀ b ∈ done, p b) ∧ p a := by
  simp [or_imp, forall_and]

theorem Dropped.snoc : Dropped s0 (done ++ [a]) ↔ Dropped s0 done ∨
    a.accountNumber = 3 ∨ a.accountNumber = 2 ∧ s0.globalAccountNumber = 3 := exists_snoc

section
variable (h : Visited s0 done (a :: rest) t)
include h

theorem Visited.number : t.numberOf a.address = some a.accountNumber :=
  h.waiting a (List.mem_cons_self ..)

theorem Visited.ne_address {x : Addr} (hx : t.numberOf x ≠ some a.accountNumber) : x ≠ a.address :=
  fun e => hx (e ▸ h.number)

theorem Visited.eq_address (n2 : a.accountNumber ≠ 2) {x : Addr}
    (hx : t.numberOf x = some a.accountNumber) : x = a.address := by
  have hx' := (h.agrees _ n2 x).mpr hx
  rw [(h.agrees _ n2 a.address).mpr h.number] at hx'
  exact (Option.some.inj hx').symm

theorem Visited.number_ne {n : Nat} (hn : t.globalAccountNumber ≤ n) (x : Addr) :
    t.numberOf x ≠ some n := by
  intro hx
  have := h.below x n hx
  omega

/-- the visit of an account with another number than 1 does not change who has the index entry 2 -/
theorem Visited.two_addr_snoc (n1 : a.accountNumber ≠ 1) (x : Addr) :
    t.addressOf 2 = some x ↔ (∃ b ∈ done ++ [a], b.accountNumber = 1 ∧ x = b.address) ∨
      ((∀ b ∈ done ++ [a], b.accountNumber ≠ 1) ∧ s0.addressOf 2 = some x) := by
  rw [h.two_addr, exists_snoc, forall_snoc]
  simp [n1]

theorem Visited.meid_snoc (n1 : a.accountNumber ≠ 1) {number : Option Nat}
    (hkeep : meidAdmin Addr ≠ a.address → number = t.numberOf (meidAdmin Addr)) :
    ((∃ b ∈ rest, b.accountNumber = 1) → number = none) ∧
    ((∃ b ∈ done ++ [a], b.accountNumber = 1) → number = some 1) := by
  constructor
  · intro e
    have hfree := h.meid_free (e.imp fun b hb => ⟨List.mem_cons_of_mem _ hb.1, hb.2⟩)
    rw [hkeep (h.ne_address (by rw [hfree]; simp)), hfree]
  · intro e
    have hset := h.meid_set ((exists_snoc.mp e).resolve_right n1)
    have hne : t.numberOf (meidAdmin Addr) ≠ some a.accountNumber := by
      rw [hset]
      exact fun he => n1 (Option.some.inj he).symm
    rw [hkeep (h.ne_address hne), hset]

theorem Visited.drop_snoc
    (hlast : ¬ (a.accountNumber = 3 ∨ a.accountNumber = 2 ∧ s0.globalAccountNumber = 3))
    {number : Option Nat}
    (hkeep : airDrop Addr ≠ a.address → number = t.numberOf (airDrop Addr)) :
    (Dropped s0 rest → number = none) ∧ (Dropped s0 (done ++ [a]) → number = some 3) := by
  constructor
  · intro e
    have hfree := h.drop_free (e.imp fun b hb => ⟨List.mem_cons_of_mem _ hb.1, hb.2⟩)
    rw [hkeep (h.ne_address (by rw [hfree]; simp)), hfree]
  · intro e
    have hset := h.drop_set ((Dropped.snoc.mp e).resolve_right hlast)
    have hne : t.numberOf (airDrop Addr) ≠ some a.accountNumber := by
      rw [hset]
      exact fun he => hlast (Or.inl (Option.some.inj he).symm)
    rw [hkeep (h.ne_address hne), hset]

theorem Visited.addressOf_ne {n : Nat} (n2 : n ≠ 2) (hn : n ≠ a.accountNumber) :
    t.addressOf n ≠ some a.address := by
  rw [ne_eq, h.agrees n n2, h.number]
  exact fun e => hn (Option.some.inj e).symm

end

theorem Visited.two_num_one (hn : Next s0 done rest a) (h : Visited s0 done (a :: rest) t)
    (n1 : a.accountNumber = 1) {number : Addr → Option Nat}
    (hN : ∀ x, number x = if x = a.address then some 2
      else if x = meidAdmin Addr then some 1 else t.numberOf x) (x : Addr) :
    number x = some 2 ↔ (∃ b ∈ done ++ [a], b.accountNumber = 1 ∧ x = b.address) ∨
      ((∀ b ∈ done ++ [a], b.accountNumber ≠ 2) ∧ s0.numberOf x = some 2) := by
  have hfree := h.meid_free ⟨a, List.mem_cons_self .., n1⟩
  have hno : ¬ ∃ b ∈ done, b.accountNumber = 1 ∧ x = b.address :=
    fun ⟨b, hb, hb1, _⟩ => (hn.others b (Or.inl hb)).2 (hb1.trans n1.symm)
  have hnot2 : a.accountNumber ≠ 2 := by omega
  have htwo := h.two_num x
  rw [or_iff_right hno] at htwo
  rw [exists_snoc, forall_snoc, and_iff_left hnot2, or_iff_right hno, and_iff_right n1, hN]
  by_cases hxa : x = a.address
  · rw [if_pos hxa]
    exact iff_of_true rfl (Or.inl hxa)
  · rw [if_neg hxa, or_iff_right hxa]
    by_cases hxm : x = meidAdmin Addr
    · rw [if_pos hxm]
      rw [hxm, hfree] at htwo
      rw [hxm]
      exact iff_of_false (by simp) (fun e => absurd (htwo.mpr e) (by simp))
    · rw [if_neg hxm]
      exact htwo

theorem Visited.step_one (hn : Next s0 done rest a) (h : Visited s0 done (a :: rest) t)
    (hMD : meidAdmin Addr ≠ airDrop Addr) (n1 : a.accountNumber = 1)
    (hcount : (renumber t a).globalAccountNumber = t.globalAccountNumber)
    (hN : ∀ x, (renumber t a).numberOf x = if x = a.address then some 2
      else if x = meidAdmin Addr then some 1 else t.numberOf x)
    (hI : ∀ n, (renumber t a).addressOf n = if n = 2 then some a.address
      else if n = 1 then some (meidAdmin Addr) else t.addressOf n) :
    Visited s0 (done ++ [a]) rest (renumber t a) := by
  obtain ⟨h3, hmeid⟩ := hn.not_meid ⟨a, Or.inr (Or.inr rfl), n1⟩
  have ham : a.address ≠ meidAdmin Addr := hmeid a (Or.inr (Or.inr rfl))
  have hfree := h.meid_free ⟨a, List.mem_cons_self .., n1⟩
  have ht3 : 3 ≤ t.globalAccountNumber := h3.trans h.counter_le
  have hone : ∀ b, b ∈ done ∨ b ∈ rest → b.accountNumber ≠ 1 := fun b hb => n1 ▸ (hn.others b hb).2
  have hNm : (renumber t a).numberOf (meidAdmin Addr) = some 1 := by
    rw [hN, if_neg ham.symm, if_pos rfl]
  have hNx {x : Addr} (hxa : x ≠ a.address) (hxm : x ≠ meidAdmin Addr) :
      (renumber t a).numberOf x = t.numberOf x := by rw [hN, if_neg hxa, if_neg hxm]
  have hdrop (hne : airDrop Addr ≠ a.address) :
      (renumber t a).numberOf (airDrop Addr) = t.numberOf (airDrop Addr) := hNx hne hMD.symm
  refine {
    counter_le := ?_
    counter_chain := ?_
    below := ?_
    waiting := ?_
    agrees := ?_
    two_addr := ?_
    two_num := h.two_num_one hn n1 hN
    meid_free := ?_
    meid_set := fun _ => hNm
    drop_free := (h.drop_snoc (by omega) hdrop).1
    drop_set := (h.drop_snoc (by omega) hdrop).2 }
  · rw [hcount]
    exact h.counter_le
  · intro e hd
    rw [hcount]
    exact h.counter_chain e (forall_snoc.mp hd).1
  · intro x n hx
    rw [hcount]
    rw [hN] at hx
    split at hx
    · have := Option.some.inj hx
      omega
    · split at hx
      · have := Option.some.inj hx
        omega
      · exact h.below x n hx
  · intro b hb
    rw [hNx (hn.others b (Or.inr hb)).1 (hmeid b (Or.inr (Or.inl hb)))]
    exact h.waiting b (List.mem_cons_of_mem _ hb)
  · intro n n2 x
    rw [hI, hN]
    apply AuthState.assign_agrees
    · exact fun e => absurd e n2
    · intro _ _
      by_cases hn1 : n = 1
      · rw [if_pos hn1]
        exact fun e => ham (Option.some.inj e).symm
      · rw [if_neg hn1]
        exact h.addressOf_ne n2 (n1.symm ▸ hn1)
    · intro _ hxa
      apply AuthState.assign_agrees
      · -- the account gives its number 1 away
        exact fun _ _ e => hxa (h.eq_address (by omega) (n1.symm ▸ e))
      · intro _ _
        rw [ne_eq, h.agrees n n2, hfree]
        simp
      · exact fun _ _ => h.agrees n n2 x
  · intro x
    rw [hI, if_pos rfl]
    constructor
    · intro e
      exact Or.inl ⟨a, by simp, n1, (Option.some.inj e).symm⟩
    · intro e
      rcases e with ⟨b, hb, hb1, rfl⟩ | ⟨hno, _⟩
      · rcases List.mem_append.mp hb with hb | hb
        · exact absurd hb1 (hone b (Or.inl hb))
        · rw [List.mem_singleton.mp hb]
      · exact absurd n1 (forall_snoc.mp hno).2
  · intro e
    obtain ⟨b, hb, hb1⟩ := e
    exact absurd hb1 (hone b (Or.inr hb))

theorem Visited.two_num_move (hn : Next s0 done rest a) (h : Visited s0 done (a :: rest) t)
    (n2 : a.accountNumber = 2) {number : Addr → Option Nat} {f : Nat} (hf : f ≠ 2)
    (hN : ∀ x, number x = if x = a.address then some f else t.numberOf x) (x : Addr) :
    number x = some 2 ↔ (∃ b ∈ done ++ [a], b.accountNumber = 1 ∧ x = b.address) ∨
      ((∀ b ∈ done ++ [a], b.accountNumber ≠ 2) ∧ s0.numberOf x = some 2) := by
  have hno : ¬ ((∀ b ∈ done ++ [a], b.accountNumber ≠ 2) ∧ s0.numberOf x = some 2) :=
    fun e => (forall_snoc.mp e.1).2 n2
  have hnot1 : ¬ (a.accountNumber = 1 ∧ x = a.address) := by omega
  rw [or_iff_left hno, exists_snoc, or_iff_left hnot1, hN]
  by_cases hxa : x = a.address
  · rw [if_pos hxa, hxa]
    exact iff_of_false (fun e => hf (Option.some.inj e))
      (fun ⟨b, hb, _, he⟩ => (hn.others b (Or.inl hb)).1 he.symm)
  · rw [if_neg hxa, h.two_num]
    -- the only account that had number 2 before the loop is this one
    exact or_iff_left (fun e => hxa (hn.unique x (n2.symm ▸ e.2)))

theorem Visited.step_move (hn : Next s0 done rest a) (h : Visited s0 done (a :: rest) t)
    (n2 : a.accountNumber = 2) (h3 : 3 < t.globalAccountNumber)
    (hcount : (renumber t a).globalAccountNumber = t.globalAccountNumber + 1)
    (hN : ∀ x, (renumber t a).numberOf x = if x = a.address then some t.globalAccountNumber
      else t.numberOf x)
    (hI : ∀ n, (renumber t a).addressOf n = if n = t.globalAccountNumber then some a.address
      else t.addressOf n) :
    Visited s0 (done ++ [a]) rest (renumber t a) := by
  have hle := h.counter_le
  have hnew := h.number_ne (le_refl _)
  -- with 3 as the next number the account would have gone through the last branch
  have hc : s0.globalAccountNumber ≠ 3 := by
    intro e
    have := h.counter_chain e (fun b hb => n2 ▸ (hn.others b (Or.inl hb)).2)
    omega
  have hNx {x : Addr} (hxa : x ≠ a.address) : (renumber t a).numberOf x = t.numberOf x := by
    rw [hN, if_neg hxa]
  refine {
    counter_le := by omega
    counter_chain := fun e => absurd e hc
    below := ?_
    waiting := ?_
    agrees := ?_
    two_addr := ?_
    two_num := h.two_num_move hn n2 (by omega) hN
    meid_free := (h.meid_snoc (by omega) hNx).1
    meid_set := (h.meid_snoc (by omega) hNx).2
    drop_free := (h.drop_snoc (by omega) hNx).1
    drop_set := (h.drop_snoc (by omega) hNx).2 }
  · intro x n hx
    rw [hN] at hx
    split at hx
    · have := Option.some.inj hx
      omega
    · have := h.below x n hx
      omega
  · intro b hb
    rw [hNx (hn.others b (Or.inr hb)).1]
    exact h.waiting b (List.mem_cons_of_mem _ hb)
  · intro n hn2 x
    rw [hI, hN]
    apply AuthState.assign_agrees
    · exact fun _ _ => hnew x
    · exact fun _ _ => h.addressOf_ne hn2 (n2.symm ▸ hn2)
    · exact fun _ _ => h.agrees n hn2 x
  · intro x
    rw [hI, if_neg (by omega)]
    exact h.two_addr_snoc (by omega) x

theorem Visited.two_num_drop (hn : Next s0 done rest a) (h : Visited s0 done (a :: rest) t)
    (hdrop : a.accountNumber = 3 ∨ a.accountNumber = 2 ∧ s0.globalAccountNumber = 3)
    {number : Addr → Option Nat} {f : Nat} (hf : f ≠ 2)
    (hN : ∀ x, number x = if x = airDrop Addr then some 3
      else if x = a.address then some f else t.numberOf x) (x : Addr) :
    number x = some 2 ↔ (∃ b ∈ done ++ [a], b.accountNumber = 1 ∧ x = b.address) ∨
      ((∀ b ∈ done ++ [a], b.accountNumber ≠ 2) ∧ s0.numberOf x = some 2) := by
  have hfree := h.drop_free ⟨a, List.mem_cons_self .., hdrop⟩
  have hnot1 : ¬ (a.accountNumber = 1 ∧ x = a.address) := by omega
  have htwo := h.two_num x
  rw [exists_snoc, forall_snoc, or_iff_left hnot1, hN]
  by_cases hxd : x = airDrop Addr
  · rw [if_pos hxd]
    rw [hxd, hfree] at htwo
    rw [hxd]
    refine iff_of_false (by simp) (fun e => ?_)
    have : (none : Option Nat) = some 2 := htwo.mpr (e.imp_right fun e => ⟨e.1.1, e.2⟩)
    cases this
  · rw [if_neg hxd]
    by_cases hxa : x = a.address
    · rw [if_pos hxa, hxa]
      refine iff_of_false (fun e => hf (Option.some.inj e)) (fun e => ?_)
      rcases e with ⟨b, hb, _, he⟩ | ⟨⟨_, hne⟩, e⟩
      · exact (hn.others b (Or.inl hb)).1 he.symm
      · rw [hn.number] at e
        exact hne (Option.some.inj e)
    · rw [if_neg hxa, htwo]
      refine or_congr_right ⟨fun e => ⟨⟨e.1, fun ha2 => hxa ?_⟩, e.2⟩, fun e => ⟨e.1.1, e.2⟩⟩
      exact hn.unique x (ha2.symm ▸ e.2)

theorem Visited.step_drop (hn : Next s0 done rest a) (h : Visited s0 done (a :: rest) t)
    (hMD : meidAdmin Addr ≠ airDrop Addr) {f : Nat}
    (hf : a.accountNumber = 3 ∧ f = t.globalAccountNumber ∨
      a.accountNumber = 2 ∧ t.globalAccountNumber = 3 ∧ f = 4)
    (hcount : (renumber t a).globalAccountNumber = f + 1)
    (hN : ∀ x, (renumber t a).numberOf x = if x = airDrop Addr then some 3
      else if x = a.address then some f else t.numberOf x)
    (hI : ∀ n, (renumber t a).addressOf n = if n = 3 then some (airDrop Addr)
      else if n = f then some a.address else t.addressOf n) :
    Visited s0 (done ++ [a]) rest (renumber t a) := by
  have hle := h.counter_le
  have hbel := hn.below a (Or.inr (Or.inr rfl))
  have hdrop : a.accountNumber = 3 ∨ a.accountNumber = 2 ∧ s0.globalAccountNumber = 3 := by omega
  have hD := hn.not_drop ⟨a, Or.inr (Or.inr rfl), hdrop⟩
  have had : a.address ≠ airDrop Addr := hD a (Or.inr (Or.inr rfl))
  have hfree := h.drop_free ⟨a, List.mem_cons_self .., hdrop⟩
  have hnew := h.number_ne (n := f) (by omega)
  have hf2 : f ≠ 2 := by omega
  have hf3 : f ≠ 3 := by omega
  -- no other account goes through the last branch
  have hlast : ¬ Dropped s0 rest := by
    intro hd
    obtain ⟨b, hb, hd⟩ := hd
    have := hn.below b (Or.inr (Or.inl hb))
    have := (hn.others b (Or.inr hb)).2
    omega
  -- number 3 is this account's, or nobody's
  have hthree (x : Addr) (hx : t.numberOf x = some 3) : x = a.address := by
    have := h.below x 3 hx
    have ha3 : a.accountNumber = 3 := by omega
    exact h.eq_address (by omega) (ha3.symm ▸ hx)
  have hNd : (renumber t a).numberOf (airDrop Addr) = some 3 := by rw [hN, if_pos rfl]
  have hNx {x : Addr} (hxd : x ≠ airDrop Addr) (hxa : x ≠ a.address) :
      (renumber t a).numberOf x = t.numberOf x := by rw [hN, if_neg hxd, if_neg hxa]
  refine {
    counter_le := by omega
    counter_chain := ?_
    below := ?_
    waiting := ?_
    agrees := ?_
    two_addr := ?_
    two_num := h.two_num_drop hn hdrop hf2 hN
    meid_free := (h.meid_snoc (by omega) (hNx hMD)).1
    meid_set := (h.meid_snoc (by omega) (hNx hMD)).2
    drop_free := fun hd => absurd hd hlast
    drop_set := fun _ => hNd }
  · intro e hd
    have := (forall_snoc.mp hd).2
    omega
  · intro x n hx
    rw [hN] at hx
    split at hx
    · have := Option.some.inj hx
      omega
    · split at hx
      · have := Option.some.inj hx
        omega
      · have := h.below x n hx
        omega
  · intro b hb
    rw [hNx (hD b (Or.inr (Or.inl hb))) (hn.others b (Or.inr hb)).1]
    exact h.waiting b (List.mem_cons_of_mem _ hb)
  · intro n hn2 x
    rw [hI, hN]
    apply AuthState.assign_agrees
    · intro _ _
      by_cases hxa : x = a.address
      · rw [if_pos hxa]
        exact fun e => hf3 (Option.some.inj e)
      · rw [if_neg hxa]
        exact fun e => hxa (hthree x e)
    · intro _ _
      by_cases hnf : n = f
      · rw [if_pos hnf]
        exact fun e => had (Option.some.inj e)
      · rw [if_neg hnf, ne_eq, h.agrees n hn2, hfree]
        simp
    · intro hn3 _
      apply AuthState.assign_agrees
      · exact fun _ _ => hnew x
      · exact fun _ _ => h.addressOf_ne hn2 (by omega)
      · exact fun _ _ => h.agrees n hn2 x
  · intro x
    rw [hI, if_neg (by omega), if_neg (by omega)]
    exact h.two_addr_snoc (by omega) x

/-- an account with another number passes by -/
theorem Visited.step_pass (h : Visited s0 done (a :: rest) t) (n1 : a.accountNumber ≠ 1)
    (n2 : a.accountNumber ≠ 2) (n3 : a.accountNumber ≠ 3) : Visited s0 (done ++ [a]) rest t := by
  have hmeid := h.meid_snoc n1 (fun _ => rfl)
  have hdrop := h.drop_snoc (by omega) (fun _ => rfl)
  refine ⟨h.counter_le, fun e hd => h.counter_chain e (forall_snoc.mp hd).1, h.below,
    fun b hb => h.waiting b (List.mem_cons_of_mem _ hb), h.agrees, h.two_addr_snoc n1,
    fun x => ?_, hmeid.1, hmeid.2, hdrop.1, hdrop.2⟩
  rw [h.two_num, exists_snoc, forall_snoc]
  simp [n1, n2]

/-- **One visit** keeps the invariant. -/
theorem Visited.step (hMD : meidAdmin Addr ≠ airDrop Addr) (hs : Start s0 (done ++ a :: rest))
    (hc : Clear s0 (done ++ a :: rest)) (h : Visited s0 done (a :: rest) t) :
    Visited s0 (done ++ [a]) rest (renumber t a) := by
  have hn := hs.next hc
  rcases renumber_spec h.two_le with ⟨n1, hcount, hN, hI⟩ | ⟨n2, h3, hcount, hN, hI⟩ |
    ⟨f, hf, hcount, hN, hI⟩ | ⟨n1, n2, n3, e⟩
  · exact h.step_one hn hMD n1 hcount hN hI
  · exact h.step_move hn n2 h3 hcount hN hI
  · exact h.step_drop hn hMD hf hcount hN hI
  · rw [e]
    exact h.step_pass n1 n2 n3

theorem Visited.start {l : List (Account Addr)} (hs : Start s0 l) (hc : Clear s0 l) :
    Visited s0 [] l s0 where
  counter_le := le_refl _
  counter_chain h _ := h
  below := hs.numbered.below
  waiting b hb := AuthState.numberOf_eq_some.mpr ⟨b, hs.listed b hb, rfl⟩
  agrees n _ x := hs.numbered.agrees n x
  two_addr x := by simp
  two_num x := by simp
  meid_free h := numberOf_none.mpr (hc.meid h).1
  meid_set h := by simp at h
  drop_free h := numberOf_none.mpr (hc.drop h)
  drop_set h := by simp [Dropped] at h

/-- **The run** from a clear start -/
theorem Visited.run {l : List (Account Addr)} (hMD : meidAdmin Addr ≠ airDrop Addr)
    (hs : Start s0 l) (hc : Clear s0 l) : Visited s0 l [] (l.foldl renumber s0) := by
  refine foldl_run_rest (I := Visited s0) (Visited.start hs hc) ?_
  intro done a rest t hl h
  rw [hl] at hs hc
  exact h.step hMD hs hc

theorem Visited.numbered {l : List (Account Addr)} (hs : Start s0 l) (hc : Clear s0 l)
    (hl : ∀ x, s0.numberOf x = some 2 → (∃ b ∈ l, b.accountNumber = 1) →
      ∃ b ∈ l, b.accountNumber = 2) (h : Visited s0 l [] t) : t.Numbered := by
  have hagrees (n : Nat) (x : Addr) : t.addressOf n = some x ↔ t.numberOf x = some n := by
    by_cases hn : n = 2
    · rw [hn, h.two_addr, h.two_num, hs.numbered.agrees]
      by_cases h1 : ∃ b ∈ l, b.accountNumber = 1
      · obtain ⟨b1, hb1, hn1⟩ := h1
        refine or_congr_right (iff_of_false (fun h => h.1 b1 hb1 hn1) (fun h => ?_))
        obtain ⟨b2, hb2, hn2⟩ := hl x h.2 ⟨b1, hb1, hn1⟩
        exact h.1 b2 hb2 hn2
      · refine or_congr_right (and_congr_left (fun _ => iff_of_true ?_ ?_))
        · exact fun b hb e => h1 ⟨b, hb, e⟩
        · exact fun b hb e => h1 (hc.two ⟨b, hb, e⟩)
    · exact h.agrees n hn x
  exact AuthState.Numbered.of_agrees h.below hagrees

end

end MeChain
