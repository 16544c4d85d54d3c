import MeChain.Sdk

/-!
# Decimal coins

Lists of decimal coins as x/distribution computes with them.  A list is read through `amountOf`, its
amount in one denomination, and every operation is proved by what it does to that.

* `safeAdd`, `sub`     the merge of two sorted lists, and the difference, which panics below zero;
* `intersect`          the smaller amount in every denomination of the first list;
* `truncateDecimal`    the whole coins, and the decimals that remain;
* `ofCoins`            whole coins as decimal ones.
-/

set_option linter.unusedSectionVars false

namespace MeChain
open Fallible

namespace Dec

def add (a b : Dec) : Res Dec := if Fits (a + b) then .ok (a + b) else goPanic "Int overflow"

/-- `QuoTruncate`, without its overflow check -/
def quoTruncate (a b : Dec) : Dec := ((a * one * one).tdiv b).tdiv one

theorem add_ok {a b c : Dec} (h : add a b = .ok c) : c = a + b := by
  unfold add at h
  by_cases hf : Fits (a + b)
  · rw [if_pos hf] at h
    cases h
    rfl
  · rw [if_neg hf] at h
    cases h

theorem one_pos : (0 : ℤ) < one := by decide

theorem change_nonneg {a : Dec} (h : 0 ≤ a) : 0 ≤ a - ofInt (truncate a) := by
  have hdiv : a - one * Int.tdiv a one = Int.tmod a one :=
    sub_eq_iff_eq_add'.mpr (Int.mul_tdiv_add_tmod a one).symm
  unfold ofInt truncate
  rw [mul_comm, hdiv]
  exact Int.tmod_nonneg one h

theorem change_lt {a : Dec} : a - ofInt (truncate a) < one := by
  have hdiv : a - one * Int.tdiv a one = Int.tmod a one :=
    sub_eq_iff_eq_add'.mpr (Int.mul_tdiv_add_tmod a one).symm
  unfold ofInt truncate
  rw [mul_comm, hdiv]
  exact Int.tmod_lt_of_pos a one_pos

theorem truncate_nonneg {a : Dec} (h : 0 ≤ a) : 0 ≤ truncate a :=
  Int.tdiv_nonneg h one_pos.le

theorem truncate_mono {a b : Dec} (h : a ≤ b) : truncate a ≤ truncate b :=
  Int.tdiv_le_tdiv one_pos h

/-- the whole part of a sum of a whole number and decimals below one -/
theorem truncate_ofInt_add {n : ℤ} {x : Dec} (hn : 0 ≤ n) (h0 : 0 ≤ x) (h1 : x < one) :
    truncate (ofInt n + x) = n := by
  have hnn : 0 ≤ ofInt n := Int.mul_nonneg hn one_pos.le
  unfold truncate
  rw [Int.tdiv_eq_ediv_of_nonneg (add_nonneg hnn h0), ofInt, add_comm, mul_comm,
    Int.add_mul_ediv_left _ _ one_pos.ne', Int.ediv_eq_zero_of_lt h0 h1, zero_add]

end Dec

namespace DecCoins

def IsZero (cs : DecCoins) : Prop := ∀ c ∈ cs, c.amount = 0

instance (cs : DecCoins) : Decidable (IsZero cs) := inferInstanceAs (Decidable (∀ c ∈ cs, _))

/-- `DecCoins.IsValid`: sorted by denomination, no denomination twice, positive amounts -/
def IsValid (cs : DecCoins) : Prop :=
  (∀ c ∈ cs, validDenom c.denom = true ∧ 0 < c.amount) ∧
    cs.Pairwise (fun a b => a.denom < b.denom)

instance (cs : DecCoins) : Decidable (IsValid cs) := inferInstanceAs (Decidable (_ ∧ _))

def removeZero (cs : DecCoins) : DecCoins := cs.filter fun c => c.amount ≠ 0

/-- a coin in front of a list, unless it is zero -/
def consNonzero (c : DecCoin) (cs : DecCoins) : DecCoins := if c.amount = 0 then cs else c :: cs

/-- one step of the merge: the coin `x` against a list, `rest` is the merge without `x` -/
def mergeCoin (x : DecCoin) (rest : DecCoins → Res DecCoins) : DecCoins → Res DecCoins
  | [] => do
    let sum ← rest []
    .ok (consNonzero x sum)
  | y :: b =>
    if x.denom < y.denom then do
      let sum ← rest (y :: b)
      .ok (consNonzero x sum)
    else if x.denom = y.denom then do
      let amount ← Dec.add x.amount y.amount
      let sum ← rest b
      .ok (consNonzero ⟨x.denom, amount⟩ sum)
    else do
      let sum ← mergeCoin x rest b
      .ok (consNonzero y sum)

/-- `DecCoins.Add` -/
def safeAdd : DecCoins → DecCoins → Res DecCoins
  | [], b => .ok (removeZero b)
  | x :: a, b => mergeCoin x (safeAdd a) b

/-- `DecCoins.Sub` -/
def sub (a b : DecCoins) : Res DecCoins := do
  let diff ← safeAdd a (b.map fun c => { c with amount := -c.amount })
  if ∃ c ∈ diff, c.amount < 0 then goPanic "negative coin amount" else .ok diff

/-- `DecCoins.Intersect` -/
def intersect (a b : DecCoins) : DecCoins :=
  removeZero (a.map fun c => { c with amount := min c.amount (amountOf b c.denom) })

/-- `DecCoins.QuoDecTruncate` -/
def quoDecTruncate (cs : DecCoins) (d : Dec) : DecCoins :=
  removeZero (cs.map fun c => { c with amount := Dec.quoTruncate c.amount d })

/-- `DecCoins.MulDecTruncate` -/
def mulDecTruncate (cs : DecCoins) (d : Dec) : DecCoins :=
  removeZero (cs.map fun c => { c with amount := Int.tdiv (c.amount * d) Dec.one })

/-- the whole coins of `DecCoins.TruncateDecimal` -/
def truncated (cs : DecCoins) : Coins :=
  (cs.map fun c => ⟨c.denom, Dec.truncate c.amount⟩).filter fun c : Coin => c.amount ≠ 0

/-- the change of `DecCoins.TruncateDecimal` -/
def change (cs : DecCoins) : DecCoins :=
  removeZero (cs.map fun c => { c with amount := c.amount - Dec.ofInt (Dec.truncate c.amount) })

def truncateDecimal (cs : DecCoins) : Coins × DecCoins := (truncated cs, change cs)

/-- `NewDecCoinsFromCoins` -/
def ofCoins (cs : Coins) : DecCoins := cs.map fun c => ⟨c.denom, Dec.ofInt c.amount⟩

/-! ## amounts -/

variable {a b c : DecCoins}

@[simp] theorem amountOf_nil (d : String) : amountOf [] d = 0 := rfl

@[simp] theorem amountOf_cons (x : DecCoin) (cs : DecCoins) (d : String) :
    amountOf (x :: cs) d = (if x.denom = d then x.amount else 0) + amountOf cs d := by
  simp [amountOf]

theorem amountOf_nonneg {cs : DecCoins} (h : ∀ x ∈ cs, 0 ≤ x.amount) (d : String) :
    0 ≤ amountOf cs d := by
  refine List.sum_nonneg (fun n hn => ?_)
  obtain ⟨x, hx, rfl⟩ := List.mem_map.mp hn
  split
  · exact h x hx
  · exact le_refl 0

@[simp] theorem amountOf_removeZero (cs : DecCoins) (d : String) :
    amountOf (removeZero cs) d = amountOf cs d := by
  induction cs with
  | nil => rfl
  | cons x cs ih =>
    by_cases h : x.amount = 0
    · rw [removeZero, List.filter_cons_of_neg (by simpa using h), amountOf_cons, h]
      simpa [removeZero] using ih
    · rw [removeZero, List.filter_cons_of_pos (by simpa using h), amountOf_cons, amountOf_cons]
      rw [← ih]
      rfl

theorem amountOf_consNonzero (x : DecCoin) (cs : DecCoins) (d : String) :
    amountOf (consNonzero x cs) d = amountOf (x :: cs) d := by
  unfold consNonzero
  by_cases h : x.amount = 0
  · rw [if_pos h, amountOf_cons, h]
    simp
  · rw [if_neg h]

theorem mergeCoin_amountOf {x : DecCoin} {rest : DecCoins → Res DecCoins} {r : String → Dec}
    (hrest : ∀ b c, rest b = .ok c → ∀ d, amountOf c d = r d + amountOf b d)
    (h : mergeCoin x rest b = .ok c) (d : String) :
    amountOf c d = (if x.denom = d then x.amount else 0) + r d + amountOf b d := by
  induction b generalizing c with
  | nil =>
    obtain ⟨sum, hsum, h⟩ := bind_eq_ok.mp h
    cases h
    rw [amountOf_consNonzero, amountOf_cons, hrest _ _ hsum]
    ring
  | cons y b ih =>
    unfold mergeCoin at h
    by_cases hlt : x.denom < y.denom
    · rw [if_pos hlt] at h
      obtain ⟨sum, hsum, h⟩ := bind_eq_ok.mp h
      cases h
      rw [amountOf_consNonzero, amountOf_cons, hrest _ _ hsum]
      ring
    · rw [if_neg hlt] at h
      by_cases heq : x.denom = y.denom
      · rw [if_pos heq] at h
        obtain ⟨amount, hadd, h⟩ := bind_eq_ok.mp h
        obtain ⟨sum, hsum, h⟩ := bind_eq_ok.mp h
        cases h
        rw [amountOf_consNonzero, amountOf_cons, hrest _ _ hsum, Dec.add_ok hadd, amountOf_cons, heq]
        dsimp only
        split <;> ring
      · rw [if_neg heq] at h
        obtain ⟨sum, hsum, h⟩ := bind_eq_ok.mp h
        cases h
        rw [amountOf_consNonzero, amountOf_cons, ih hsum, amountOf_cons]
        ring

/-- **A sum has the amounts of both lists.** -/
theorem amountOf_safeAdd (h : safeAdd a b = .ok c) (d : String) :
    amountOf c d = amountOf a d + amountOf b d := by
  induction a generalizing b c d with
  | nil =>
    cases h
    rw [amountOf_removeZero, amountOf_nil, zero_add]
  | cons x a ih =>
    rw [mergeCoin_amountOf (r := amountOf a) (fun b c hb d => ih hb d) h, amountOf_cons]

theorem amountOf_neg (cs : DecCoins) (d : String) :
    amountOf (cs.map fun c => { c with amount := -c.amount }) d = -amountOf cs d := by
  induction cs with
  | nil => rfl
  | cons x cs ih =>
    rw [List.map_cons, amountOf_cons, amountOf_cons, ih]
    dsimp only
    split <;> ring

/-- a difference with a negative coin panics -/
theorem sub_nonneg (h : sub a b = .ok c) : ∀ x ∈ c, 0 ≤ x.amount := by
  obtain ⟨diff, _, h⟩ := bind_eq_ok.mp h
  obtain ⟨hpos, h⟩ := guard_eq_ok.mp h
  cases h
  intro x hx
  by_contra hlt
  exact hpos ⟨x, hx, not_le.mp hlt⟩

/-- **A difference has the difference of the amounts**, none of them negative. -/
theorem amountOf_sub (h : sub a b = .ok c) (d : String) :
    amountOf c d = amountOf a d - amountOf b d ∧ 0 ≤ amountOf c d := by
  refine ⟨?_, amountOf_nonneg (sub_nonneg h) d⟩
  obtain ⟨diff, hdiff, h⟩ := bind_eq_ok.mp h
  obtain ⟨_, h⟩ := guard_eq_ok.mp h
  cases h
  rw [amountOf_safeAdd hdiff, amountOf_neg]
  ring

theorem amountOf_truncated (cs : DecCoins) (d : String) :
    (truncated cs).amountOf d
      = (cs.map fun c => if c.denom = d then Dec.truncate c.amount else 0).sum := by
  induction cs with
  | nil => rfl
  | cons x cs ih =>
    rw [List.map_cons, List.sum_cons, ← ih]
    unfold truncated
    rw [List.map_cons]
    by_cases h : Dec.truncate x.amount = 0
    · rw [List.filter_cons_of_neg (by simpa using h), h]
      simp
    · rw [List.filter_cons_of_pos (by simpa using h), Coins.amountOf_cons]

/-- **Nothing is lost in truncation**: the whole coins and the change are the coins. -/
theorem amountOf_truncateDecimal (cs : DecCoins) (d : String) :
    Dec.ofInt ((truncated cs).amountOf d) + amountOf (change cs) d = amountOf cs d := by
  rw [amountOf_truncated, change, amountOf_removeZero]
  induction cs with
  | nil => rfl
  | cons x cs ih =>
    rw [List.map_cons, List.sum_cons, List.map_cons, amountOf_cons, amountOf_cons, ← ih]
    dsimp only
    unfold Dec.ofInt
    split <;> ring

theorem change_nonneg {cs : DecCoins} (h : ∀ x ∈ cs, 0 ≤ x.amount) : ∀ x ∈ change cs, 0 ≤ x.amount := by
  intro x hx
  obtain ⟨y, hy, rfl⟩ := List.mem_map.mp (List.mem_filter.mp hx).1
  exact Dec.change_nonneg (h y hy)

theorem intersect_nonneg (ha : ∀ x ∈ a, 0 ≤ x.amount) (hb : ∀ d, 0 ≤ amountOf b d) :
    ∀ x ∈ intersect a b, 0 ≤ x.amount := by
  intro x hx
  obtain ⟨y, hy, rfl⟩ := List.mem_map.mp (List.mem_filter.mp hx).1
  exact le_min (ha y hy) (hb y.denom)

theorem mulDecTruncate_nonneg {d : Dec} (ha : ∀ x ∈ a, 0 ≤ x.amount) (hd : 0 ≤ d) :
    ∀ x ∈ mulDecTruncate a d, 0 ≤ x.amount := by
  intro x hx
  obtain ⟨y, hy, rfl⟩ := List.mem_map.mp (List.mem_filter.mp hx).1
  exact Int.tdiv_nonneg (Int.mul_nonneg (ha y hy) hd) Dec.one_pos.le

theorem amountOf_ofCoins (cs : Coins) (d : String) :
    amountOf (ofCoins cs) d = Dec.ofInt (cs.amountOf d) := by
  induction cs with
  | nil => rfl
  | cons x cs ih =>
    rw [ofCoins, List.map_cons, amountOf_cons, Coins.amountOf_cons]
    rw [ofCoins] at ih
    rw [ih]
    dsimp only
    unfold Dec.ofInt
    split <;> ring

theorem truncated_isValid {cs : DecCoins} (h : IsValid cs) : (truncated cs).IsValid := by
  refine ⟨fun c hc => ?_, ?_⟩
  · obtain ⟨hc, hne⟩ := List.mem_filter.mp hc
    obtain ⟨x, hx, rfl⟩ := List.mem_map.mp hc
    have hpos := Dec.truncate_nonneg (h.1 x hx).2.le
    have hne' : Dec.truncate x.amount ≠ 0 := by simpa using hne
    exact ⟨(h.1 x hx).1, by show 0 < Dec.truncate x.amount; omega⟩
  · exact List.Pairwise.filter _ (List.pairwise_map.mpr h.2)

theorem change_isValid {cs : DecCoins} (h : IsValid cs) : IsValid (change cs) := by
  refine ⟨fun c hc => ?_, ?_⟩
  · obtain ⟨hc, hne⟩ := List.mem_filter.mp hc
    obtain ⟨x, hx, rfl⟩ := List.mem_map.mp hc
    have hnonneg := Dec.change_nonneg (h.1 x hx).2.le
    have hne' : x.amount - Dec.ofInt (Dec.truncate x.amount) ≠ 0 := by simpa using hne
    exact ⟨(h.1 x hx).1, lt_of_le_of_ne hnonneg (Ne.symm hne')⟩
  · exact List.Pairwise.filter _ (List.pairwise_map.mpr h.2)

end DecCoins

end MeChain
