import Mathlib.Data.String.Basic
import Mathlib.Tactic.Linarith
import MeChain.DecCoins

/-!
# Valid lists of decimal coins

When the operations on decimal coins can be computed, and that they keep lists valid.

* `safeAdd_isValid`, `sub_isValid`   sums and differences of valid lists;
* `safeAdd_total`, `sub_total`       a sum that fits, and a difference that is not negative;
* `intersect_isValid`                what is in both of two lists.
-/

namespace MeChain
open Fallible

theorem Dec.fits_of_le {x y : ℤ} (h0 : 0 ≤ x) (h : x ≤ y) (hy : Dec.Fits y) : Dec.Fits x := by
  unfold Dec.Fits at *
  omega

namespace DecCoins
variable {a b c : DecCoins}

/-! ## what a sum lists -/

theorem mem_consNonzero {x z : DecCoin} (h : z ∈ consNonzero x a) : (z = x ∧ x.amount ≠ 0) ∨ z ∈ a := by
  unfold consNonzero at h
  by_cases h0 : x.amount = 0
  · rw [if_pos h0] at h
    exact Or.inr h
  · rw [if_neg h0] at h
    exact (List.mem_cons.mp h).imp_left fun he => ⟨he, h0⟩

theorem consNonzero_sorted {x : DecCoin} (h : a.Pairwise fun y z => y.denom < z.denom)
    (hx : ∀ z ∈ a, x.denom < z.denom) :
    (consNonzero x a).Pairwise fun y z => y.denom < z.denom := by
  unfold consNonzero
  split
  · exact h
  · exact List.pairwise_cons.mpr ⟨hx, h⟩

/-- the coins of a merge: none is zero, and each has the denomination of a coin that went in -/
theorem mergeCoin_mem {x : DecCoin} {rest : DecCoins → Res DecCoins}
    (hrest : ∀ b c, rest b = .ok c → ∀ z ∈ c, z.amount ≠ 0 ∧ ∃ y ∈ a ++ b, y.denom = z.denom)
    (h : mergeCoin x rest b = .ok c) :
    ∀ z ∈ c, z.amount ≠ 0 ∧ ∃ y ∈ x :: a ++ b, y.denom = z.denom := by
  induction b generalizing c with
  | nil =>
    obtain ⟨sum, hsum, h⟩ := bind_eq_ok.mp h
    cases h
    intro z hz
    rcases mem_consNonzero hz with ⟨rfl, h0⟩ | hz
    · exact ⟨h0, z, List.mem_cons_self .., rfl⟩
    · obtain ⟨h0, y, hy, he⟩ := hrest _ _ hsum z hz
      exact ⟨h0, y, List.mem_cons_of_mem _ hy, he⟩
  | cons w b ih =>
    unfold mergeCoin at h
    by_cases hlt : x.denom < w.denom
    · rw [if_pos hlt] at h
      obtain ⟨sum, hsum, h⟩ := bind_eq_ok.mp h
      cases h
      intro z hz
      rcases mem_consNonzero hz with ⟨rfl, h0⟩ | hz
      · exact ⟨h0, z, List.mem_cons_self .., rfl⟩
      · obtain ⟨h0, y, hy, he⟩ := hrest _ _ hsum z hz
        exact ⟨h0, y, List.mem_cons_of_mem _ hy, he⟩
    · rw [if_neg hlt] at h
      by_cases heq : x.denom = w.denom
      · rw [if_pos heq] at h
        obtain ⟨amount, _, h⟩ := bind_eq_ok.mp h
        obtain ⟨sum, hsum, h⟩ := bind_eq_ok.mp h
        cases h
        intro z hz
        rcases mem_consNonzero hz with ⟨rfl, h0⟩ | hz
        · exact ⟨h0, x, List.mem_cons_self .., rfl⟩
        · obtain ⟨h0, y, hy, he⟩ := hrest _ _ hsum z hz
          refine ⟨h0, y, List.mem_cons_of_mem _ ?_, he⟩
          exact (List.mem_append.mp hy).elim (List.mem_append_left _)
            (fun hb => List.mem_append_right _ (List.mem_cons_of_mem _ hb))
      · rw [if_neg heq] at h
        obtain ⟨sum, hsum, h⟩ := bind_eq_ok.mp h
        cases h
        intro z hz
        rcases mem_consNonzero hz with ⟨rfl, h0⟩ | hz
        · exact ⟨h0, z, by simp, rfl⟩
        · obtain ⟨h0, y, hy, he⟩ := ih hsum z hz
          refine ⟨h0, y, ?_, he⟩
          exact (List.mem_append.mp hy).elim (List.mem_append_left _)
            (fun hb => List.mem_append_right _ (List.mem_cons_of_mem _ hb))

theorem safeAdd_mem (h : safeAdd a b = .ok c) :
    ∀ z ∈ c, z.amount ≠ 0 ∧ ∃ y ∈ a ++ b, y.denom = z.denom := by
  induction a generalizing b c with
  | nil =>
    cases h
    intro z hz
    obtain ⟨hz, h0⟩ := List.mem_filter.mp hz
    exact ⟨of_decide_eq_true h0, z, hz, rfl⟩
  | cons x a ih => exact mergeCoin_mem (fun b c hb => ih hb) h

theorem mergeCoin_sorted {x : DecCoin} {rest : DecCoins → Res DecCoins}
    (hx : ∀ y ∈ a, x.denom < y.denom)
    (hrest : ∀ b c, rest b = .ok c → b.Pairwise (fun y z => y.denom < z.denom) →
      c.Pairwise (fun y z => y.denom < z.denom) ∧ ∀ z ∈ c, ∃ y ∈ a ++ b, y.denom = z.denom)
    (hmem : ∀ b c, mergeCoin x rest b = .ok c → ∀ z ∈ c, ∃ y ∈ x :: a ++ b, y.denom = z.denom)
    (hb : b.Pairwise fun y z => y.denom < z.denom) (h : mergeCoin x rest b = .ok c) :
    c.Pairwise fun y z => y.denom < z.denom := by
  induction b generalizing c with
  | nil =>
    obtain ⟨sum, hsum, h⟩ := bind_eq_ok.mp h
    cases h
    obtain ⟨hsorted, hin⟩ := hrest _ _ hsum hb
    refine consNonzero_sorted hsorted (fun z hz => ?_)
    obtain ⟨y, hy, he⟩ := hin z hz
    rw [List.append_nil] at hy
    exact he ▸ hx y hy
  | cons w b ih =>
    obtain ⟨hw, hb'⟩ := List.pairwise_cons.mp hb
    unfold mergeCoin at h
    by_cases hlt : x.denom < w.denom
    · rw [if_pos hlt] at h
      obtain ⟨sum, hsum, h⟩ := bind_eq_ok.mp h
      cases h
      obtain ⟨hsorted, hin⟩ := hrest _ _ hsum hb
      refine consNonzero_sorted hsorted (fun z hz => ?_)
      obtain ⟨y, hy, he⟩ := hin z hz
      rw [← he]
      rcases List.mem_append.mp hy with hy | hy
      · exact hx y hy
      · rcases List.mem_cons.mp hy with rfl | hy
        · exact hlt
        · exact hlt.trans (hw y hy)
    · rw [if_neg hlt] at h
      by_cases heq : x.denom = w.denom
      · rw [if_pos heq] at h
        obtain ⟨amount, _, h⟩ := bind_eq_ok.mp h
        obtain ⟨sum, hsum, h⟩ := bind_eq_ok.mp h
        cases h
        obtain ⟨hsorted, hin⟩ := hrest _ _ hsum hb'
        refine consNonzero_sorted hsorted (fun z hz => ?_)
        obtain ⟨y, hy, he⟩ := hin z hz
        rw [← he]
        rcases List.mem_append.mp hy with hy | hy
        · exact hx y hy
        · exact heq.le.trans_lt (hw y hy)
      · rw [if_neg heq] at h
        obtain ⟨sum, hsum, h⟩ := bind_eq_ok.mp h
        cases h
        have hgt : w.denom < x.denom := lt_of_le_of_ne (not_lt.mp hlt) (Ne.symm heq)
        refine consNonzero_sorted (ih hb' hsum) (fun z hz => ?_)
        obtain ⟨y, hy, he⟩ := hmem _ _ hsum z hz
        rw [← he]
        rcases List.mem_append.mp hy with hy | hy
        · rcases List.mem_cons.mp hy with rfl | hy
          · exact hgt
          · exact hgt.trans (hx y hy)
        · exact hw y hy

theorem safeAdd_sorted (ha : a.Pairwise fun y z => y.denom < z.denom)
    (hb : b.Pairwise fun y z => y.denom < z.denom) (h : safeAdd a b = .ok c) :
    c.Pairwise fun y z => y.denom < z.denom := by
  induction a generalizing b c with
  | nil =>
    cases h
    exact hb.filter _
  | cons x a ih =>
    obtain ⟨hx, ha⟩ := List.pairwise_cons.mp ha
    exact mergeCoin_sorted hx
      (fun b c hc hb => ⟨ih ha hb hc, fun z hz => (safeAdd_mem hc z hz).2⟩)
      (fun b c hc z hz => (safeAdd_mem (a := x :: a) hc z hz).2) hb h

/-! ## what valid lists have -/

theorem amountOf_of_mem (ha : a.Pairwise fun y z => y.denom < z.denom) {x : DecCoin} (hx : x ∈ a) :
    amountOf a x.denom = x.amount := by
  induction a with
  | nil => cases hx
  | cons y a ih =>
    obtain ⟨hy, ha⟩ := List.pairwise_cons.mp ha
    have habsent : amountOf a y.denom = 0 := by
      refine List.sum_eq_zero (fun n hn => ?_)
      obtain ⟨z, hz, rfl⟩ := List.mem_map.mp hn
      exact if_neg (hy z hz).ne'
    rw [amountOf_cons]
    rcases List.mem_cons.mp hx with rfl | hx
    · rw [if_pos rfl, habsent, add_zero]
    · rw [if_neg (hy x hx).ne, ih ha hx, zero_add]

theorem IsValid.nonneg (h : IsValid a) : ∀ x ∈ a, 0 ≤ x.amount := fun x hx => (h.1 x hx).2.le

/-- a list of the denominations of valid ones, in order and without negative or zero coins, is valid -/
theorem isValid_of_merge (ha : IsValid a) (hb : IsValid b)
    (hmem : ∀ z ∈ c, z.amount ≠ 0 ∧ ∃ y ∈ a ++ b, y.denom = z.denom)
    (hsorted : c.Pairwise fun y z => y.denom < z.denom) (hnonneg : ∀ d, 0 ≤ amountOf c d) :
    IsValid c := by
  refine ⟨fun z hz => ?_, hsorted⟩
  obtain ⟨h0, y, hy, he⟩ := hmem z hz
  have hvalid : validDenom z.denom = true := by
    rw [← he]
    exact (List.mem_append.mp hy).elim (fun h => (ha.1 y h).1) (fun h => (hb.1 y h).1)
  have hpos := hnonneg z.denom
  rw [amountOf_of_mem hsorted hz] at hpos
  exact ⟨hvalid, lt_of_le_of_ne hpos (Ne.symm h0)⟩

/-- **A sum of valid lists is valid.** -/
theorem safeAdd_isValid (ha : IsValid a) (hb : IsValid b) (h : safeAdd a b = .ok c) : IsValid c := by
  refine isValid_of_merge ha hb (safeAdd_mem h) (safeAdd_sorted ha.2 hb.2 h) (fun d => ?_)
  rw [amountOf_safeAdd h]
  exact add_nonneg (amountOf_nonneg ha.nonneg d) (amountOf_nonneg hb.nonneg d)

theorem neg_sorted (hb : b.Pairwise fun y z => y.denom < z.denom) :
    (b.map fun c => { c with amount := -c.amount }).Pairwise fun y z => y.denom < z.denom :=
  List.pairwise_map.mpr hb

theorem sub_isValid (ha : IsValid a) (hb : IsValid b) (h : sub a b = .ok c) : IsValid c := by
  have hnonneg := fun d => (amountOf_sub h d).2
  obtain ⟨diff, hdiff, h⟩ := bind_eq_ok.mp h
  obtain ⟨_, h⟩ := guard_eq_ok.mp h
  cases h
  refine isValid_of_merge ha hb (fun z hz => ?_) (safeAdd_sorted ha.2 (neg_sorted hb.2) hdiff) hnonneg
  obtain ⟨h0, y, hy, he⟩ := safeAdd_mem hdiff z hz
  refine ⟨h0, ?_⟩
  rcases List.mem_append.mp hy with hy | hy
  · exact ⟨y, List.mem_append_left _ hy, he⟩
  · obtain ⟨w, hw, rfl⟩ := List.mem_map.mp hy
    exact ⟨w, List.mem_append_right _ hw, he⟩

/-! ## when sums and differences can be computed -/

theorem mergeCoin_total {x : DecCoin} {rest : DecCoins → Res DecCoins}
    (hrest : ∀ b', b' <:+ b → ∃ c, rest b' = .ok c)
    (hfits : ∀ y ∈ b, x.denom = y.denom → Dec.Fits (x.amount + y.amount)) :
    ∃ c, mergeCoin x rest b = .ok c := by
  induction b with
  | nil =>
    obtain ⟨sum, hsum⟩ := hrest [] List.nil_suffix
    exact ⟨_, bind_eq_ok.mpr ⟨sum, hsum, rfl⟩⟩
  | cons y b ih =>
    unfold mergeCoin
    by_cases hlt : x.denom < y.denom
    · obtain ⟨sum, hsum⟩ := hrest (y :: b) List.suffix_rfl
      exact ⟨_, (if_pos hlt).trans (bind_eq_ok.mpr ⟨sum, hsum, rfl⟩)⟩
    · rw [if_neg hlt]
      by_cases heq : x.denom = y.denom
      · rw [if_pos heq]
        obtain ⟨sum, hsum⟩ := hrest b (List.suffix_cons y b)
        have hadd : Dec.add x.amount y.amount = .ok (x.amount + y.amount) :=
          if_pos (hfits y (List.mem_cons_self ..) heq)
        exact ⟨_, bind_eq_ok.mpr ⟨_, hadd, bind_eq_ok.mpr ⟨sum, hsum, rfl⟩⟩⟩
      · rw [if_neg heq]
        obtain ⟨sum, hsum⟩ := ih (fun b' hb => hrest b' (hb.trans (List.suffix_cons y b)))
          (fun z hz => hfits z (List.mem_cons_of_mem _ hz))
        exact ⟨_, bind_eq_ok.mpr ⟨sum, hsum, rfl⟩⟩

theorem safeAdd_total_of (hfits : ∀ x ∈ a, ∀ y ∈ b, x.denom = y.denom → Dec.Fits (x.amount + y.amount)) :
    ∃ c, safeAdd a b = .ok c := by
  induction a generalizing b with
  | nil => exact ⟨_, rfl⟩
  | cons x a ih =>
    refine mergeCoin_total (fun b' hb => ih (fun y hy z hz he => ?_)) (hfits x (List.mem_cons_self ..))
    exact hfits y (List.mem_cons_of_mem _ hy) z (hb.subset hz) he

/-- **Valid lists can be added** when the sums of their amounts fit. -/
theorem safeAdd_total (ha : IsValid a) (hb : IsValid b)
    (hfits : ∀ d, Dec.Fits (amountOf a d + amountOf b d)) : ∃ c, safeAdd a b = .ok c := by
  refine safeAdd_total_of (fun x hx y hy he => ?_)
  rw [← amountOf_of_mem ha.2 hx, ← amountOf_of_mem hb.2 hy, he]
  exact hfits y.denom

/-- **A valid list can be taken off another** that has as much of everything. -/
theorem sub_total (ha : IsValid a) (hb : IsValid b) (hle : ∀ d, amountOf b d ≤ amountOf a d)
    (hfits : ∀ d, Dec.Fits (amountOf a d)) : ∃ c, sub a b = .ok c := by
  obtain ⟨diff, hdiff⟩ : ∃ diff, safeAdd a (b.map fun c => { c with amount := -c.amount })
      = .ok diff := by
    refine safeAdd_total_of (fun x hx y hy he => ?_)
    obtain ⟨z, hz, rfl⟩ := List.mem_map.mp hy
    have hle' := hle x.denom
    have hb' := amountOf_nonneg hb.nonneg x.denom
    rw [show x.denom = z.denom from he, amountOf_of_mem hb.2 hz] at hle' hb'
    have hfit := hfits x.denom
    rw [amountOf_of_mem ha.2 hx] at hfit
    rw [← show x.denom = z.denom from he, amountOf_of_mem ha.2 hx] at hle'
    refine Dec.fits_of_le ?_ ?_ hfit
    · show 0 ≤ x.amount + -z.amount
      linarith
    · show x.amount + -z.amount ≤ x.amount
      linarith
  refine ⟨diff, bind_eq_ok.mpr ⟨diff, hdiff, if_neg ?_⟩⟩
  rintro ⟨z, hz, hneg⟩
  have hamount := amountOf_safeAdd hdiff z.denom
  rw [amountOf_of_mem (safeAdd_sorted ha.2 (neg_sorted hb.2) hdiff) hz, amountOf_neg] at hamount
  have hle' := hle z.denom
  linarith

/-! ## single lists -/

theorem ofCoins_isValid {cs : Coins} (h : cs.IsValid) : IsValid (ofCoins cs) := by
  refine ⟨fun x hx => ?_, List.pairwise_map.mpr h.2⟩
  obtain ⟨y, hy, rfl⟩ := List.mem_map.mp hx
  exact ⟨(h.1 y hy).1, mul_pos (h.1 y hy).2 Dec.one_pos⟩

/-- neither the whole coins nor the change of a valid list are more than the list -/
theorem ofInt_truncated_le (h : IsValid a) (d : String) :
    Dec.ofInt ((truncated a).amountOf d) ≤ amountOf a d := by
  rw [← amountOf_truncateDecimal a d]
  exact le_add_of_nonneg_right (amountOf_nonneg (change_isValid h).nonneg d)

theorem amountOf_change_le (h : IsValid a) (d : String) : amountOf (change a) d ≤ amountOf a d := by
  rw [← amountOf_truncateDecimal a d]
  exact le_add_of_nonneg_left (mul_nonneg
    (Coins.amountOf_nonneg (fun c hc => ((truncated_isValid h).1 c hc).2.le) d) Dec.one_pos.le)

theorem safeAdd_nil (a : DecCoins) : safeAdd a [] = .ok (removeZero a) := by
  induction a with
  | nil => rfl
  | cons x a ih =>
    show mergeCoin x (safeAdd a) [] = _
    unfold mergeCoin
    rw [ih]
    show Except.ok (consNonzero x (removeZero a)) = _
    unfold consNonzero removeZero
    by_cases h0 : x.amount = 0
    · rw [if_pos h0, List.filter_cons_of_neg (by simpa using h0)]
    · rw [if_neg h0, List.filter_cons_of_pos (by simpa using h0)]

theorem removeZero_of_nonzero (h : ∀ x ∈ a, x.amount ≠ 0) : removeZero a = a :=
  List.filter_eq_self.mpr (fun x hx => decide_eq_true (h x hx))

/-- what is in both lists is valid, and no more than in the second -/
theorem intersect_isValid (ha : IsValid a) (hb : IsValid b) : IsValid (intersect a b) := by
  have hnonneg := intersect_nonneg ha.nonneg (fun d => amountOf_nonneg hb.nonneg d)
  have hsorted : (a.map fun c => { c with amount := min c.amount (amountOf b c.denom) }).Pairwise
      fun y z => y.denom < z.denom := List.pairwise_map.mpr ha.2
  refine ⟨fun z hz => ?_, hsorted.filter _⟩
  obtain ⟨hmem, h0⟩ := List.mem_filter.mp hz
  obtain ⟨y, hy, rfl⟩ := List.mem_map.mp hmem
  exact ⟨(ha.1 y hy).1, lt_of_le_of_ne (hnonneg _ hz) (Ne.symm (of_decide_eq_true h0))⟩

theorem amountOf_intersect_le (ha : IsValid a) (hb : IsValid b) (d : String) :
    amountOf (intersect a b) d ≤ amountOf b d := by
  by_cases hd : ∃ z ∈ intersect a b, z.denom = d
  · obtain ⟨z, hz, rfl⟩ := hd
    rw [amountOf_of_mem (intersect_isValid ha hb).2 hz]
    obtain ⟨y, _, rfl⟩ := List.mem_map.mp (List.mem_filter.mp hz).1
    exact min_le_right _ _
  · have hnone : amountOf (intersect a b) d = 0 := by
      refine List.sum_eq_zero (fun n hn => ?_)
      obtain ⟨z, hz, rfl⟩ := List.mem_map.mp hn
      exact if_neg (fun he => hd ⟨z, hz, he⟩)
    rw [hnone]
    exact amountOf_nonneg hb.nonneg d

end DecCoins
end MeChain
