import MeChain.Bank

/-!
# Vesting locks over time

What a vesting account still locks is computed from the block time by decimals that round.

* `Dec.chop_mono`, `Dec.quo_mono`   the roundings keep the order;
* `VestsSoundly`       what `Validate` checks of a vesting schedule;
* `vestedAmount_mono`  more has vested at a later time, and never more than the whole;
* `lockedCoins_later`  so an account locks no more at a later time.
-/

set_option linter.unusedSectionVars false

namespace MeChain
open Fallible

/-! ## the roundings -/

namespace Dec

theorem chopNat_mono {m n : Nat} (h : m ≤ n) : chopNat m ≤ chopNat n := by
  unfold chopNat
  split_ifs <;> omega

theorem chop_mono {x y : ℤ} (h : x ≤ y) : chopPrecisionAndRound x ≤ chopPrecisionAndRound y := by
  unfold chopPrecisionAndRound
  by_cases hx : x < 0
  · rw [if_pos hx]
    by_cases hy : y < 0
    · have hm : chopNat y.natAbs ≤ chopNat x.natAbs := chopNat_mono (by omega)
      rw [if_pos hy]
      omega
    · rw [if_neg hy]
      omega
  · have hm : chopNat x.natAbs ≤ chopNat y.natAbs := chopNat_mono (by omega)
    rw [if_neg hx, if_neg (by omega)]
    omega

theorem chop_nonneg {x : ℤ} (h : 0 ≤ x) : 0 ≤ chopPrecisionAndRound x := by
  have hm := chop_mono h
  rwa [show chopPrecisionAndRound 0 = 0 by decide] at hm

section
variable {a b c : ℤ}

theorem quo_mono (ha : 0 ≤ a) (h : a ≤ b) (hc : 0 < c) : quo a c ≤ quo b c := by
  have hone : (0 : ℤ) ≤ one := by decide
  have hab : a * one * one ≤ b * one * one :=
    mul_le_mul_of_nonneg_right (mul_le_mul_of_nonneg_right h hone) hone
  have ha' : 0 ≤ a * one * one := mul_nonneg (mul_nonneg ha hone) hone
  refine chop_mono ?_
  rw [Int.tdiv_eq_ediv_of_nonneg ha', Int.tdiv_eq_ediv_of_nonneg (ha'.trans hab)]
  exact Int.ediv_le_ediv hc hab

theorem quo_nonneg (ha : 0 ≤ a) (hc : 0 < c) : 0 ≤ quo a c := by
  have hone : (0 : ℤ) ≤ one := by decide
  exact chop_nonneg (Int.tdiv_nonneg (mul_nonneg (mul_nonneg ha hone) hone) hc.le)

theorem quo_le_one (ha : 0 ≤ a) (h : a ≤ c) (hc : 0 < c) : quo a c ≤ one := by
  have hself : (c * one * one).tdiv c = one * one := by
    rw [mul_assoc, mul_comm]
    exact Int.mul_tdiv_cancel _ hc.ne'
  calc quo a c ≤ quo c c := quo_mono ha h hc
    _ = chopPrecisionAndRound (one * one) := by rw [quo, hself]
    _ = one := chop_mul_one one

end

end Dec

/-! ## schedules -/

/-- What `Validate` checks of a vesting account, with coins that are not negative: the amounts of the
periods add up to what vests. -/
def AccountKind.VestsSoundly : AccountKind → Prop
  | .continuousVesting v _ | .delayedVesting v | .permanentLocked v =>
    ∀ d, 0 ≤ v.originalVesting.amountOf d
  | .periodicVesting v _ periods =>
    (∀ p ∈ periods, ∀ d, 0 ≤ p.amount.amountOf d) ∧
      ∀ d, (periods.map fun p => p.amount.amountOf d).sum = v.originalVesting.amountOf d
  | _ => True

section
variable {k : AccountKind} {t t' : ℤ} {d : String}

/-- the part of a continuous schedule that has vested, between its two ends -/
def continuousVested (original start finish t : ℤ) : ℤ :=
  Dec.roundInt (Dec.chopPrecisionAndRound
    (Dec.ofInt original * Dec.quo (Dec.ofInt (t - start)) (Dec.ofInt (finish - start))))

section
variable {original start finish : ℤ}

theorem ofInt_nonneg {n : ℤ} (h : 0 ≤ n) : 0 ≤ Dec.ofInt n := mul_nonneg h (by decide)

theorem ofInt_mono {m n : ℤ} (h : m ≤ n) : Dec.ofInt m ≤ Dec.ofInt n :=
  mul_le_mul_of_nonneg_right h (by decide)

theorem ofInt_pos {n : ℤ} (h : 0 < n) : 0 < Dec.ofInt n := mul_pos h (by decide)

theorem continuousVested_mono (hv : 0 ≤ original) (hstart : start ≤ t) (h : t ≤ t')
    (hfinish : start < finish) :
    continuousVested original start finish t ≤ continuousVested original start finish t' := by
  have hquo := Dec.quo_mono (ofInt_nonneg (sub_nonneg.mpr hstart))
    (ofInt_mono (sub_le_sub_right h start)) (ofInt_pos (sub_pos.mpr hfinish))
  exact Dec.chop_mono (Dec.chop_mono (mul_le_mul_of_nonneg_left hquo (ofInt_nonneg hv)))

theorem continuousVested_nonneg (hv : 0 ≤ original) (hstart : start ≤ t) (hfinish : start < finish) :
    0 ≤ continuousVested original start finish t := by
  have hquo := Dec.quo_nonneg (ofInt_nonneg (sub_nonneg.mpr hstart))
    (ofInt_pos (sub_pos.mpr hfinish))
  exact Dec.chop_nonneg (Dec.chop_nonneg (mul_nonneg (ofInt_nonneg hv) hquo))

theorem continuousVested_le (hv : 0 ≤ original) (hstart : start ≤ t) (ht : t ≤ finish)
    (hfinish : start < finish) : continuousVested original start finish t ≤ original := by
  have hquo := Dec.quo_le_one (ofInt_nonneg (sub_nonneg.mpr hstart))
    (ofInt_mono (sub_le_sub_right ht start)) (ofInt_pos (sub_pos.mpr hfinish))
  have hprod : Dec.ofInt original * Dec.quo (Dec.ofInt (t - start)) (Dec.ofInt (finish - start))
      ≤ Dec.ofInt original * Dec.one := mul_le_mul_of_nonneg_left hquo (ofInt_nonneg hv)
  calc continuousVested original start finish t
      ≤ Dec.roundInt (Dec.chopPrecisionAndRound (Dec.ofInt original * Dec.one)) :=
        Dec.chop_mono (Dec.chop_mono hprod)
    _ = original := by rw [Dec.chop_mul_one, Dec.roundInt, Dec.ofInt, Dec.chop_mul_one]

end

theorem periodsVested_mono {ps : List Period} (start : ℤ) (hps : ∀ p ∈ ps, 0 ≤ p.amount.amountOf d)
    (h : t ≤ t') :
    0 ≤ Account.periodsVested t start ps d ∧
      Account.periodsVested t start ps d ≤ Account.periodsVested t' start ps d ∧
      Account.periodsVested t start ps d ≤ (ps.map fun p => p.amount.amountOf d).sum := by
  induction ps generalizing start with
  | nil => exact ⟨le_rfl, le_rfl, le_rfl⟩
  | cons p ps ih =>
    rw [List.forall_mem_cons] at hps
    obtain ⟨hnonneg, hmono, hsum⟩ := ih (start + p.length) hps.2
    have hlater : 0 ≤ Account.periodsVested t' (start + p.length) ps d := hnonneg.trans hmono
    have hp := hps.1
    simp only [Account.periodsVested, List.map_cons, List.sum_cons]
    split_ifs <;> omega

theorem sum_amounts_nonneg {ps : List Period} (hps : ∀ p ∈ ps, 0 ≤ p.amount.amountOf d) :
    0 ≤ (ps.map fun p => p.amount.amountOf d).sum := by
  refine List.sum_nonneg (fun n hn => ?_)
  obtain ⟨p, hp, rfl⟩ := List.mem_map.mp hn
  exact hps p hp

/-- **More vests with time.** -/
theorem vestedAmount_mono (hk : k.VestsSoundly) (h : t ≤ t') (d : String) :
    Account.vestedAmount k t d ≤ Account.vestedAmount k t' d := by
  cases k with
  | continuousVesting v start =>
    have hv := hk d
    show (if t ≤ start then 0 else if v.endTime ≤ t then v.originalVesting.amountOf d else
        continuousVested (v.originalVesting.amountOf d) start v.endTime t) ≤
      if t' ≤ start then 0 else if v.endTime ≤ t' then v.originalVesting.amountOf d else
        continuousVested (v.originalVesting.amountOf d) start v.endTime t'
    by_cases hstart : t ≤ start
    · rw [if_pos hstart]
      split_ifs with h1 h2
      · exact le_rfl
      · exact hv
      · exact continuousVested_nonneg hv (by omega) (by omega)
    · rw [if_neg hstart, if_neg (show ¬ t' ≤ start by omega)]
      by_cases hend : v.endTime ≤ t
      · rw [if_pos hend, if_pos (hend.trans h)]
      · rw [if_neg hend]
        split_ifs with h2
        · exact continuousVested_le hv (by omega) (by omega) (by omega)
        · exact continuousVested_mono hv (by omega) h (by omega)
  | delayedVesting v =>
    have hv := hk d
    simp only [Account.vestedAmount]
    split_ifs <;> omega
  | periodicVesting v start periods =>
    have hps : ∀ p ∈ periods, 0 ≤ p.amount.amountOf d := fun p hp => hk.1 p hp d
    obtain ⟨hnonneg, hmono, hsum⟩ := periodsVested_mono start hps h
    have htotal := hk.2 d
    have hall := sum_amounts_nonneg hps
    simp only [Account.vestedAmount]
    split_ifs <;> omega
  | base => exact le_rfl
  | module name permissions => exact le_rfl
  | permanentLocked v => exact le_rfl
  | interchain owner => exact le_rfl

theorem lockedFromVesting_mono {v : BaseVesting} {m n : ℤ} (h : m ≤ n) :
    Account.lockedFromVesting v m d ≤ Account.lockedFromVesting v n d := by
  unfold Account.lockedFromVesting
  omega

end

/-! ## locks -/

section
variable {Addr : Type} [SdkAddress Addr] [DecidableEq Addr]

theorem lockedAmount_later {a : Account Addr} {t t' : ℤ} (ha : a.kind.VestsSoundly) (h : t ≤ t')
    (d : String) : a.lockedAmount t' d ≤ a.lockedAmount t d := by
  have hv := vestedAmount_mono ha h d
  unfold Account.lockedAmount
  split
  · rename_i v start hk
    exact lockedFromVesting_mono (sub_le_sub_left hv _)
  · rename_i v hk
    exact lockedFromVesting_mono (sub_le_sub_left hv _)
  · rename_i v start periods hk
    exact lockedFromVesting_mono (sub_le_sub_left hv _)
  · rename_i v hk
    exact lockedFromVesting_mono (sub_le_sub_left hv _)
  · exact le_rfl

/-- **An account locks no more at a later time**, in any state in which its kind is the same. -/
theorem App.lockedCoins_later {s t : App Addr} {x : Addr}
    (hkind : t.auth.kindAt x = s.auth.kindAt x)
    (hs : ∀ k, s.auth.kindAt x = some k → k.VestsSoundly) {ctx later : Context}
    (h : ctx.blockTime ≤ later.blockTime) (d : String) :
    t.lockedCoins later x d ≤ s.lockedCoins ctx x d := by
  unfold App.lockedCoins
  cases ha : t.auth.getAccount x with
  | none =>
    have hnone : s.auth.getAccount x = none := by
      have hk := hkind.symm
      rw [AuthState.kindAt, AuthState.kindAt, ha] at hk
      exact Option.map_eq_none_iff.mp hk
    rw [hnone]
  | some a =>
    obtain ⟨b, hb, hba⟩ := AuthState.kindAt_eq_some.mp
      (hkind.symm.trans (AuthState.kindAt_eq_some.mpr ⟨a, ha, rfl⟩))
    rw [hb]
    dsimp only
    rw [← Account.lockedAmount_of_kind hba]
    exact lockedAmount_later (hs _ (AuthState.kindAt_eq_some.mpr ⟨b, hb, rfl⟩)) h d

end

end MeChain
