import Mathlib.Data.List.DropRight
import Mathlib.Order.Bounds.Basic
import MeChain.Staking

/-!
# The priority of a transaction

`getTxPriority` walks over the fee coins and keeps the least price per unit of gas, but it takes a
kept price of zero for "nothing kept yet".

* `coinPrice`              the price a coin offers: its amount per unit of gas, rounded down, as far
                           as 64 bits go;
* `getTxPriority_snoc`     what one more coin at the end does;
* `leastDeciding`          the least price after the last that is zero;
* `getTxPriority_eq`       which is what the loop computes, for any gas limit but zero;
* `priority_least_iff`     when it is the least price;
* `priorityLaw_iff`        when the least price is also what it is after any later change of the fee.
-/

namespace MeChain
open Fallible

def maxInt64 : ℤ := 2 ^ 63 - 1

/-- `QuoRaw`: rounded towards zero, a panic on zero -/
def SdkInt.quoRaw (a b : ℤ) : Res ℤ :=
  if b = 0 then goPanic "Division by zero" else .ok (a.tdiv b)

/-- one iteration of the loop over the fee -/
def priorityStep (gas priority : ℤ) (c : Coin) : Res ℤ := do
  let gasPrice ← SdkInt.quoRaw c.amount gas
  let p := if Int64.fits gasPrice then gasPrice else maxInt64
  .ok (if priority = 0 ∨ p < priority then p else priority)

def getTxPriority (fee : Coins) (gas : ℤ) : Res ℤ := fee.foldlM (priorityStep gas) 0

/-- the price a coin offers for a unit of gas -/
def coinPrice (gas : ℤ) (c : Coin) : ℤ := min (c.amount / gas) maxInt64

/-! ## the loop -/

def Coins.Positive (fee : Coins) : Prop := ∀ c ∈ fee, 0 < c.amount

instance (fee : Coins) : Decidable fee.Positive := inferInstanceAs (Decidable (∀ c ∈ fee, _))

section
variable {gas : ℤ} {fee : Coins} {c : Coin}

theorem coinPrice_nonneg (hgas : 0 < gas) (hc : 0 < c.amount) : 0 ≤ coinPrice gas c :=
  le_min (Int.ediv_nonneg hc.le hgas.le) (by decide)

theorem coinPrice_eq_zero (hgas : 0 < gas) (hc : 0 < c.amount) :
    coinPrice gas c = 0 ↔ c.amount < gas := by
  have hmax : (0 : ℤ) < maxInt64 := by decide
  have hdiv : 0 ≤ c.amount / gas := Int.ediv_nonneg hc.le hgas.le
  have hz : c.amount / gas = 0 ↔ c.amount < gas := by
    constructor
    · intro h
      by_contra hle
      have hone : gas / gas ≤ c.amount / gas := Int.ediv_le_ediv hgas (by omega)
      rw [Int.ediv_self hgas.ne', h] at hone
      omega
    · exact Int.ediv_eq_zero_of_lt hc.le
  rw [← hz]
  unfold coinPrice
  omega

theorem coinPrice_mono (hgas : 0 < gas) {a : ℤ} (h : a ≤ c.amount) :
    coinPrice gas { c with amount := a } ≤ coinPrice gas c :=
  min_le_min_right _ (Int.ediv_le_ediv hgas h)

theorem priorityStep_eq (hgas : 0 < gas) (hc : 0 < c.amount) (priority : ℤ) :
    priorityStep gas priority c = .ok (if priority = 0 ∨ coinPrice gas c < priority
      then coinPrice gas c else priority) := by
  have hdiv : 0 ≤ c.amount / gas := Int.ediv_nonneg hc.le hgas.le
  have hp : (if Int64.fits (c.amount.tdiv gas) then c.amount.tdiv gas else maxInt64)
      = coinPrice gas c := by
    rw [Int.tdiv_eq_ediv_of_nonneg hc.le]
    by_cases hf : Int64.fits (c.amount / gas)
    · rw [if_pos hf, coinPrice, min_eq_left]
      exact Int.le_sub_one_of_lt hf.2
    · have hlarge : maxInt64 ≤ c.amount / gas := by
        unfold Int64.fits at hf
        unfold maxInt64
        omega
      rw [if_neg hf, coinPrice, min_eq_right hlarge]
  unfold priorityStep SdkInt.quoRaw
  rw [if_neg hgas.ne', ok_bind, hp]

theorem getTxPriority_of_ne_zero (fee : Coins) (hgas : gas ≠ 0) :
    ∃ p, getTxPriority fee gas = .ok p := by
  obtain ⟨p, hp, _⟩ := foldlM_total (I := fun _ _ => True) (f := priorityStep gas) (l := fee)
    (s := 0) trivial (fun done c rest p _ _ => by
      unfold priorityStep SdkInt.quoRaw
      rw [if_neg hgas, ok_bind]
      exact ⟨_, rfl, trivial⟩)
  exact ⟨p, hp⟩

theorem getTxPriority_total (hgas : 0 < gas) (hpos : fee.Positive) :
    ∃ p, getTxPriority fee gas = .ok p ∧ 0 ≤ p := by
  refine foldlM_total (I := fun _ p => 0 ≤ p) le_rfl ?_
  intro done c rest p hl hp
  have hc : 0 < c.amount := hpos c (by rw [hl]; simp)
  refine ⟨_, priorityStep_eq hgas hc p, ?_⟩
  have hnn := coinPrice_nonneg hgas hc
  split
  · exact hnn
  · exact hp

theorem getTxPriority_snoc (hgas : 0 < gas) (hc : 0 < c.amount) {p : ℤ}
    (h : getTxPriority fee gas = .ok p) : getTxPriority (fee ++ [c]) gas
      = .ok (if p = 0 ∨ coinPrice gas c < p then coinPrice gas c else p) := by
  unfold getTxPriority at *
  rw [List.foldlM_append, h, ok_bind, List.foldlM_cons, priorityStep_eq hgas hc]
  rfl

/-- the last coin bounds the priority, and alone decides whether it is zero -/
theorem getTxPriority_last (hgas : 0 < gas) (hpos : (fee ++ [c]).Positive) {p : ℤ}
    (h : getTxPriority (fee ++ [c]) gas = .ok p) :
    p ≤ coinPrice gas c ∧ (p = 0 ↔ coinPrice gas c = 0) := by
  have hc : 0 < c.amount := hpos c (by simp)
  obtain ⟨q, hq, hq0⟩ := getTxPriority_total hgas
    (fun x hx => hpos x (List.mem_append_left _ hx) : fee.Positive)
  rw [getTxPriority_snoc hgas hc hq] at h
  cases h
  have hnn := coinPrice_nonneg hgas hc
  split <;> omega

/-- the priority is zero exactly when the last coin offers nothing -/
theorem getTxPriority_zero_last (hgas : 0 < gas) (hpos : fee.Positive) (hne : fee ≠ [])
    {p : ℤ} (h : getTxPriority fee gas = .ok p) :
    p ≤ coinPrice gas (fee.getLast hne) ∧ (p = 0 ↔ coinPrice gas (fee.getLast hne) = 0) := by
  have hl : fee.dropLast ++ [fee.getLast hne] = fee := List.dropLast_append_getLast hne
  rw [← hl] at hpos h
  exact getTxPriority_last hgas hpos h

/-! ## what decides the priority -/

/-- the price a coin offers, whatever the sign of the gas limit -/
def offer (gas : ℤ) (c : Coin) : ℤ :=
  if Int64.fits (c.amount.tdiv gas) then c.amount.tdiv gas else maxInt64

/-- The prices that decide the priority: those after the last that is zero, or all of them if one is
below zero. -/
def deciding (offers : List ℤ) : List ℤ :=
  if ∃ p ∈ offers, p < 0 then offers else offers.rtakeWhile (· ≠ 0)

/-- the least of them, zero if there are none -/
def leastDeciding (offers : List ℤ) : ℤ := (deciding offers).min?.getD 0

theorem min?_concat (l : List ℤ) (p : ℤ) :
    (l ++ [p]).min? = some ((l.min?.map (min · p)).getD p) := by
  rw [List.min?_eq_some_iff]
  cases hm : l.min? with
  | none =>
    rw [List.min?_eq_none_iff.mp hm]
    simp
  | some m =>
    obtain ⟨hmem, hle⟩ := List.min?_eq_some_iff.mp hm
    constructor
    · rcases min_choice m p with h | h
      · simp [h, hmem]
      · simp [h]
    · intro b hb
      rcases List.mem_append.mp hb with hb | hb
      · exact (min_le_left _ _).trans (hle b hb)
      · rw [List.mem_singleton.mp hb]
        exact min_le_right _ _

theorem leastDeciding_snoc (l : List ℤ) (p : ℤ) : leastDeciding (l ++ [p])
    = if leastDeciding l = 0 ∨ p < leastDeciding l then p else leastDeciding l := by
  unfold leastDeciding deciding
  by_cases hneg : ∃ q ∈ l, q < 0
  · -- the least price is below zero already
    have hneg' : ∃ q ∈ l ++ [p], q < 0 := by
      obtain ⟨q, hq, hlt⟩ := hneg
      exact ⟨q, List.mem_append_left _ hq, hlt⟩
    rw [if_pos hneg, if_pos hneg', min?_concat]
    obtain ⟨q, hq, hlt⟩ := hneg
    cases hm : l.min? with
    | none =>
      rw [List.min?_eq_none_iff.mp hm] at hq
      cases hq
    | some m =>
      have hle := (List.min?_eq_some_iff.mp hm).2 q hq
      simp only [Option.map_some, Option.getD_some]
      split <;> omega
  · rw [if_neg hneg]
    have hnonneg : ∀ q ∈ l, 0 ≤ q := fun q hq => not_lt.mp (fun h => hneg ⟨q, hq, h⟩)
    have hleast : 0 ≤ ((l.rtakeWhile (· ≠ 0)).min?).getD 0 := by
      cases hm : (l.rtakeWhile (· ≠ 0)).min? with
      | none => exact le_rfl
      | some m =>
        exact hnonneg m ((List.rtakeWhile_suffix _ _).subset (List.min?_eq_some_iff.mp hm).1)
    by_cases hp : p < 0
    · -- the new price is the only one below zero
      rw [if_pos ⟨p, by simp, hp⟩, min?_concat, if_pos (by omega)]
      cases hm : l.min? with
      | none => rfl
      | some m =>
        have hm0 := hnonneg m (List.min?_eq_some_iff.mp hm).1
        exact min_eq_right (by omega)
    · have hall : ¬ ∃ q ∈ l ++ [p], q < 0 := by
        rintro ⟨q, hq, hlt⟩
        rcases List.mem_append.mp hq with hq | hq
        · exact hneg ⟨q, hq, hlt⟩
        · rw [List.mem_singleton.mp hq] at hlt
          exact hp hlt
      rw [if_neg hall]
      by_cases hp0 : p = 0
      · rw [List.rtakeWhile_concat_neg _ _ _ (by simpa using hp0), hp0]
        simp only [List.min?_nil, Option.getD_none]
        split <;> omega
      · rw [List.rtakeWhile_concat_pos _ _ _ (by simpa using hp0), min?_concat]
        cases hm : (l.rtakeWhile (· ≠ 0)).min? with
        | none => simp
        | some m =>
          have hmem := (List.min?_eq_some_iff.mp hm).1
          have hm0 : m ≠ 0 := by simpa using List.mem_rtakeWhile_imp hmem
          simp only [Option.map_some, Option.getD_some]
          split <;> omega

/-- **The priority** is the least price that decides it, and the loop fails on a gas limit of zero. -/
theorem getTxPriority_eq {fee : Coins} {gas p : ℤ} : getTxPriority fee gas = .ok p ↔
    (gas = 0 → fee = []) ∧ p = leastDeciding (fee.map (offer gas)) := by
  have hrun : gas ≠ 0 → getTxPriority fee gas = .ok (leastDeciding (fee.map (offer gas))) := by
    intro hgas
    obtain ⟨q, hq⟩ := getTxPriority_of_ne_zero fee hgas
    rw [hq]
    congr 1
    refine foldlM_ok (I := fun done p => p = leastDeciding (done.map (offer gas))) hq rfl ?_
    intro done c rest p p' _ hI hstep
    unfold priorityStep SdkInt.quoRaw at hstep
    rw [if_neg hgas, ok_bind] at hstep
    cases hstep
    rw [List.map_append, List.map_singleton, leastDeciding_snoc, hI]
    rfl
  by_cases hgas : gas = 0
  · cases fee with
    | nil =>
      rw [show getTxPriority [] gas = .ok 0 from rfl]
      simp [leastDeciding, deciding, eq_comm]
    | cons c fee =>
      subst hgas
      refine iff_of_false (fun h => ?_) (fun h => absurd (h.1 rfl) (List.cons_ne_nil _ _))
      obtain ⟨q, hq, _⟩ := foldlM_cons_ok.mp h
      cases hq
  · rw [hrun hgas]
    simp [hgas, eq_comm]

/-! ## the least price -/

def prices (gas : ℤ) (fee : Coins) : Set ℤ := {x | ∃ c ∈ fee, coinPrice gas c = x}

/-- as long as every coin offers something the loop keeps the least price -/
theorem getTxPriority_least (hgas : 0 < gas) (hne : fee ≠ [])
    (hfull : ∀ c ∈ fee, gas ≤ c.amount) {p : ℤ} (h : getTxPriority fee gas = .ok p) :
    IsLeast (prices gas fee) p := by
  have hinv := foldlM_ok (I := fun done p => (done = [] ∧ p = 0) ∨
    (p ≠ 0 ∧ IsLeast (prices gas done) p)) h (Or.inl ⟨rfl, rfl⟩) ?_
  · rcases hinv with ⟨hnil, _⟩ | ⟨_, hleast⟩
    · exact absurd hnil hne
    · exact hleast
  · intro done c rest p p' hl hI hstep
    have hc : gas ≤ c.amount := hfull c (by rw [hl]; simp)
    have hpos : 0 < c.amount := by omega
    have hprice : coinPrice gas c ≠ 0 := by
      rw [Ne, coinPrice_eq_zero hgas hpos]
      omega
    rw [priorityStep_eq hgas hpos] at hstep
    cases hstep
    right
    rcases hI with ⟨rfl, rfl⟩ | ⟨hp, ⟨⟨b, hb, hbp⟩, hlow⟩⟩
    · rw [if_pos (Or.inl rfl)]
      refine ⟨hprice, ⟨c, by simp, rfl⟩, ?_⟩
      rintro x ⟨b, hb, rfl⟩
      rw [List.nil_append, List.mem_singleton] at hb
      rw [hb]
    · by_cases hlt : coinPrice gas c < p
      · rw [if_pos (Or.inr hlt)]
        refine ⟨hprice, ⟨c, by simp, rfl⟩, ?_⟩
        rintro x ⟨d, hd, rfl⟩
        rcases List.mem_append.mp hd with hd | hd
        · exact hlt.le.trans (hlow ⟨d, hd, rfl⟩)
        · rw [List.mem_singleton.mp hd]
      · rw [if_neg (by omega)]
        refine ⟨hp, ⟨b, by simp [hb], hbp⟩, ?_⟩
        rintro x ⟨d, hd, rfl⟩
        rcases List.mem_append.mp hd with hd | hd
        · exact hlow ⟨d, hd, rfl⟩
        · rw [List.mem_singleton.mp hd]
          omega

/-- **When the priority is the least price**: unless a coin that offers nothing is followed by a last
coin that offers something. -/
theorem priority_least_iff (hgas : 0 < gas) (hpos : fee.Positive) (hne : fee ≠ []) {p : ℤ}
    (h : getTxPriority fee gas = .ok p) : IsLeast (prices gas fee) p ↔
    ((∃ c ∈ fee, c.amount < gas) → (fee.getLast hne).amount < gas) := by
  have hlast := List.getLast_mem hne
  have hzero := getTxPriority_zero_last hgas hpos hne h
  rw [coinPrice_eq_zero hgas (hpos _ hlast)] at hzero
  have hlow : ∀ c ∈ fee, 0 ≤ coinPrice gas c := fun c hc => coinPrice_nonneg hgas (hpos c hc)
  obtain ⟨q, hq, hq0⟩ := getTxPriority_total hgas hpos
  rw [h] at hq
  cases hq
  constructor
  · rintro ⟨_, hleast⟩ ⟨c, hc, hlt⟩
    have hpc := hleast ⟨c, hc, (coinPrice_eq_zero hgas (hpos c hc)).mpr hlt⟩
    exact hzero.2.mp (le_antisymm hpc hq0)
  · intro himp
    by_cases hex : ∃ c ∈ fee, c.amount < gas
    · have hlt := himp hex
      rw [hzero.2.mpr hlt]
      refine ⟨⟨_, hlast, (coinPrice_eq_zero hgas (hpos _ hlast)).mpr hlt⟩, ?_⟩
      rintro x ⟨c, hc, rfl⟩
      exact hlow c hc
    · refine getTxPriority_least hgas hne (fun c hc => ?_) h
      by_contra hlt
      exact hex ⟨c, hc, by omega⟩

/-! ## the law of the priority -/

/-- The priority is the least price, hence not negative and blind to the order of the coins, and it
never goes up when a coin becomes smaller or another coin is added. -/
structure PriorityLaw (gas : ℤ) (fee : Coins) : Prop where
  least : ∃ p, getTxPriority fee gas = .ok p ∧ IsLeast (prices gas fee) p
  nonneg : ∀ p, getTxPriority fee gas = .ok p → 0 ≤ p
  orderFree : ∀ fee' : Coins, fee'.Perm fee → getTxPriority fee' gas = getTxPriority fee gas
  smaller : ∀ (before : Coins) (c : Coin) (after : Coins) (a : ℤ), fee = before ++ c :: after →
    0 < a → a ≤ c.amount → ∀ p p', getTxPriority fee gas = .ok p →
    getTxPriority (before ++ { c with amount := a } :: after) gas = .ok p' → p' ≤ p
  added : ∀ (before after : Coins) (c : Coin), fee = before ++ after → 0 < c.amount →
    ∀ p p', getTxPriority fee gas = .ok p → getTxPriority (before ++ c :: after) gas = .ok p' →
    p' ≤ p

/-- every coin offers something and the last one the least, or the gas limit is one -/
def LastLeast (gas : ℤ) (fee : Coins) (hne : fee ≠ []) : Prop :=
  gas = 1 ∨ (∀ c ∈ fee, gas ≤ c.amount) ∧
    ∀ c ∈ fee, coinPrice gas (fee.getLast hne) ≤ coinPrice gas c

theorem prices_perm {fee' : Coins} (h : fee'.Perm fee) : prices gas fee' = prices gas fee := by
  unfold prices
  simp only [h.mem_iff]

/-- a fee with the least price last keeps its priority bounded by whatever ends in a price as low -/
theorem le_of_last (hgas : 0 < gas) {fee' : Coins} (hpos' : fee'.Positive) (hne' : fee' ≠ [])
    {p p' : ℤ} (hp : p ∈ prices gas fee) (h' : getTxPriority fee' gas = .ok p')
    (hlast : ∀ c ∈ fee, coinPrice gas (fee'.getLast hne') ≤ coinPrice gas c) : p' ≤ p := by
  obtain ⟨c, hc, rfl⟩ := hp
  exact (getTxPriority_zero_last hgas hpos' hne' h').1.trans (hlast c hc)

theorem positive_smaller {before after : Coins} {a : ℤ} (ha : 0 < a)
    (hpos : Coins.Positive (before ++ c :: after)) :
    Coins.Positive (before ++ { c with amount := a } :: after) := by
  intro x hx
  rcases List.mem_append.mp hx with hx | hx
  · exact hpos x (by simp [hx])
  · rcases List.mem_cons.mp hx with rfl | hx
    · exact ha
    · exact hpos x (by simp [hx])

theorem positive_added {before after : Coins} (hc : 0 < c.amount)
    (hpos : Coins.Positive (before ++ after)) : Coins.Positive (before ++ c :: after) := by
  intro x hx
  rcases List.mem_append.mp hx with hx | hx
  · exact hpos x (by simp [hx])
  · rcases List.mem_cons.mp hx with rfl | hx
    · exact hc
    · exact hpos x (by simp [hx])

theorem priority_of_full (hgas : 0 < gas) (hpos : fee.Positive) (hne : fee ≠ [])
    (hfull : ∀ c ∈ fee, gas ≤ c.amount) : ∃ p, getTxPriority fee gas = .ok p ∧ 0 ≤ p ∧
      IsLeast (prices gas fee) p ∧ ∀ fee' : Coins, fee'.Perm fee → getTxPriority fee' gas = .ok p := by
  obtain ⟨p, hp, hp0⟩ := getTxPriority_total hgas hpos
  have hp' := getTxPriority_least hgas hne hfull hp
  refine ⟨p, hp, hp0, hp', fun fee' hperm => ?_⟩
  have hpos' : fee'.Positive := fun c hc => hpos c (hperm.mem_iff.mp hc)
  have hne' : fee' ≠ [] := fun e => hne (by rw [e] at hperm; exact hperm.nil_eq.symm)
  obtain ⟨q, hq, _⟩ := getTxPriority_total hgas hpos'
  have hq' := getTxPriority_least hgas hne' (fun c hc => hfull c (hperm.mem_iff.mp hc)) hq
  rw [prices_perm hperm] at hq'
  rw [hq, hq'.unique hp']

/-- with a gas limit of one every coin offers something, now and after any change -/
theorem priorityLaw_one (hpos : fee.Positive) (hne : fee ≠ []) : PriorityLaw 1 fee := by
  have hone : (0 : ℤ) < 1 := by decide
  have hleast : ∀ {fee' : Coins} {p : ℤ}, fee'.Positive → fee' ≠ [] →
      getTxPriority fee' 1 = .ok p → IsLeast (prices 1 fee') p :=
    fun hp' hn' h => getTxPriority_least hone hn' (fun c hc => hp' c hc) h
  obtain ⟨p, hp, hp0, hp', hperm⟩ := priority_of_full hone hpos hne (fun c hc => hpos c hc)
  refine ⟨⟨p, hp, hp'⟩, fun q hq => ?_, fun fee' h => (hperm fee' h).trans hp.symm, ?_, ?_⟩
  · rw [hp] at hq
    cases hq
    exact hp0
  · intro before c after a hfee ha hle q q' hq hq'
    rw [hp] at hq
    cases hq
    rw [hfee] at hpos
    have hlow := (hleast (positive_smaller ha hpos) (by simp) hq').2
    obtain ⟨x, hx, rfl⟩ := hp'.1
    rw [hfee] at hx
    rcases List.mem_append.mp hx with hx | hx
    · exact hlow ⟨x, by simp [hx], rfl⟩
    · rcases List.mem_cons.mp hx with rfl | hx
      · exact (hlow ⟨_, by simp, rfl⟩).trans (coinPrice_mono hone hle)
      · exact hlow ⟨x, by simp [hx], rfl⟩
  · intro before after c hfee hc q q' hq hq'
    rw [hp] at hq
    cases hq
    rw [hfee] at hpos
    have hlow := (hleast (positive_added hc hpos) (by simp) hq').2
    obtain ⟨x, hx, rfl⟩ := hp'.1
    rw [hfee] at hx
    rcases List.mem_append.mp hx with hx | hx
    · exact hlow ⟨x, by simp [hx], rfl⟩
    · exact hlow ⟨x, by simp [hx], rfl⟩

theorem priorityLaw_of_lastLeast (hgas : 0 < gas) (hpos : fee.Positive) (hne : fee ≠ [])
    (hfull : ∀ c ∈ fee, gas ≤ c.amount)
    (hlast : ∀ c ∈ fee, coinPrice gas (fee.getLast hne) ≤ coinPrice gas c) :
    PriorityLaw gas fee := by
  obtain ⟨p, hp, hp0, hp', hperm⟩ := priority_of_full hgas hpos hne hfull
  have hz : p ≠ 0 := by
    have hmem := List.getLast_mem hne
    rw [Ne, (getTxPriority_zero_last hgas hpos hne hp).2, coinPrice_eq_zero hgas (hpos _ hmem),
      not_lt]
    exact hfull _ hmem
  refine ⟨⟨p, hp, hp'⟩, fun q hq => ?_, fun fee' h => (hperm fee' h).trans hp.symm, ?_, ?_⟩
  · rw [hp] at hq
    cases hq
    exact hp0
  · intro before c after a hfee ha hle q q' hq hq'
    rw [hp] at hq
    cases hq
    subst hfee
    refine le_of_last hgas (positive_smaller ha hpos) (by simp) hp'.1 hq' (fun x hx => ?_)
    refine le_trans ?_ (hlast x hx)
    cases after with
    | nil =>
      rw [List.getLast_append_singleton, List.getLast_append_singleton]
      exact coinPrice_mono hgas hle
    | cons d after =>
      rw [List.getLast_append_of_ne_nil _ (List.cons_ne_nil _ _),
        List.getLast_append_of_ne_nil _ (List.cons_ne_nil _ _), List.getLast_cons_cons,
        List.getLast_cons_cons]
  · intro before after c hfee hc q q' hq hq'
    rw [hp] at hq
    cases hq
    subst hfee
    cases after with
    | nil =>
      -- the new coin comes last, and what is kept so far is not zero
      rw [List.append_nil] at hp
      rw [getTxPriority_snoc hgas hc hp] at hq'
      cases hq'
      split <;> omega
    | cons d after =>
      refine le_of_last hgas (positive_added hc hpos) (by simp) hp'.1 hq' (fun x hx => ?_)
      refine le_trans (le_of_eq ?_) (hlast x hx)
      rw [List.getLast_append_of_ne_nil _ (List.cons_ne_nil _ _),
        List.getLast_append_of_ne_nil _ (List.cons_ne_nil _ _), List.getLast_cons_cons]

/-- **When the priority obeys its law**: the gas limit is one, or every coin offers something and
the last one the least. -/
theorem priorityLaw_iff (hgas : 0 < gas) (hpos : fee.Positive) (hne : fee ≠ []) :
    PriorityLaw gas fee ↔ LastLeast gas fee hne := by
  constructor
  · intro h
    by_cases hone : gas = 1
    · exact Or.inl hone
    right
    obtain ⟨p, hp, hleast⟩ := h.least
    have hfull : ∀ c ∈ fee, gas ≤ c.amount := by
      intro c hc
      by_contra hlt
      have hzero := hleast.2 ⟨c, hc, (coinPrice_eq_zero hgas (hpos c hc)).mpr (by omega)⟩
      have hp0 := h.nonneg p hp
      -- one more coin, of the size of the gas limit, would raise the priority from zero to one
      have hprice : coinPrice gas ⟨"", gas⟩ = 1 := by
        rw [coinPrice, Int.ediv_self hgas.ne']
        rfl
      have hsnoc := getTxPriority_snoc (c := ⟨"", gas⟩) hgas hgas hp
      rw [if_pos (Or.inl (by omega)), hprice] at hsnoc
      have hadd := h.added fee [] ⟨"", gas⟩ (List.append_nil _).symm hgas p 1 hp hsnoc
      omega
    refine ⟨hfull, fun c hc => ?_⟩
    -- a coin that offers nothing in front of the last one makes the last one decide
    have hsplit : fee = fee.dropLast ++ [fee.getLast hne] :=
      (List.dropLast_append_getLast hne).symm
    have hinit : Coins.Positive (fee.dropLast ++ [⟨"", 1⟩]) := by
      intro x hx
      rcases List.mem_append.mp hx with hx | hx
      · exact hpos x (List.mem_of_mem_dropLast hx)
      · rw [List.mem_singleton.mp hx]
        exact Int.one_pos
    obtain ⟨q, hq, _⟩ := getTxPriority_total hgas hinit
    have hq0 : q = 0 := by
      rw [(getTxPriority_last hgas hinit hq).2, coinPrice_eq_zero hgas Int.one_pos]
      show 1 < gas
      omega
    have hsnoc := getTxPriority_snoc hgas (hpos _ (List.getLast_mem hne)) hq
    rw [if_pos (Or.inl hq0), List.append_assoc] at hsnoc
    have hadd := h.added fee.dropLast [fee.getLast hne] ⟨"", 1⟩ hsplit Int.one_pos p _ hp hsnoc
    exact hadd.trans (hleast.2 ⟨c, hc, rfl⟩)
  · rintro (rfl | ⟨hfull, hlast⟩)
    · exact priorityLaw_one hpos hne
    · exact priorityLaw_of_lastLeast hgas hpos hne hfull hlast

theorem priorityLaw_two_coins :
    PriorityLaw 200000 [⟨"umec", 1000000⟩, ⟨"zinc", 600000⟩] :=
  (priorityLaw_iff (by decide) (by decide) (List.cons_ne_nil _ _)).mpr
    (Or.inr ⟨by decide, by decide⟩)

/-- a dust coin in front of another: the priority is that of the second coin -/
theorem priority_ignores_first :
    ¬ PriorityLaw 200000 [⟨"dust", 1⟩, ⟨"umec", 1000000⟩] := by
  intro h
  obtain ⟨p, hp, hleast⟩ := h.least
  have hfive : getTxPriority [⟨"dust", 1⟩, ⟨"umec", 1000000⟩] 200000 = .ok 5 := by decide
  rw [hfive] at hp
  cases hp
  have hlow := hleast.2 ⟨⟨"dust", 1⟩, by simp, rfl⟩
  revert hlow
  decide

end

end MeChain
