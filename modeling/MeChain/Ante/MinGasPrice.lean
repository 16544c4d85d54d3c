import Mathlib.Data.Rat.Floor
import Mathlib.Tactic.FieldSimp
import MeChain.Ante.Exempt
import MeChain.Ante.Priority
import MeChain.DecCoins

/-!
# The minimum gas price check

In `CheckTx` the fee must hold, in one of the denominations the node has a price for, at least the
price times the gas limit, rounded up.  The gas limit is an unsigned number that the check converts
to a signed one.

* `signedGas`              the conversion;
* `requiredFee`            price times gas limit in decimals, rounded up;
* `checkTxFeeWithValidatorMinGasPrices`  the check and the priority;
* `requiredFees_ok_iff`    what the decimals compute, and when they do;
* `checkTxFee_ok`          when the fee is let through, and with which priority;
* `minGasPriceLaw_signed`, `minGasPriceLaw_wrapped`  the law for gas limits below and from `2 ^ 63`;
* `minGasPrice_exact_iff`  for which gas limits the check does not panic and asks for the right fee.
-/

set_option linter.unusedSectionVars false

namespace MeChain
open Fallible

/-! ## decimals -/

namespace Dec

/-- `Ceil`: the quotient of the division is rounded towards zero -/
def ceil (a : Dec) : Dec :=
  if a.tmod one ≤ 0 then ofInt (a.tdiv one) else ofInt (a.tdiv one + 1)

/-- `RoundInt` -/
def toInt (a : Dec) : Res ℤ :=
  if SdkInt.Fits (roundInt a) then .ok (roundInt a) else goPanic "NewIntFromBigInt() out of bound"

theorem ceil_nonneg_eq (n : Nat) : (n : ℤ).tdiv one = (n : ℤ) / one ∧ (n : ℤ).tmod one = n % one :=
  ⟨Int.tdiv_eq_ediv_of_nonneg (Int.natCast_nonneg n),
    Int.tmod_eq_emod_of_nonneg (Int.natCast_nonneg n)⟩

theorem ceil_eq (a : Dec) : ceil a = ofInt ⌈(a : ℚ) / 10 ^ 18⌉ := by
  have hceil : ⌈(a : ℚ) / 10 ^ 18⌉ = -(-a / one) := by
    have h := Rat.ceil_intCast_div_natCast a (10 ^ 18)
    push_cast at h
    exact h
  have hone : one = 1000000000000000000 := by decide
  rw [hceil]
  unfold ceil
  rcases Int.eq_nat_or_neg a with ⟨n, rfl | rfl⟩
  · rw [(ceil_nonneg_eq n).1, (ceil_nonneg_eq n).2, hone]
    split <;> congr 1 <;> omega
  · rw [Int.neg_tdiv, Int.neg_tmod, (ceil_nonneg_eq n).1, (ceil_nonneg_eq n).2, neg_neg, hone,
      if_pos (by omega)]

theorem toInt_ofInt (n : ℤ) (h : SdkInt.Fits n) : toInt (ofInt n) = .ok n := by
  unfold toInt roundInt ofInt
  rw [chop_mul_one, if_pos h]

end Dec

/-! ## the check -/

/-- `int64(gas)` -/
def signedGas (gas : UInt64) : ℤ :=
  if gas.toNat < 2 ^ 63 then gas.toNat else gas.toNat - 2 ^ 64

/-- the fee a minimum gas price asks for -/
def requiredFee (glDec : Dec) (gp : DecCoin) : Res Coin := do
  let fee ← Dec.mul gp.amount glDec
  let amount ← Dec.toInt (Dec.ceil fee)
  newCoin gp.denom amount

/-- `IsAnyGTE`: a coin that reaches the amount required of its denomination, if one is required -/
def Coins.isAnyGTE (cs required : Coins) : Bool :=
  cs.any fun c => required.amountOf c.denom ≤ c.amount ∧ required.amountOf c.denom ≠ 0

def insufficientFees (got required : Coins) : String :=
  s!"insufficient fees; got: {got.str} required: {required.str}"

/-- the part of the check that runs in `CheckTx` -/
def checkMinGasPrices (ctx : Context) (feeCoins : Coins) (gas : UInt64) : Res Unit :=
  if ctx.isCheckTx = true ∧ ¬ DecCoins.IsZero ctx.minGasPrices then do
    let requiredFees ← ctx.minGasPrices.mapM (requiredFee (Dec.ofInt (signedGas gas)))
    if feeCoins.isAnyGTE requiredFees then .ok ()
    else goError .insufficientFee (insufficientFees feeCoins requiredFees)
  else .ok ()

def checkTxFeeWithValidatorMinGasPrices {Addr : Type} (ctx : Context) (tx : Tx Addr) :
    Res (Coins × ℤ) :=
  match tx with
  | .other _ => goError .txDecode "Tx must be a FeeTx"
  | .feeTx feeTx => do
    let _ ← checkMinGasPrices ctx feeTx.fee feeTx.gas
    let priority ← getTxPriority feeTx.fee (signedGas feeTx.gas)
    .ok (feeTx.fee, priority)

/-! ## what is required -/

/-- the fee one unit of gas costs, times the gas limit, rounded up -/
def ceilFee (gp : DecCoin) (gas : ℤ) : ℤ := ⌈(gp.amount : ℚ) / 10 ^ 18 * gas⌉

theorem ceilFee_eq (gp : DecCoin) (gas : ℤ) :
    Dec.ceil (gas * gp.amount) = Dec.ofInt (ceilFee gp gas) := by
  rw [Dec.ceil_eq, ceilFee]
  congr 2
  push_cast
  ring

theorem ceilFee_le_iff (gp : DecCoin) (gas a : ℤ) :
    ceilFee gp gas ≤ a ↔ gas * gp.amount ≤ a * 10 ^ 18 := by
  rw [ceilFee, Int.ceil_le, div_mul_eq_mul_div, div_le_iff₀ (by positivity), ← Int.cast_mul,
    show (a : ℚ) * 10 ^ 18 = ((a * 10 ^ 18 : ℤ) : ℚ) by push_cast; ring, Int.cast_le, mul_comm]

/-- a product that fits in a decimal rounds to a number that fits in an integer -/
theorem fits_ceilFee {gp : DecCoin} {gas : ℤ} (h : Dec.Fits (gas * gp.amount)) :
    SdkInt.Fits (ceilFee gp gas) := by
  have hle := ceilFee_le_iff gp gas (ceilFee gp gas)
  have hlt := ceilFee_le_iff gp gas (ceilFee gp gas - 1)
  unfold Dec.Fits Dec.maxBitLen at h
  unfold SdkInt.Fits SdkInt.maxBitLen
  generalize ceilFee gp gas = n at *
  generalize gas * gp.amount = x at *
  have h1 := hle.mp le_rfl
  have h2 : ¬ (x ≤ (n - 1) * 10 ^ 18) := fun hx => by
    have := hlt.mpr hx
    omega
  norm_num at h h1 h2 ⊢
  omega

theorem requiredFee_eq (gp : DecCoin) (gas : ℤ) : requiredFee (Dec.ofInt gas) gp
    = if Dec.Fits (gas * gp.amount) then newCoin gp.denom (ceilFee gp gas)
      else goPanic "Int overflow" := by
  unfold requiredFee
  rw [Dec.mul_ofInt]
  by_cases h : Dec.Fits (gas * gp.amount)
  · rw [if_pos h, if_pos h, ok_bind, ceilFee_eq, Dec.toInt_ofInt _ (fits_ceilFee h), ok_bind]
  · rw [if_neg h, if_neg h]
    rfl

section
variable {prices : DecCoins} {gas : ℤ} {fee : Coins}

/-- the required fees can be computed: every product fits, and none makes a coin of a bad denomination
or a negative amount -/
def Computable (prices : DecCoins) (gas : ℤ) : Prop :=
  ∀ gp ∈ prices, validDenom gp.denom = true ∧ Dec.Fits (gas * gp.amount) ∧ 0 ≤ ceilFee gp gas

/-- what the prices ask for in a denomination -/
def requiredOf (prices : DecCoins) (gas : ℤ) (d : String) : ℤ :=
  Coins.amountOf (prices.map fun gp => ⟨gp.denom, ceilFee gp gas⟩) d

theorem requiredFees_ok_iff {required : Coins} :
    prices.mapM (requiredFee (Dec.ofInt gas)) = .ok required ↔
      Computable prices gas ∧ required = prices.map fun gp => ⟨gp.denom, ceilFee gp gas⟩ := by
  have hone (gp : DecCoin) (c : Coin) : requiredFee (Dec.ofInt gas) gp = .ok c ↔
      (validDenom gp.denom = true ∧ Dec.Fits (gas * gp.amount) ∧ 0 ≤ ceilFee gp gas) ∧
        c = ⟨gp.denom, ceilFee gp gas⟩ := by
    rw [requiredFee_eq]
    split
    · rename_i hfit
      rw [newCoin_ok]
      simp [hfit]
    · rename_i hfit
      exact iff_of_false (by simp [goPanic]) (fun h => hfit h.1.2.1)
  constructor
  · intro h
    have hall : Computable prices gas := fun gp hgp => by
      obtain ⟨c, hc⟩ := mapM_ok_mem h hgp
      exact ((hone gp c).mp hc).1
    refine ⟨hall, ?_⟩
    rw [mapM_of (fun gp hgp => (hone gp _).mpr ⟨hall gp hgp, rfl⟩)] at h
    exact (Except.ok.inj h).symm
  · rintro ⟨hall, rfl⟩
    exact mapM_of (fun gp hgp => (hone gp _).mpr ⟨hall gp hgp, rfl⟩)

/-- the fees required, when every product fits and none is negative -/
theorem requiredFees_ok (hv : DecCoins.IsValid prices)
    (h : ∀ gp ∈ prices, Dec.Fits (gas * gp.amount) ∧ 0 ≤ ceilFee gp gas) :
    prices.mapM (requiredFee (Dec.ofInt gas))
      = .ok (prices.map fun gp => ⟨gp.denom, ceilFee gp gas⟩) :=
  requiredFees_ok_iff.mpr ⟨fun gp hgp => ⟨(hv.1 gp hgp).1, h gp hgp⟩, rfl⟩

theorem requiredFees_panic {gp : DecCoin} (hgp : gp ∈ prices)
    (h : ¬ (Dec.Fits (gas * gp.amount) ∧ 0 ≤ ceilFee gp gas)) :
    ∃ msg, prices.mapM (requiredFee (Dec.ofInt gas)) = goPanic msg := by
  cases hm : prices.mapM (requiredFee (Dec.ofInt gas)) with
  | ok r => exact absurd ((requiredFees_ok_iff.mp hm).1 gp hgp).2 h
  | error e =>
    obtain ⟨gp', _, he⟩ := mapM_error hm
    rw [requiredFee_eq] at he
    unfold newCoin at he
    split at he
    · split at he
      · cases he
      · cases he
        exact ⟨_, rfl⟩
    · cases he
      exact ⟨_, rfl⟩

theorem isAnyGTE_iff (hv : DecCoins.IsValid prices) :
    fee.isAnyGTE (prices.map fun gp => ⟨gp.denom, ceilFee gp gas⟩) = true ↔
    ∃ c ∈ fee, ∃ gp ∈ prices, gp.denom = c.denom ∧ ceilFee gp gas ≤ c.amount ∧
      ceilFee gp gas ≠ 0 := by
  have hnodup : ((prices.map fun gp => (⟨gp.denom, ceilFee gp gas⟩ : Coin)).map Coin.denom).Nodup := by
    rw [List.map_map]
    exact List.pairwise_map.mpr (hv.2.imp (fun h => h.ne))
  have hof : ∀ gp ∈ prices, Coins.amountOf
      (prices.map fun gp => ⟨gp.denom, ceilFee gp gas⟩) gp.denom = ceilFee gp gas :=
    fun gp hgp => Coins.amountOf_of_mem hnodup
      (List.mem_map_of_mem (f := fun gp => (⟨gp.denom, ceilFee gp gas⟩ : Coin)) hgp)
  unfold Coins.isAnyGTE
  rw [List.any_eq_true]
  refine exists_congr (fun c => and_congr_right (fun _ => ?_))
  rw [decide_eq_true_iff]
  constructor
  · rintro ⟨hle, hne⟩
    have hmem : c.denom ∈ (prices.map fun gp => (⟨gp.denom, ceilFee gp gas⟩ : Coin)).map
        Coin.denom := by
      by_contra hnot
      exact hne (Coins.amountOf_eq_zero hnot)
    rw [List.map_map] at hmem
    obtain ⟨gp, hgp, hd⟩ := List.mem_map.mp hmem
    have hd : gp.denom = c.denom := hd
    rw [← hd, hof gp hgp] at hle hne
    exact ⟨gp, hgp, hd, hle, hne⟩
  · rintro ⟨gp, hgp, hd, hle, hne⟩
    rw [← hd, hof gp hgp]
    exact ⟨hle, hne⟩

/-- In `CheckTx`, with prices set, the required fees can be computed and a coin of the fee reaches what
is required of its denomination, if anything is. -/
def Admits (ctx : Context) (gas : UInt64) (fee : Coins) : Prop :=
  ctx.isCheckTx = true → ¬ DecCoins.IsZero ctx.minGasPrices →
    Computable ctx.minGasPrices (signedGas gas) ∧
      ∃ c ∈ fee, requiredOf ctx.minGasPrices (signedGas gas) c.denom ≤ c.amount ∧
        requiredOf ctx.minGasPrices (signedGas gas) c.denom ≠ 0

theorem checkMinGasPrices_ok {ctx : Context} {gas : UInt64} :
    checkMinGasPrices ctx fee gas = .ok () ↔ Admits ctx gas fee := by
  unfold checkMinGasPrices Admits
  by_cases hasked : ctx.isCheckTx = true ∧ ¬ DecCoins.IsZero ctx.minGasPrices
  · rw [if_pos hasked]
    constructor
    · intro h _ _
      obtain ⟨required, hreq, h⟩ := bind_eq_ok.mp h
      obtain ⟨hcomp, rfl⟩ := requiredFees_ok_iff.mp hreq
      split at h
      · rename_i hany
        obtain ⟨c, hc, hreach⟩ := List.any_eq_true.mp hany
        exact ⟨hcomp, c, hc, of_decide_eq_true hreach⟩
      · cases h
    · intro h
      obtain ⟨hcomp, c, hc, hreach⟩ := h hasked.1 hasked.2
      refine bind_eq_ok.mpr ⟨_, requiredFees_ok_iff.mpr ⟨hcomp, rfl⟩, if_pos ?_⟩
      exact List.any_eq_true.mpr ⟨c, hc, decide_eq_true hreach⟩
  · rw [if_neg hasked]
    exact iff_of_true rfl (fun h1 h2 => absurd ⟨h1, h2⟩ hasked)

/-- **The check and the priority.** -/
theorem checkTxFee_ok {Addr : Type} {ctx : Context} {tx : FeeTx Addr} {r : Coins × ℤ} :
    checkTxFeeWithValidatorMinGasPrices ctx (.feeTx tx) = .ok r ↔ Admits ctx tx.gas tx.fee ∧
      (signedGas tx.gas = 0 → tx.fee = []) ∧
      r = (tx.fee, leastDeciding (tx.fee.map (offer (signedGas tx.gas)))) := by
  constructor
  · intro h
    obtain ⟨⟨⟩, hcheck, h⟩ := bind_eq_ok.mp h
    obtain ⟨p, hp, h⟩ := bind_eq_ok.mp h
    cases h
    obtain ⟨hgas, rfl⟩ := getTxPriority_eq.mp hp
    exact ⟨checkMinGasPrices_ok.mp hcheck, hgas, rfl⟩
  · rintro ⟨hadmits, hgas, rfl⟩
    exact bind_eq_ok.mpr ⟨(), checkMinGasPrices_ok.mpr hadmits,
      bind_eq_ok.mpr ⟨_, getTxPriority_eq.mpr ⟨hgas, rfl⟩, rfl⟩⟩

/-! ## when the check is exact -/

variable {Addr : Type} {ctx : Context} {tx : FeeTx Addr}

/-- a fee coin reaches a listed price of its denomination times the gas limit, rounded up -/
def Enough (prices : DecCoins) (tx : FeeTx Addr) : Prop :=
  ∃ c ∈ tx.fee, ∃ gp ∈ prices, gp.denom = c.denom ∧ ceilFee gp tx.gas.toNat ≤ c.amount

/-- The check does not panic, and in `CheckTx` with prices set it accepts exactly the fees that are
enough. -/
structure MinGasPriceLaw (ctx : Context) (tx : FeeTx Addr) : Prop where
  noPanic : isPanic (checkTxFeeWithValidatorMinGasPrices ctx (.feeTx tx)) = false
  exact : ctx.isCheckTx = true → ¬ DecCoins.IsZero ctx.minGasPrices →
    ((checkTxFeeWithValidatorMinGasPrices ctx (.feeTx tx)).isOk = true ↔
      Enough ctx.minGasPrices tx)

/-- Outside `CheckTx`, or without prices, the gas limit is not zero unless there is no fee.
Otherwise: for gas limit zero no fee coin has a listed denomination; from one to `2 ^ 63 - 1` the
products stay in range; from `2 ^ 63` on every price times the negative number the gas limit turns
into stays above minus one, and the fee is not enough. -/
def GasInRange (ctx : Context) (tx : FeeTx Addr) : Prop :=
  if ctx.isCheckTx = true ∧ ¬ DecCoins.IsZero ctx.minGasPrices then
    if tx.gas.toNat = 0 then ∀ c ∈ tx.fee, ∀ gp ∈ ctx.minGasPrices, gp.denom ≠ c.denom
    else if tx.gas.toNat < 2 ^ 63 then
      ∀ gp ∈ ctx.minGasPrices, Dec.Fits (tx.gas.toNat * gp.amount)
    else (∀ gp ∈ ctx.minGasPrices, (2 ^ 64 - tx.gas.toNat : ℤ) * gp.amount < 10 ^ 18) ∧
      ¬ Enough ctx.minGasPrices tx
  else tx.gas.toNat = 0 → tx.fee = []

theorem ceilFee_zero (gp : DecCoin) : ceilFee gp 0 = 0 := by
  rw [ceilFee, Int.cast_zero, mul_zero, Int.ceil_zero]

/-- outside `CheckTx`, or without prices, only the priority is computed -/
theorem check_unpriced (h : ¬ (ctx.isCheckTx = true ∧ ¬ DecCoins.IsZero ctx.minGasPrices)) :
    checkTxFeeWithValidatorMinGasPrices ctx (.feeTx tx)
      = getTxPriority tx.fee (signedGas tx.gas) >>= fun p => .ok (tx.fee, p) := by
  unfold checkTxFeeWithValidatorMinGasPrices checkMinGasPrices
  dsimp only
  rw [if_neg h]
  rfl

/-- **The check with prices**, when the required fees can be computed: it does not panic, and it
accepts when a coin reaches what is required of it and that is not zero. -/
theorem check_priced (tx : FeeTx Addr)
    (h : ctx.isCheckTx = true ∧ ¬ DecCoins.IsZero ctx.minGasPrices)
    (hv : DecCoins.IsValid ctx.minGasPrices)
    (hfit : ∀ gp ∈ ctx.minGasPrices, Dec.Fits (signedGas tx.gas * gp.amount) ∧
      0 ≤ ceilFee gp (signedGas tx.gas)) :
    isPanic (checkTxFeeWithValidatorMinGasPrices ctx (.feeTx tx)) = false ∧
    ((checkTxFeeWithValidatorMinGasPrices ctx (.feeTx tx)).isOk = true ↔
      ∃ c ∈ tx.fee, ∃ gp ∈ ctx.minGasPrices, gp.denom = c.denom ∧
        ceilFee gp (signedGas tx.gas) ≤ c.amount ∧ ceilFee gp (signedGas tx.gas) ≠ 0) := by
  rw [← isAnyGTE_iff hv]
  unfold checkTxFeeWithValidatorMinGasPrices checkMinGasPrices
  dsimp only
  rw [if_pos h, requiredFees_ok hv hfit, ok_bind]
  by_cases hany : tx.fee.isAnyGTE (ctx.minGasPrices.map fun gp =>
      ⟨gp.denom, ceilFee gp (signedGas tx.gas)⟩) = true
  · -- a required fee that is not zero needs a gas limit that is not zero
    have hgas : signedGas tx.gas ≠ 0 := by
      obtain ⟨_, _, gp, _, _, _, hne⟩ := (isAnyGTE_iff hv).mp hany
      intro h0
      rw [h0, ceilFee_zero] at hne
      exact hne rfl
    obtain ⟨p, hp⟩ := getTxPriority_of_ne_zero tx.fee hgas
    rw [if_pos hany, ok_bind, hp, ok_bind, hany]
    exact ⟨rfl, iff_of_true rfl rfl⟩
  · rw [if_neg hany]
    exact ⟨rfl, iff_of_false (by simp [goError, bind, Except.bind, Except.isOk, Except.toBool])
      (by simpa using hany)⟩

theorem check_panics (tx : FeeTx Addr)
    (h : ctx.isCheckTx = true ∧ ¬ DecCoins.IsZero ctx.minGasPrices)
    {gp : DecCoin} (hgp : gp ∈ ctx.minGasPrices)
    (hbad : ¬ (Dec.Fits (signedGas tx.gas * gp.amount) ∧ 0 ≤ ceilFee gp (signedGas tx.gas))) :
    isPanic (checkTxFeeWithValidatorMinGasPrices ctx (.feeTx tx)) = true := by
  obtain ⟨msg, hmsg⟩ := requiredFees_panic hgp hbad
  unfold checkTxFeeWithValidatorMinGasPrices checkMinGasPrices
  dsimp only
  rw [if_pos h, hmsg]
  rfl

/-! ### the three ranges of the gas limit -/

theorem signedGas_small {gas : UInt64} (h : gas.toNat < 2 ^ 63) : signedGas gas = gas.toNat :=
  if_pos h

theorem signedGas_large {gas : UInt64} (h : ¬ gas.toNat < 2 ^ 63) :
    signedGas gas = -(2 ^ 64 - gas.toNat : ℤ) ∧ 0 < (2 ^ 64 - gas.toNat : ℤ) ∧
      (2 ^ 64 - gas.toNat : ℤ) ≤ 2 ^ 63 := by
  have hlt := gas.toNat_lt
  refine ⟨?_, by omega, by omega⟩
  rw [signedGas, if_neg h]
  ring

theorem ceilFee_pos {gp : DecCoin} {gas : ℤ} (hgas : 0 < gas) (hgp : 0 < gp.amount) :
    0 < ceilFee gp gas := by
  have hpos : 0 < gas * gp.amount := Int.mul_pos hgas hgp
  by_contra hle
  have hzero := (ceilFee_le_iff gp gas 0).mp (by omega)
  omega

/-- a negative gas limit asks for nothing as long as the product stays above minus one -/
theorem ceilFee_neg {gp : DecCoin} {k : ℤ} (hk : 0 < k) (hgp : 0 < gp.amount) :
    ceilFee gp (-k) ≤ 0 ∧ (0 ≤ ceilFee gp (-k) ↔ k * gp.amount < 10 ^ 18) := by
  have hpos : 0 < k * gp.amount := Int.mul_pos hk hgp
  have h0 := ceilFee_le_iff gp (-k) 0
  have h1 := ceilFee_le_iff gp (-k) (-1)
  rw [neg_mul] at h0 h1
  constructor
  · exact h0.mpr (by omega)
  · constructor <;> intro h <;> omega

theorem fits_small {gp : DecCoin} {k : ℤ} (hk : 0 < k) (hgp : 0 < gp.amount)
    (h : k * gp.amount < 10 ^ 18) : Dec.Fits (-k * gp.amount) := by
  have hpos : 0 < k * gp.amount := Int.mul_pos hk hgp
  rw [neg_mul]
  unfold Dec.Fits Dec.maxBitLen
  generalize k * gp.amount = x at *
  norm_num at h ⊢
  omega

/-! ### the law in each of them -/

theorem signedGas_zero {gas : UInt64} (h : gas.toNat = 0) : signedGas gas = 0 := by
  rw [signedGas_small (by omega), h]
  rfl

/-- gas limit zero: nothing is required, so nothing is accepted -/
theorem minGasPriceLaw_zero (h : ctx.isCheckTx = true ∧ ¬ DecCoins.IsZero ctx.minGasPrices)
    (hv : DecCoins.IsValid ctx.minGasPrices) (hfee : tx.fee.IsValid) (hz : tx.gas.toNat = 0) :
    MinGasPriceLaw ctx tx ↔ ∀ c ∈ tx.fee, ∀ gp ∈ ctx.minGasPrices, gp.denom ≠ c.denom := by
  have hs := signedGas_zero hz
  have hout := check_priced tx h hv (fun gp _ => by
    rw [hs, ceilFee_zero, zero_mul]
    exact ⟨Nat.two_pow_pos _, le_rfl⟩)
  rw [hs] at hout
  simp only [ceilFee_zero, ne_eq, not_true_eq_false, and_false, exists_const, exists_false,
    iff_false] at hout
  constructor
  · intro hlaw c hc gp hg hd
    refine hout.2 ((hlaw.exact h.1 h.2).mpr ⟨c, hc, gp, hg, hd, ?_⟩)
    rw [hz]
    exact (ceilFee_zero gp).trans_le (hfee.1 c hc).2.le
  · intro hno
    refine ⟨hout.1, fun _ _ => iff_of_false hout.2 ?_⟩
    rintro ⟨c, hc, gp, hg, hd, _⟩
    exact hno c hc gp hg hd

theorem minGasPriceLaw_signed (h : ctx.isCheckTx = true ∧ ¬ DecCoins.IsZero ctx.minGasPrices)
    (hv : DecCoins.IsValid ctx.minGasPrices) (hz : tx.gas.toNat ≠ 0) (hs : tx.gas.toNat < 2 ^ 63) :
    MinGasPriceLaw ctx tx ↔ ∀ gp ∈ ctx.minGasPrices, Dec.Fits (tx.gas.toNat * gp.amount) := by
  have hgas : (0 : ℤ) < tx.gas.toNat := by omega
  have hpos : ∀ gp ∈ ctx.minGasPrices, 0 < ceilFee gp tx.gas.toNat :=
    fun gp hg => ceilFee_pos hgas (hv.1 gp hg).2
  constructor
  · intro hlaw gp hg
    by_contra hfit
    have hpanic := check_panics tx h hg (fun hok => hfit (by
      rw [← signedGas_small hs]
      exact hok.1))
    rw [hlaw.noPanic] at hpanic
    cases hpanic
  · intro hfit
    have hout := check_priced tx h hv (fun gp hg => by
      rw [signedGas_small hs]
      exact ⟨hfit gp hg, (hpos gp hg).le⟩)
    rw [signedGas_small hs] at hout
    refine ⟨hout.1, fun _ _ => hout.2.trans ?_⟩
    exact exists_congr (fun c => and_congr_right (fun _ => exists_congr (fun gp =>
      and_congr_right (fun hg => and_congr_right (fun _ => and_iff_left (hpos gp hg).ne')))))

/-- a gas limit that turns into a negative number: with prices small enough for it the check rejects
every fee -/
theorem wrapped_rejects (h : ctx.isCheckTx = true ∧ ¬ DecCoins.IsZero ctx.minGasPrices)
    (hv : DecCoins.IsValid ctx.minGasPrices) (hs : ¬ tx.gas.toNat < 2 ^ 63)
    (hsmall : ∀ gp ∈ ctx.minGasPrices, (2 ^ 64 - tx.gas.toNat : ℤ) * gp.amount < 10 ^ 18) :
    isPanic (checkTxFeeWithValidatorMinGasPrices ctx (.feeTx tx)) = false ∧
      ¬ (checkTxFeeWithValidatorMinGasPrices ctx (.feeTx tx)).isOk = true := by
  obtain ⟨hsg, hk, _⟩ := signedGas_large hs
  have hneg : ∀ gp ∈ ctx.minGasPrices, ceilFee gp (signedGas tx.gas) ≤ 0 ∧
      0 ≤ ceilFee gp (signedGas tx.gas) := by
    intro gp hg
    rw [hsg]
    have hceil := ceilFee_neg hk (hv.1 gp hg).2
    exact ⟨hceil.1, hceil.2.mpr (hsmall gp hg)⟩
  have hout := check_priced tx h hv (fun gp hg => ⟨by
    rw [hsg]
    exact fits_small hk (hv.1 gp hg).2 (hsmall gp hg), (hneg gp hg).2⟩)
  refine ⟨hout.1, fun hok => ?_⟩
  obtain ⟨_, _, gp, hg, _, _, hne⟩ := hout.2.mp hok
  exact hne (le_antisymm (hneg gp hg).1 (hneg gp hg).2)

theorem minGasPriceLaw_wrapped (h : ctx.isCheckTx = true ∧ ¬ DecCoins.IsZero ctx.minGasPrices)
    (hv : DecCoins.IsValid ctx.minGasPrices) (hs : ¬ tx.gas.toNat < 2 ^ 63) :
    MinGasPriceLaw ctx tx ↔
      (∀ gp ∈ ctx.minGasPrices, (2 ^ 64 - tx.gas.toNat : ℤ) * gp.amount < 10 ^ 18) ∧
      ¬ Enough ctx.minGasPrices tx := by
  obtain ⟨hsg, hk, _⟩ := signedGas_large hs
  constructor
  · intro hlaw
    have hsmall : ∀ gp ∈ ctx.minGasPrices,
        (2 ^ 64 - tx.gas.toNat : ℤ) * gp.amount < 10 ^ 18 := by
      intro gp hg
      by_contra hlarge
      have hpanic := check_panics tx h hg (fun hok => hlarge (by
        rw [hsg] at hok
        exact (ceilFee_neg hk (hv.1 gp hg).2).2.mp hok.2))
      rw [hlaw.noPanic] at hpanic
      cases hpanic
    exact ⟨hsmall, fun hen =>
      (wrapped_rejects h hv hs hsmall).2 ((hlaw.exact h.1 h.2).mpr hen)⟩
  · intro hcond
    obtain ⟨hquiet, hrejects⟩ := wrapped_rejects h hv hs hcond.1
    exact ⟨hquiet, fun _ _ => iff_of_false hrejects hcond.2⟩

/-- without prices only the priority can panic, on a division by gas limit zero -/
theorem minGasPriceLaw_unpriced
    (h : ¬ (ctx.isCheckTx = true ∧ ¬ DecCoins.IsZero ctx.minGasPrices)) :
    MinGasPriceLaw ctx tx ↔ (tx.gas.toNat = 0 → tx.fee = []) := by
  constructor
  · intro hlaw hz
    by_contra hne
    have hp := hlaw.noPanic
    cases hfee : tx.fee with
    | nil => exact hne hfee
    | cons c cs =>
      rw [check_unpriced h, hfee, signedGas_zero hz] at hp
      cases hp
  · intro himp
    refine ⟨?_, fun h1 h2 => absurd ⟨h1, h2⟩ h⟩
    rw [check_unpriced h]
    by_cases hz : tx.gas.toNat = 0
    · rw [himp hz]
      rfl
    · have hne : signedGas tx.gas ≠ 0 := by
        unfold signedGas
        have hlt := tx.gas.toNat_lt
        split <;> omega
      obtain ⟨p, hp⟩ := getTxPriority_of_ne_zero tx.fee hne
      rw [hp]
      rfl

/-- **When the minimum gas price check is exact.** -/
theorem minGasPrice_exact_iff (hv : DecCoins.IsValid ctx.minGasPrices) (hfee : tx.fee.IsValid) :
    MinGasPriceLaw ctx tx ↔ GasInRange ctx tx := by
  unfold GasInRange
  by_cases hcheck : ctx.isCheckTx = true ∧ ¬ DecCoins.IsZero ctx.minGasPrices
  · rw [if_pos hcheck]
    by_cases hz : tx.gas.toNat = 0
    · rw [if_pos hz]
      exact minGasPriceLaw_zero hcheck hv hfee hz
    · rw [if_neg hz]
      by_cases hs : tx.gas.toNat < 2 ^ 63
      · rw [if_pos hs]
        exact minGasPriceLaw_signed hcheck hv hz hs
      · rw [if_neg hs]
        exact minGasPriceLaw_wrapped hcheck hv hs
  · rw [if_neg hcheck]
    exact minGasPriceLaw_unpriced hcheck

/-! ### one node -/

/-- a node that asks for 0.02umec, in `CheckTx` -/
def Context.priced : Context := ⟨1, 0, [], true, [⟨"umec", 20000000000000000⟩], 0⟩

def gasTx (fee : Coins) (gas : UInt64) : FeeTx String := ⟨[], fee, gas, "me1alice", none⟩

theorem minGasPrice_exact_priced : MinGasPriceLaw .priced (gasTx [⟨"umec", 4000⟩] 200000) := by
  refine (minGasPrice_exact_iff (by decide) (by decide)).mpr ?_
  have hcheck : Context.priced.isCheckTx = true ∧ ¬ DecCoins.IsZero Context.priced.minGasPrices := by
    decide
  rw [GasInRange, if_pos hcheck, if_neg (by decide), if_pos (by decide)]
  decide +kernel

/-- a gas limit of `2 ^ 63` makes the check panic, however large the fee; so does a gas limit of
zero at height zero, outside `CheckTx` -/
theorem minGasPrice_panics_large_gas :
    ¬ MinGasPriceLaw .priced (gasTx [⟨"umec", 10 ^ 18⟩] 9223372036854775808) ∧
    ¬ MinGasPriceLaw { Context.first with blockHeight := 0 } (gasTx [⟨"umec", 4000⟩] 0) := by
  constructor
  · intro h
    have hp := h.noPanic
    revert hp
    decide +kernel
  · intro h
    have hp := h.noPanic
    revert hp
    decide +kernel

end

end MeChain
