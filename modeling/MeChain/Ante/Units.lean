import MeChain.Ante.MinGasPrice
import MeChain.Ante.Split
import MeChain.BankProgress

/-!
# The fee that is checked and the fee that is charged

The fee checker sees the fee as the transaction states it; the rest of `AnteHandle` sees it after
`ParseCoinsNormalized` converted every coin, in its place, to the base unit.

* `toBase`, `normal`     the conversion of one coin and of a fee;
* `normalizeCoins`       the conversion as far as decimals go;
* `SameTreatment`        two fees are let through alike in a context and at a gas limit, whatever the
                         state and the transaction;
* `reachesNext_fee`      what a fee that is let through has passed;
* `lonely_accepts`       a state that lets a fee through which can be paid;
* `sameTreatment_iff`    when fees of equal value are treated alike.
-/

set_option linter.unusedSectionVars false

namespace MeChain
open Fallible

/-! ## units -/

theorem Coin.eq_of {c c' : Coin} (hd : c.denom = c'.denom) (ha : c.amount = c'.amount) : c = c' := by
  cases c
  cases c'
  cases hd
  cases ha
  rfl

/-- the units of the chain's coin that `init` registers: `MEDenom` with unit one and `BaseMEDenom`
with unit `10 ^ -MEExponent` -/
structure DenomUnits where
  meDenom : String
  meExponent : Nat
  valid : validDenom meDenom = true
  distinct : meDenom ≠ baseMEDenom

namespace DenomUnits

variable (u : DenomUnits)

/-- a coin in the base unit -/
def toBase (c : Coin) : Coin :=
  if c.denom = u.meDenom then ⟨baseMEDenom, 10 ^ u.meExponent * c.amount⟩ else c

def normal (fee : Coins) : Coins := fee.map u.toBase

/-- every coin, in the base unit, is a decimal of 315 bits -/
def Convertible (fee : Coins) : Prop := ∀ c ∈ fee, Dec.Fits (Dec.ofInt (u.toBase c).amount)

instance (fee : Coins) : Decidable (u.Convertible fee) :=
  inferInstanceAs (Decidable (∀ c ∈ fee, _))

/-- `NormalizeCoins`, position by position -/
def normalizeCoins (fee : Coins) : Res Coins :=
  if u.Convertible fee then .ok (u.normal fee) else goError .invalidCoins "decimal out of range"

/-- the value of a fee, by denomination, in the base unit -/
def value (fee : Coins) (d : String) : ℤ := (u.normal fee).amountOf d

variable {u} {fee fee' : Coins} {c c' : Coin}

theorem normalizeCoins_ok {n : Coins} :
    u.normalizeCoins fee = .ok n ↔ u.Convertible fee ∧ n = u.normal fee := by
  unfold normalizeCoins
  by_cases h : u.Convertible fee
  · simp [h, eq_comm]
  · simp [h, goError]

theorem toBase_pos (h : 0 < c.amount) : 0 < (u.toBase c).amount := by
  unfold toBase
  split
  · positivity
  · exact h

theorem fits_of_convertible (h : u.Convertible fee) (hc : c ∈ fee) :
    SdkInt.Fits (u.toBase c).amount := by
  have hf := h c hc
  have hone : Dec.one = 1000000000000000000 := by decide
  unfold Dec.Fits Dec.maxBitLen Dec.ofInt at hf
  unfold SdkInt.Fits SdkInt.maxBitLen
  rw [hone] at hf
  norm_num at hf ⊢
  omega

/-! ## fees of equal value -/

theorem eq_of_amountOf {cs cs' : Coins} (h : cs.IsValid) (h' : cs'.IsValid)
    (heq : ∀ d, cs.amountOf d = cs'.amountOf d) : cs = cs' := by
  have hsub : ∀ {a b : Coins}, a.IsValid → b.IsValid → (∀ d, a.amountOf d = b.amountOf d) →
      ∀ c ∈ a, c ∈ b := by
    intro a b ha hb hab c hc
    have hamount := Coins.amountOf_of_mem (List.pairwise_map.mpr (BankState.denoms_ne ha)) hc
    have hpos := (ha.1 c hc).2
    have hmem : c.denom ∈ b.map Coin.denom := by
      by_contra hnot
      rw [hab, Coins.amountOf_eq_zero hnot] at hamount
      omega
    obtain ⟨x, hx, hd⟩ := List.mem_map.mp hmem
    have hx' := Coins.amountOf_of_mem (List.pairwise_map.mpr (BankState.denoms_ne hb)) hx
    rw [hd, ← hab, hamount] at hx'
    exact Coin.eq_of hd hx'.symm ▸ hx
  refine List.Pairwise.eq_of_mem_iff h.2 h'.2 (fun c => ⟨hsub h h' heq c, hsub h' h ?_ c⟩)
  exact fun d => (heq d).symm

theorem nil_iff_of_normal (h : u.normal fee = u.normal fee') : fee = [] ↔ fee' = [] := by
  unfold normal at h
  rw [← List.map_eq_nil_iff (f := u.toBase), h, List.map_eq_nil_iff]

/-- a fee that no state can pay: a coin is too large for a decimal, or too small for the split -/
def Unpayable (u : DenomUnits) (fee : Coins) : Prop :=
  ¬ u.Convertible fee ∨ ∃ c ∈ u.normal fee, c.amount < 10

instance (u : DenomUnits) (fee : Coins) : Decidable (u.Unpayable fee) :=
  inferInstanceAs (Decidable (_ ∨ _))

theorem convertible_of_value (hfee : fee.IsValid) (hv : (u.normal fee').IsValid)
    (heq : ∀ d, u.value fee d = u.value fee' d) (h : u.Convertible fee') : u.Convertible fee := by
  intro c hc
  have hmem : u.toBase c ∈ u.normal fee := List.mem_map_of_mem hc
  have hpos : ∀ x ∈ u.normal fee, 0 ≤ x.amount := by
    intro x hx
    obtain ⟨y, hy, rfl⟩ := List.mem_map.mp hx
    exact (toBase_pos (hfee.1 y hy).2).le
  have hle : (u.toBase c).amount ≤ u.value fee (u.toBase c).denom :=
    Coins.le_amountOf hpos hmem
  have hc0 := hpos _ hmem
  have hin : (u.toBase c).denom ∈ (u.normal fee').map Coin.denom := by
    by_contra hnot
    have hzero : u.value fee' (u.toBase c).denom = 0 := Coins.amountOf_eq_zero hnot
    rw [heq, hzero] at hle
    have hc1 := toBase_pos (u := u) (hfee.1 c hc).2
    omega
  obtain ⟨x, hx, hd⟩ := List.mem_map.mp hin
  obtain ⟨y, hy, rfl⟩ := List.mem_map.mp hx
  have hamount : u.value fee' (u.toBase y).denom = (u.toBase y).amount :=
    Coins.amountOf_of_mem (List.pairwise_map.mpr (BankState.denoms_ne hv)) hx
  rw [heq, ← hd, hamount] at hle
  have hfit := h y hy
  have hone : (0 : ℤ) < Dec.one := by decide
  unfold Dec.Fits Dec.ofInt at *
  have hmul : (u.toBase c).amount * Dec.one ≤ (u.toBase y).amount * Dec.one :=
    Int.mul_le_mul_of_nonneg_right hle hone.le
  have hmul0 : 0 ≤ (u.toBase c).amount * Dec.one := Int.mul_nonneg hc0 hone.le
  omega

/-- fees of one value have one normal form, as soon as the normal forms are valid -/
theorem normal_eq_of_value (hfee' : fee'.IsValid)
    (heq : ∀ d, u.value fee d = u.value fee' d)
    (hv : u.Convertible fee → (u.normal fee).IsValid)
    (hv' : u.Convertible fee' → (u.normal fee').IsValid) (h : u.Convertible fee) :
    u.Convertible fee' ∧ u.normal fee = u.normal fee' := by
  have hconv' : u.Convertible fee' :=
    convertible_of_value hfee' (hv h) (fun d => (heq d).symm) h
  exact ⟨hconv', eq_of_amountOf (hv h) (hv' hconv') heq⟩

/-- whether a fee can be paid depends on its value only -/
theorem unpayable_of_value (hfee' : fee'.IsValid)
    (heq : ∀ d, u.value fee d = u.value fee' d)
    (hv : u.Convertible fee → (u.normal fee).IsValid)
    (hv' : u.Convertible fee' → (u.normal fee').IsValid) (h : u.Unpayable fee') :
    u.Unpayable fee := by
  by_contra hpay
  have hconv : u.Convertible fee := by
    by_contra hno
    exact hpay (Or.inl hno)
  obtain ⟨hconv', hn⟩ := normal_eq_of_value hfee' heq hv hv' hconv
  rcases h with hno | ⟨c, hc, hlt⟩
  · exact hno hconv'
  · exact hpay (Or.inr ⟨c, hn ▸ hc, hlt⟩)

end DenomUnits

/-! ## two fees -/

/-- `NewDeductFeeDecorator`: without a fee checker of its own it takes the minimum gas price check -/
def newDeductFeeDecorator {Addr G : Type} [SdkAddress Addr]
    (fk : Option (FeegrantKeeper Addr G)) (vk : Option (StakingKeeper Addr))
    (tfc : Option (Context → App Addr → Tx Addr → Res (Coins × ℤ)))
    (wk : Option (ViewKeeper Addr)) : DeductFeeDecorator Addr G where
  feegrantKeeper := fk
  stakingKeeper := vk
  txFeeChecker := tfc.getD fun ctx _ tx => checkTxFeeWithValidatorMinGasPrices ctx tx
  wasmKeeper := wk

namespace DeductFeeDecorator

variable {Addr G : Type} [SdkAddress Addr] [DecidableEq Addr]

/-- Two fees that are interchangeable in a context and at a gas limit: in every state and transaction
that pays, with fees paid through the bank, both reach the next handler with the same priority, debits
and grants, or neither does; and what they are converted to is a valid coin list. -/
structure SameTreatment (Addr G : Type) [SdkAddress Addr] [DecidableEq Addr]
    (parse : String → Res Coins) (ctx : Context) (gas : UInt64) (fee fee' : Coins) : Prop where
  outcome : ∀ (fk : Option (FeegrantKeeper Addr G)) (sk : StakingKeeper Addr)
    (wk : Option (ViewKeeper Addr)) (s : AnteState Addr G) (tx : FeeTx Addr),
    sk.feeToReceivers = App.inputOutputCoins → tx.gas = gas →
    freeGasLoop (isAdmin sk s.app tx.feePayer) tx.msgs = false → ∀ ctx' s',
    (ReachesNext parse (newDeductFeeDecorator fk (some sk) none wk) ctx s
        { tx with fee := fee } false ctx' s' ↔
      ReachesNext parse (newDeductFeeDecorator fk (some sk) none wk) ctx s
        { tx with fee := fee' } false ctx' s')
  valid : ∀ n, parse fee.str = .ok n → n.IsValid
  valid' : ∀ n, parse fee'.str = .ok n → n.IsValid

variable {parse : String → Res Coins} {u : DenomUnits} {ctx : Context} {gas : UInt64}
  {fee fee' : Coins}

theorem signedGas_eq_zero : signedGas gas = 0 ↔ gas = 0 := by
  have hlt := gas.toNat_lt
  rw [← UInt64.toNat_inj, show (0 : UInt64).toNat = 0 from rfl]
  unfold signedGas
  split <;> omega

/-- **What a fee that is let through has passed**: the prices of the node and the priority, which see
it as it is sent. -/
theorem reachesNext_fee {fk : Option (FeegrantKeeper Addr G)} {sk : StakingKeeper Addr}
    {wk : Option (ViewKeeper Addr)} {s s' : AnteState Addr G} (tx : FeeTx Addr) (fee : Coins)
    {ctx' : Context} (hpays : freeGasLoop (isAdmin sk s.app tx.feePayer) tx.msgs = false)
    (h : ReachesNext parse (newDeductFeeDecorator fk (some sk) none wk) ctx s
      { tx with fee := fee } false ctx' s') :
    Admits ctx tx.gas fee ∧ (tx.gas = 0 → fee = []) ∧
      ctx'.priority = leastDeciding (fee.map (offer (signedGas tx.gas))) := by
  obtain ⟨sk', hsk', _, hr⟩ := reachesNext_iff.mp h
  obtain rfl : sk = sk' := Option.some.inj hsk'
  rw [if_neg (by rw [hpays]; simp)] at hr
  obtain ⟨⟨p, s1⟩, hc, rfl, _⟩ := hr
  obtain ⟨checked, n, payer, s2, hchecked, _⟩ := chargeFee_ok hc
  obtain ⟨hadmits, hgas, heq⟩ := checkTxFee_ok.mp hchecked
  exact ⟨hadmits, fun h0 => hgas (signedGas_eq_zero.mpr h0), congrArg Prod.snd heq⟩

/-- a fee that passes both is charged as another that passes them with the same priority and converts
to the same coins -/
theorem reachesNext_swap {fk : Option (FeegrantKeeper Addr G)} {sk : StakingKeeper Addr}
    {wk : Option (ViewKeeper Addr)} {s s' : AnteState Addr G} {tx : FeeTx Addr} {ctx' : Context}
    (hparse : parse fee'.str = parse fee.str)
    (hpays : freeGasLoop (isAdmin sk s.app tx.feePayer) tx.msgs = false)
    (hadmits : Admits ctx tx.gas fee') (hgas : tx.gas = 0 → fee' = [])
    (hprio : leastDeciding (fee'.map (offer (signedGas tx.gas)))
      = leastDeciding (fee.map (offer (signedGas tx.gas))))
    (h : ReachesNext parse (newDeductFeeDecorator fk (some sk) none wk) ctx s
      { tx with fee := fee } false ctx' s') :
    ReachesNext parse (newDeductFeeDecorator fk (some sk) none wk) ctx s
      { tx with fee := fee' } false ctx' s' := by
  obtain ⟨sk', hsk', hrej, hr⟩ := reachesNext_iff.mp h
  obtain rfl : sk = sk' := Option.some.inj hsk'
  have hnot : ¬ freeGasLoop (isAdmin sk s.app tx.feePayer) tx.msgs = true := by
    rw [hpays]
    simp
  rw [if_neg hnot] at hr
  obtain ⟨⟨p, s1⟩, hc, rfl, rfl⟩ := hr
  obtain ⟨checked, n, payer, s2, hchecked, hn, hfrom, hpay⟩ := chargeFee_ok hc
  have heq : p = leastDeciding (fee.map (offer (signedGas tx.gas))) :=
    congrArg Prod.snd (checkTxFee_ok.mp hchecked).2.2
  have hchecked' : checkTxFeeWithValidatorMinGasPrices ctx (.feeTx { tx with fee := fee' })
      = .ok (fee', p) := by
    refine checkTxFee_ok.mpr ⟨hadmits, fun h0 => hgas (signedGas_eq_zero.mp h0), ?_⟩
    rw [heq, ← hprio]
  refine reachesNext_iff.mpr ⟨sk, rfl, hrej, ?_⟩
  rw [if_neg hnot]
  refine ⟨(p, _), bind_eq_ok.mpr ⟨_, hchecked', bind_eq_ok.mpr ⟨n, wrap_ok.mpr (hparse.trans hn),
    bind_eq_ok.mpr ⟨(payer, s2), hfrom, ?_⟩⟩⟩, rfl, rfl⟩
  rcases hpay with ⟨hz, rfl⟩ | ⟨hz, hpay⟩
  · exact if_pos hz
  · rw [if_neg hz]
    exact bind_eq_ok.mpr ⟨_, hpay, rfl⟩

/-- a fee that was charged was converted, and no coin of it is below ten -/
theorem not_unpayable {dfd : DeductFeeDecorator Addr G} {sk : StakingKeeper Addr} {ctx' : Context}
    {s s' : AnteState Addr G} {tx : FeeTx Addr} (hfee : fee.IsValid)
    (hparse : parse fee.str = u.normalizeCoins fee) (hsk : dfd.stakingKeeper = some sk)
    (hpays : freeGasLoop (isAdmin sk s.app tx.feePayer) tx.msgs = false)
    (h : ReachesNext parse dfd ctx s { tx with fee := fee } false ctx' s') :
    ¬ u.Unpayable fee := by
  obtain ⟨sk', hsk', _, hr⟩ := reachesNext_iff.mp h
  rw [hsk] at hsk'
  cases hsk'
  rw [if_neg (by rw [hpays]; simp)] at hr
  obtain ⟨⟨p, s1⟩, hc, _, _⟩ := hr
  obtain ⟨checked, n, payer, s2, _, hn, _, hpay⟩ := chargeFee_ok hc
  rw [show ({ tx with fee := fee } : FeeTx Addr).fee = fee from rfl, hparse] at hn
  obtain ⟨hconv, rfl⟩ := DenomUnits.normalizeCoins_ok.mp hn
  rintro (hno | ⟨c, hc, hlt⟩)
  · exact hno hconv
  · rcases hpay with ⟨hz, _⟩ | ⟨_, hpay⟩
    · obtain ⟨x, hx, rfl⟩ := List.mem_map.mp hc
      have hpos := DenomUnits.toBase_pos (u := u) (hfee.1 x hx).2
      rw [hz _ hc] at hpos
      omega
    · obtain ⟨_, parts, _, _, hsplit, _⟩ := payFee_ok hpay
      have hten := ten_le_of_splitFee hsplit c hc
      omega

/-! ### a chain with one account -/

/-- a staking keeper that names one address everywhere, and pays through the bank -/
def lonelyStaking (a : Addr) : StakingKeeper Addr where
  getMeid _ _ := none
  getValOwnerAddress _ _ := goError .other "meid not found"
  getDevOperatorAddress _ := SdkAddress.str a
  getProposerOwnerAddress _ _ := .ok (SdkAddress.str a)
  getGlobalAdminAddress _ := SdkAddress.str a ++ "."
  getMeidAdminAddress _ := SdkAddress.str a ++ "."
  getGlobalAdminFeePoolAddr _ := a
  feeToReceivers := App.inputOutputCoins

/-- one account that holds some coins -/
def holding (a : Addr) (n : Coins) (h : (n.map Coin.denom).Nodup) : BankState Addr where
  balances := ⟨n.map fun c => ⟨a, c.denom, c.amount⟩, by
    rw [List.map_map]
    exact (List.pairwise_map.mp h).map _ (fun x y hxy he => hxy (congrArg Prod.snd he))⟩
  supply := .empty

/-- a chain with that account only, under no account number -/
def lonelyApp (a : Addr) (n : Coins) (h : (n.map Coin.denom).Nodup) : App Addr :=
  { App.empty with bank := holding a n h }

/-- a transfer paid by the account -/
def lonelyTx (a : Addr) (gas : UInt64) (fee : Coins) : FeeTx Addr :=
  ⟨[.other "/cosmos.bank.v1beta1.MsgSend"], fee, gas, a, none⟩

theorem holding_wellFormed {a : Addr} {n : Coins} (hv : n.IsValid) (h : (n.map Coin.denom).Nodup) :
    (holding a n h).WellFormed := by
  constructor
  · intro r hr
    obtain ⟨c, hc, rfl⟩ := List.mem_map.mp hr
    exact hv.1 c hc
  · intro d
    exact Nat.two_pow_pos _

theorem holding_balance {a : Addr} {n : Coins} {h : (n.map Coin.denom).Nodup} {c : Coin}
    (hc : c ∈ n) : (holding a n h).balance a c.denom = c.amount := by
  have hrow : (⟨a, c.denom, c.amount⟩ : Balance Addr) ∈ (holding a n h).balances.rows :=
    List.mem_map_of_mem (f := fun c : Coin => (⟨a, c.denom, c.amount⟩ : Balance Addr)) hc
  exact Table.valueAt_some (f := Balance.amount) (Table.mem_rows_iff.mp hrow)

theorem holding_total {a : Addr} {n : Coins} {h : (n.map Coin.denom).Nodup} (d : String) :
    (holding a n h).total d = n.amountOf d := by
  unfold BankState.total Table.sum holding Coins.amountOf
  rw [List.map_map]
  rfl

/-- the multi-send of the four parts, all to the sender -/
theorem lonely_send (ctx : Context) (a : Addr) {n : Coins} {parts : FeeParts Coins}
    (hv : n.IsValid) (hn : (n.map Coin.denom).Nodup) (hne : n ≠ [])
    (hfits : ∀ c ∈ n, SdkInt.Fits c.amount) (hparts : splitFee n = .ok parts)
    (hvalid : ∀ cs ∈ [parts.fee10, parts.fee20, parts.fee30, parts.fee40],
      Coins.IsValid cs ∧ cs ≠ []) :
    ∃ app, App.inputOutputCoins ctx (lonelyApp a n hn) [⟨SdkAddress.str a, n⟩]
      [⟨SdkAddress.str a, parts.fee10⟩, ⟨SdkAddress.str a, parts.fee20⟩,
        ⟨SdkAddress.str a, parts.fee30⟩, ⟨SdkAddress.str a, parts.fee40⟩] = .ok app := by
  have ha : App.bech32 (SdkAddress.str a) = .ok a := by
    unfold App.bech32
    rw [SdkAddress.fromBech32_str]
  have hroom : ∀ d, SdkInt.Fits (n.amountOf d) := by
    intro d
    by_cases hd : d ∈ n.map Coin.denom
    · obtain ⟨c, hc, rfl⟩ := List.mem_map.mp hd
      rw [Coins.amountOf_of_mem hn hc]
      exact hfits c hc
    · rw [Coins.amountOf_eq_zero hd]
      exact Nat.two_pow_pos _
  have htotal : ∀ d, SdkInt.Fits ((lonelyApp a n hn).bank.total d) := by
    intro d
    rw [show (lonelyApp a n hn).bank.total d = n.amountOf d from
      holding_total (h := hn) d]
    exact hroom d
  have hfunds : ∀ c ∈ n, c.amount ≤ (lonelyApp a n hn).spendableCoins ctx a c.denom := by
    intro c hc
    rw [App.spendableCoins_of_unlocked rfl]
    exact (holding_balance (h := hn) hc).ge
  have hwell : (lonelyApp a n hn).bank.WellFormed := holding_wellFormed hv hn
  refine App.inputOutputCoins_total hwell htotal hv hne hfunds
    (fun io hio => ?_) (fun d => ?_)
  · simp only [List.mem_cons, List.not_mem_nil, or_false] at hio
    rcases hio with rfl | rfl | rfl | rfl
    · exact ⟨hvalid _ (by simp), a, ha⟩
    · exact ⟨hvalid _ (by simp), a, ha⟩
    · exact ⟨hvalid _ (by simp), a, ha⟩
    · exact ⟨hvalid _ (by simp), a, ha⟩
  · have htot := splitFee_total hparts d
    simp only [App.ioTotal, List.map_cons, List.map_nil, List.sum_cons, List.sum_nil]
    omega

theorem lonely_pays (a : Addr) (s : App Addr) :
    freeGasLoop (isAdmin (lonelyStaking a) s a) [.other "/cosmos.bank.v1beta1.MsgSend"] = false := by
  have hadmin : SdkAddress.str a ≠ SdkAddress.str a ++ "." := by
    intro h
    have hlen := congrArg String.length h
    have hdot : ".".length = 1 := rfl
    rw [String.length_append] at hlen
    omega
  have hno : isAdmin (lonelyStaking a) s a = false := by
    simp [isAdmin, lonelyStaking, hadmin]
  rw [hno]
  rfl

/-- **A fee that can be paid and that the node admits** reaches the next handler. -/
theorem lonely_accepts [Inhabited G] (hne : fee ≠ [])
    (hv : (u.normal fee).IsValid) (hpay : ¬ u.Unpayable fee)
    (hparse : parse fee.str = u.normalizeCoins fee) (hadmits : Admits ctx gas fee) (hgas : gas ≠ 0)
    (a : Addr) (hn : ((u.normal fee).map Coin.denom).Nodup) :
    ∃ ctx' s', ReachesNext parse (newDeductFeeDecorator none (some (lonelyStaking a)) none none)
      ctx ⟨lonelyApp a (u.normal fee) hn, (default : G), []⟩ (lonelyTx a gas fee) false
      ctx' s' := by
  have hconv : u.Convertible fee := by
    by_contra h
    exact hpay (Or.inl h)
  have hten : ∀ c ∈ u.normal fee, 10 ≤ c.amount := by
    intro c hc
    by_contra h
    exact hpay (Or.inr ⟨c, hc, by omega⟩)
  have hfits : ∀ c ∈ u.normal fee, SdkInt.Fits c.amount := by
    intro c hc
    obtain ⟨x, hx, rfl⟩ := List.mem_map.mp hc
    exact DenomUnits.fits_of_convertible hconv hx
  have hchecked := checkTxFee_ok.mpr (⟨hadmits, fun h0 => absurd (signedGas_eq_zero.mp h0) hgas, rfl⟩ :
    Admits ctx (lonelyTx a gas fee).gas (lonelyTx a gas fee).fee ∧ _ ∧ _)
  obtain ⟨m, hm⟩ := List.exists_mem_of_ne_nil _ hne
  have hmem : u.toBase m ∈ u.normal fee := List.mem_map_of_mem hm
  have hne : u.normal fee ≠ [] := List.ne_nil_of_mem hmem
  have hnz : ¬ (u.normal fee).IsZero := by
    intro hz
    have h10 := hten _ hmem
    rw [hz _ hmem] at h10
    omega
  obtain ⟨parts, hparts, hvalid⟩ := splitFee_succeeds hv (fun f hf => ⟨hten f hf, hfits f hf⟩)
  obtain ⟨app, happ⟩ := lonely_send ctx a hv hn hne hfits hparts
    (fun cs hcs => ⟨(hvalid cs hcs).1, fun h => hne ((hvalid cs hcs).2 h)⟩)
  have hcharge : ∃ r, chargeFee parse (newDeductFeeDecorator none (some (lonelyStaking a)) none none)
      (lonelyStaking a) ctx ⟨lonelyApp a (u.normal fee) hn, (default : G), []⟩
      (lonelyTx a gas fee) = .ok r := by
    have hpaid : ∃ t, payFee (newDeductFeeDecorator none (some (lonelyStaking a)) none none)
        (lonelyStaking a) ctx
        ⟨lonelyApp a (u.normal fee) hn, (default : G), [.txFeeChecker]⟩ (lonelyTx a gas fee)
        (u.normal fee) a = .ok t := by
      unfold payFee
      rw [if_neg (not_not.mpr hv), hparts]
      exact ⟨_, bind_eq_ok.mpr ⟨parts, rfl, bind_eq_ok.mpr ⟨_, rfl,
        bind_eq_ok.mpr ⟨app, happ, rfl⟩⟩⟩⟩
    obtain ⟨t, ht⟩ := hpaid
    have hwrap : wrap "" (parse (lonelyTx a gas fee).fee.str) = .ok (u.normal fee) := by
      rw [wrap_ok]
      exact hparse.trans (DenomUnits.normalizeCoins_ok.mpr ⟨hconv, rfl⟩)
    refine ⟨(leastDeciding (fee.map (offer (signedGas gas))), t), bind_eq_ok.mpr ⟨_, hchecked,
      bind_eq_ok.mpr ⟨_, hwrap, bind_eq_ok.mpr ⟨(a, _), rfl, ?_⟩⟩⟩⟩
    rw [if_neg hnz]
    exact bind_eq_ok.mpr ⟨t, ht, rfl⟩
  obtain ⟨r, hr⟩ := hcharge
  refine ⟨{ ctx with priority := r.1 }, r.2,
    reachesNext_iff.mpr ⟨lonelyStaking a, rfl, fun hrej => hgas hrej.2, ?_⟩⟩
  have hpays : freeGasLoop (isAdmin (lonelyStaking a) (lonelyApp a (u.normal fee) hn)
      (lonelyTx a gas fee).feePayer) (lonelyTx a gas fee).msgs = false := lonely_pays a _
  rw [if_neg (by rw [hpays]; simp)]
  exact ⟨r, hr, rfl, rfl⟩

theorem SameTreatment.symm (h : SameTreatment Addr G parse ctx gas fee fee') :
    SameTreatment Addr G parse ctx gas fee' fee where
  outcome fk sk wk s tx hsend hgas hpays ctx' s' :=
    (h.outcome fk sk wk s tx hsend hgas hpays ctx' s').symm
  valid := h.valid'
  valid' := h.valid

/-- a fee that is treated as one that can be paid and is admitted is admitted as well, with the same
priority -/
theorem SameTreatment.admits [Inhabited G] (h : SameTreatment Addr G parse ctx gas fee fee')
    (hne : fee ≠ []) (hv : (u.normal fee).IsValid) (hpay : ¬ u.Unpayable fee)
    (hparse : parse fee.str = u.normalizeCoins fee) (hadmits : Admits ctx gas fee) (hgas : gas ≠ 0) :
    Admits ctx gas fee' ∧ leastDeciding (fee.map (offer (signedGas gas)))
      = leastDeciding (fee'.map (offer (signedGas gas))) := by
  let a : Addr := SdkAddress.newModuleAddress ""
  have hn : ((u.normal fee).map Coin.denom).Nodup :=
    List.pairwise_map.mpr (BankState.denoms_ne hv)
  obtain ⟨ctx', s', hr⟩ := lonely_accepts (G := G) hne hv hpay hparse hadmits hgas a hn
  have hr' := (h.outcome none (lonelyStaking a) none
    ⟨lonelyApp a (u.normal fee) hn, (default : G), []⟩ (lonelyTx a gas fee) rfl rfl
    (lonely_pays a _) ctx' s').mp hr
  obtain ⟨_, _, hprio⟩ := reachesNext_fee (lonelyTx a gas fee) fee (lonely_pays a _) hr
  obtain ⟨hadmits', _, hprio'⟩ :=
    reachesNext_fee (lonelyTx a gas fee) fee' (lonely_pays a _) hr'
  exact ⟨hadmits', hprio.symm.trans hprio'⟩

/-- The node's prices and the priority do not tell two fees apart at a gas limit: it admits both or
neither, and if it does the least of the gas prices that decide the priority is the same. -/
structure AskedAlike (ctx : Context) (gas : UInt64) (fee fee' : Coins) : Prop where
  admits : Admits ctx gas fee ↔ Admits ctx gas fee'
  priority : Admits ctx gas fee → leastDeciding (fee.map (offer (signedGas gas)))
    = leastDeciding (fee'.map (offer (signedGas gas)))

theorem AskedAlike.symm (h : AskedAlike ctx gas fee fee') : AskedAlike ctx gas fee' fee :=
  ⟨h.admits.symm, fun hadmits => (h.priority (h.admits.mpr hadmits)).symm⟩

theorem AskedAlike.reaches {fk : Option (FeegrantKeeper Addr G)} {sk : StakingKeeper Addr}
    {wk : Option (ViewKeeper Addr)} {s s' : AnteState Addr G} {tx : FeeTx Addr} {ctx' : Context}
    (h : AskedAlike ctx tx.gas fee fee') (hempty : fee = [] → fee' = [])
    (hparse : parse fee'.str = parse fee.str)
    (hpays : freeGasLoop (isAdmin sk s.app tx.feePayer) tx.msgs = false)
    (hnext : ReachesNext parse (newDeductFeeDecorator fk (some sk) none wk) ctx s
      { tx with fee := fee } false ctx' s') :
    ReachesNext parse (newDeductFeeDecorator fk (some sk) none wk) ctx s
      { tx with fee := fee' } false ctx' s' := by
  obtain ⟨hadmits, hgas, _⟩ := reachesNext_fee tx _ hpays hnext
  exact reachesNext_swap hparse hpays (h.admits.mp hadmits) (fun h0 => hempty (hgas h0))
    (h.priority hadmits).symm hnext

/-- **Two valid fees of equal value in base units are treated alike exactly when** their normal forms
are valid and they are the same list, or no account can pay them, or the gas limit is zero, or the
prices of the node and the priority, at this gas limit, come out the same for both. -/
theorem sameTreatment_iff [Inhabited G] (hfee : fee.IsValid) (hfee' : fee'.IsValid)
    (heq : ∀ d, u.value fee d = u.value fee' d)
    (hparse : parse fee.str = u.normalizeCoins fee)
    (hparse' : parse fee'.str = u.normalizeCoins fee') :
    SameTreatment Addr G parse ctx gas fee fee' ↔
      (u.Convertible fee → (u.normal fee).IsValid) ∧
      (u.Convertible fee' → (u.normal fee').IsValid) ∧
      (fee = fee' ∨ u.Unpayable fee ∨ gas = 0 ∨ AskedAlike ctx gas fee fee') := by
  constructor
  · intro hsame
    have hv : u.Convertible fee → (u.normal fee).IsValid := fun h =>
      hsame.valid _ (hparse.trans (DenomUnits.normalizeCoins_ok.mpr ⟨h, rfl⟩))
    have hv' : u.Convertible fee' → (u.normal fee').IsValid := fun h =>
      hsame.valid' _ (hparse'.trans (DenomUnits.normalizeCoins_ok.mpr ⟨h, rfl⟩))
    refine ⟨hv, hv', ?_⟩
    by_cases hsamefee : fee = fee'
    · exact Or.inl hsamefee
    by_cases hpay : u.Unpayable fee
    · exact Or.inr (Or.inl hpay)
    by_cases hgas : gas = 0
    · exact Or.inr (Or.inr (Or.inl hgas))
    have hpay' : ¬ u.Unpayable fee' := fun h =>
      hpay (DenomUnits.unpayable_of_value hfee' heq hv hv' h)
    have hconv : u.Convertible fee := by
      by_contra h
      exact hpay (Or.inl h)
    obtain ⟨hconv', hn⟩ := DenomUnits.normal_eq_of_value hfee' heq hv hv' hconv
    have hempty := DenomUnits.nil_iff_of_normal hn
    have hne : fee ≠ [] := fun h => hsamefee (h.trans (hempty.mp h).symm)
    have hne' : fee' ≠ [] := fun h => hne (hempty.mpr h)
    refine Or.inr (Or.inr (Or.inr ⟨⟨fun h => ?_, fun h => ?_⟩, fun h => ?_⟩))
    · exact (hsame.admits hne (hv hconv) hpay hparse h hgas).1
    · exact (hsame.symm.admits hne' (hv' hconv') hpay' hparse' h hgas).1
    · exact (hsame.admits hne (hv hconv) hpay hparse h hgas).2
  · rintro ⟨hv, hv', hcase⟩
    refine ⟨fun fk sk wk s tx _ hgas hpays ctx' s' => ?_, fun n hn => ?_, fun n hn => ?_⟩
    · subst hgas
      by_cases hpay : u.Unpayable fee
      · have hpay' : u.Unpayable fee' :=
          DenomUnits.unpayable_of_value hfee (fun d => (heq d).symm) hv' hv hpay
        exact iff_of_false (fun h => not_unpayable hfee hparse rfl hpays h hpay)
          (fun h => not_unpayable hfee' hparse' rfl hpays h hpay')
      have hconv : u.Convertible fee := by
        by_contra h
        exact hpay (Or.inl h)
      obtain ⟨hconv', hn⟩ := DenomUnits.normal_eq_of_value hfee' heq hv hv' hconv
      have hsameparse : parse fee.str = parse fee'.str := by
        rw [hparse, hparse', DenomUnits.normalizeCoins_ok.mpr ⟨hconv, rfl⟩,
          DenomUnits.normalizeCoins_ok.mpr ⟨hconv', rfl⟩, hn]
      have hempty := DenomUnits.nil_iff_of_normal hn
      rcases hcase with rfl | hcase | hzero | halike
      · exact Iff.rfl
      · exact absurd hcase hpay
      · -- no fee but the empty one passes a gas limit of zero
        constructor
        · intro h
          have hnil := (reachesNext_fee tx _ hpays h).2.1 hzero
          rw [hempty.mp hnil, ← hnil]
          exact h
        · intro h
          have hnil := (reachesNext_fee tx _ hpays h).2.1 hzero
          rw [hempty.mpr hnil, ← hnil]
          exact h
      · exact ⟨halike.reaches hempty.mp hsameparse.symm hpays,
          halike.symm.reaches hempty.mpr hsameparse hpays⟩
    · rw [hparse] at hn
      obtain ⟨hc, rfl⟩ := DenomUnits.normalizeCoins_ok.mp hn
      exact hv hc
    · rw [hparse'] at hn
      obtain ⟨hc, rfl⟩ := DenomUnits.normalizeCoins_ok.mp hn
      exact hv' hc

/-- MEC and umec, eight digits apart -/
def mecUnits : DenomUnits := ⟨"MEC", 8, by decide, by decide⟩

/-- a fee in MEC that is converted in its place -/
def mecParse : String → Res Coins := fun str =>
  if str = "1MEC" then .ok [⟨"umec", 100000000⟩]
  else if str = "100000000umec" then .ok [⟨"umec", 100000000⟩]
  else if str = "1MEC,50zinc" then .ok [⟨"umec", 100000000⟩, ⟨"zinc", 50⟩]
  else if str = "100000000umec,50zinc" then .ok [⟨"umec", 100000000⟩, ⟨"zinc", 50⟩]
  else goError .invalidCoins "invalid decimal coin expression"

theorem value_eq {u : DenomUnits} {fee fee' : Coins} (h : u.normal fee = u.normal fee')
    (d : String) : u.value fee d = u.value fee' d :=
  congrArg (fun n : Coins => n.amountOf d) h

/-- a node that has a price for one denomination only -/
def pricingContext (denom : String) (price : Dec) : Context := ⟨1, 0, [], true, [⟨denom, price⟩], 0⟩

theorem admits_zinc {fee : Coins} (h : (⟨"zinc", 50⟩ : Coin) ∈ fee) :
    Admits (pricingContext "zinc" 100000000000000000) 10 fee := by
  intro _ _
  refine ⟨fun gp hgp => ?_, _, h, by decide +kernel⟩
  rw [List.mem_singleton.mp hgp]
  decide +kernel

/-- one MEC or as much umec beside fifty zinc, at a gas limit of ten: a node with a price for zinc
treats them alike, and so does every block -/
theorem sameTreatment_zinc :
    SameTreatment String Unit mecParse (pricingContext "zinc" 100000000000000000) 10
      [⟨"MEC", 1⟩, ⟨"zinc", 50⟩] [⟨"umec", 100000000⟩, ⟨"zinc", 50⟩] ∧
    SameTreatment String Unit mecParse .first 10
      [⟨"MEC", 1⟩, ⟨"zinc", 50⟩] [⟨"umec", 100000000⟩, ⟨"zinc", 50⟩] := by
  have hpriority : leastDeciding (([⟨"MEC", 1⟩, ⟨"zinc", 50⟩] : Coins).map (offer (signedGas 10)))
      = leastDeciding (([⟨"umec", 100000000⟩, ⟨"zinc", 50⟩] : Coins).map (offer (signedGas 10))) := by
    decide
  have hnormal : ∀ d, mecUnits.value [⟨"MEC", 1⟩, ⟨"zinc", 50⟩] d
      = mecUnits.value [⟨"umec", 100000000⟩, ⟨"zinc", 50⟩] d := value_eq (by decide)
  constructor
  · exact (sameTreatment_iff (by decide) (by decide) hnormal (by decide +kernel)
      (by decide +kernel)).mpr ⟨fun _ => by decide, fun _ => by decide,
        Or.inr (Or.inr (Or.inr ⟨iff_of_true (admits_zinc (by simp)) (admits_zinc (by simp)),
          fun _ => hpriority⟩))⟩
  · have hblock : ∀ fee, Admits Context.first 10 fee := fun _ hcheck => absurd hcheck (by decide)
    exact (sameTreatment_iff (by decide) (by decide) hnormal (by decide +kernel)
      (by decide +kernel)).mpr ⟨fun _ => by decide, fun _ => by decide,
        Or.inr (Or.inr (Or.inr ⟨iff_of_true (hblock _) (hblock _), fun _ => hpriority⟩))⟩

/-- one MEC and as much umec have the same value, and a node that has a price in MEC tells them apart;
and the normal form of a valid fee with MEC and another coin need not be sorted -/
theorem fees_of_one_value_told_apart :
    (mecUnits.normal [⟨"MEC", 1⟩] = mecUnits.normal [⟨"umec", 100000000⟩] ∧
      ¬ SameTreatment String Unit mecParse (pricingContext "MEC" 1) 1 [⟨"MEC", 1⟩]
        [⟨"umec", 100000000⟩]) ∧
    Coins.IsValid [⟨"MEC", 1⟩, ⟨"atom", 100⟩] ∧
      ¬ Coins.IsValid (mecUnits.normal [⟨"MEC", 1⟩, ⟨"atom", 100⟩]) := by
  refine ⟨⟨by decide, fun hsame => ?_⟩, by decide, by decide⟩
  have hadmits : Admits (pricingContext "MEC" 1) 1 [⟨"MEC", 1⟩] := by
    intro _ _
    refine ⟨fun gp hgp => ?_, _, List.mem_singleton_self _, by decide +kernel⟩
    rw [List.mem_singleton.mp hgp]
    decide +kernel
  obtain ⟨hadmits', _⟩ := hsame.admits (u := mecUnits) (List.cons_ne_nil _ _) (by decide)
    (by decide +kernel) (by decide +kernel) hadmits (by decide)
  obtain ⟨_, c, hc, _, hne⟩ := hadmits' rfl (by decide)
  rw [List.mem_singleton.mp hc] at hne
  exact hne (by decide +kernel)

end DeductFeeDecorator

end MeChain
