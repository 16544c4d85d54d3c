import MeChain.Ante.Charge

/-!
# When the split of a fee succeeds

* `share_eq`        a tenth, two tenths, three tenths of an amount, rounded down;
* `splitCoin_eq`    a coin of ten or more splits into its `fairParts`, which are positive;
* `splitFee_eq`, `splitFee_error`   a valid fee splits into the parts of its coins, unless a coin is
                    below ten;
* `FairSplit`       four valid lists that a bank transfer accepts;
* `fairSplit`       every valid fee is split fairly or refused.
-/

set_option linter.unusedSectionVars false

namespace MeChain
open Fallible

/-! ## shares -/

/-- the product of an amount of 256 bits and a rate of at most three tenths has 315 bits -/
theorem mulInt_eq {n a : ℤ} (hn : 0 ≤ n) (hn3 : n ≤ 3) (ha : 0 ≤ a) (hf : SdkInt.Fits a) :
    Dec.mulInt (n * 10 ^ 17) a = .ok (n * 10 ^ 17 * a) := by
  have hprod : n * 10 ^ 17 * a = n * a * 10 ^ 17 := by ring
  have hna : 0 ≤ n * a := Int.mul_nonneg hn ha
  have hle : n * a ≤ 3 * a := Int.mul_le_mul_of_nonneg_right hn3 ha
  have hfit : Dec.Fits (n * 10 ^ 17 * a) := by
    rw [hprod]
    unfold SdkInt.Fits SdkInt.maxBitLen at hf
    unfold Dec.Fits Dec.maxBitLen
    generalize n * a = x at *
    norm_num at hf ⊢
    omega
  exact if_pos hfit

theorem share_eq {n a : ℤ} (hn : 0 ≤ n) (hn3 : n ≤ 3) (ha : 0 ≤ a) (hf : SdkInt.Fits a) :
    share (n * 10 ^ 17) a = .ok (n * a / 10) := by
  have hna : 0 ≤ n * a := Int.mul_nonneg hn ha
  have hle : n * a ≤ 3 * a := Int.mul_le_mul_of_nonneg_right hn3 ha
  have htrunc : Dec.truncate (n * 10 ^ 17 * a) = n * a / 10 := by
    have hprod : n * 10 ^ 17 * a = n * a * 10 ^ 17 := by ring
    have hone : Dec.one = 1000000000000000000 := by decide
    rw [Dec.truncate, hprod, Int.tdiv_eq_ediv_of_nonneg (by positivity), hone]
    omega
  have hfit : SdkInt.Fits (n * a / 10) := by
    unfold SdkInt.Fits SdkInt.maxBitLen at *
    omega
  unfold share Dec.truncateInt
  rw [mulInt_eq hn hn3 ha hf, ok_bind, htrunc, if_pos hfit]

theorem mulInt_rates {a : ℤ} (ha : 0 ≤ a) (hf : SdkInt.Fits a) :
    ∀ rate ∈ [rate10, rate20, rate30], Dec.mulInt rate a = .ok (rate * a) := by
  intro rate hrate
  simp only [List.mem_cons, List.not_mem_nil, or_false] at hrate
  rcases hrate with rfl | rfl | rfl
  · exact mulInt_eq (n := 1) (by decide) (by decide) ha hf
  · exact mulInt_eq (n := 2) (by decide) (by decide) ha hf
  · exact mulInt_eq (n := 3) (by decide) (by decide) ha hf

/-! ## coins -/

/-- one, two and three tenths of a coin, each rounded down, and the rest -/
def fairParts (f : Coin) : FeeParts Coin where
  fee10 := ⟨f.denom, f.amount / 10⟩
  fee20 := ⟨f.denom, 2 * f.amount / 10⟩
  fee30 := ⟨f.denom, 3 * f.amount / 10⟩
  fee40 := ⟨f.denom, f.amount - f.amount / 10 - 2 * f.amount / 10 - 3 * f.amount / 10⟩

theorem splitCoin_eq (fee : Coins) {f : Coin} (h10 : 10 ≤ f.amount) (hf : SdkInt.Fits f.amount)
    (hd : validDenom f.denom = true) : splitCoin fee f = .ok (fairParts f) := by
  have h1 : share rate10 f.amount = .ok (f.amount / 10) := by
    have h := share_eq (n := 1) (by decide) (by decide) (by omega : 0 ≤ f.amount) hf
    rw [one_mul, one_mul] at h
    exact h
  have h2 : share rate20 f.amount = .ok (2 * f.amount / 10) :=
    share_eq (n := 2) (by decide) (by decide) (by omega) hf
  have h3 : share rate30 f.amount = .ok (3 * f.amount / 10) :=
    share_eq (n := 3) (by decide) (by decide) (by omega) hf
  have hnew : ∀ x : ℤ, 0 ≤ x → newCoin f.denom x = .ok ⟨f.denom, x⟩ :=
    fun x hx => if_pos ⟨hd, hx⟩
  have hsub : ∀ x y : ℤ, 0 ≤ y → y ≤ x → x ≤ f.amount → SdkInt.sub x y = .ok (x - y) :=
    fun x y hy hyx hx =>
      SdkInt.sub_ok.mpr ⟨SdkInt.fits_of_le (by omega) (by omega : x - y ≤ f.amount) hf, rfl⟩
  unfold splitCoin
  rw [if_neg (by omega), h1, ok_bind, hnew _ (by omega), ok_bind, h2, ok_bind, hnew _ (by omega),
    ok_bind, h3, ok_bind, hnew _ (by omega), ok_bind]
  dsimp only
  rw [hsub _ _ (by omega) (by omega) (by omega), ok_bind,
    hsub _ _ (by omega) (by omega) (by omega), ok_bind,
    hsub _ _ (by omega) (by omega) (by omega), ok_bind, hnew _ (by omega), ok_bind]
  rfl

def IsPart (part : FeeParts Coin → Coin) : Prop :=
  part = FeeParts.fee10 ∨ part = FeeParts.fee20 ∨ part = FeeParts.fee30 ∨ part = FeeParts.fee40

section
variable {f : Coin} {part : FeeParts Coin → Coin}

theorem fairParts_denom (hpart : IsPart part) : (part (fairParts f)).denom = f.denom := by
  rcases hpart with rfl | rfl | rfl | rfl
  · rfl
  · rfl
  · rfl
  · rfl

theorem fairParts_pos (hpart : IsPart part) (h10 : 10 ≤ f.amount) :
    0 < (part (fairParts f)).amount := by
  unfold fairParts
  rcases hpart with rfl | rfl | rfl | rfl
  · show 0 < f.amount / 10
    omega
  · show 0 < 2 * f.amount / 10
    omega
  · show 0 < 3 * f.amount / 10
    omega
  · show 0 < f.amount - f.amount / 10 - 2 * f.amount / 10 - 3 * f.amount / 10
    omega

/-- the rest is four tenths, and what was rounded off three times -/
theorem fairParts_rest : 4 * f.amount ≤ 10 * (fairParts f).fee40.amount ∧
    10 * (fairParts f).fee40.amount ≤ 4 * f.amount + 24 := by
  unfold fairParts
  dsimp only
  omega

end

/-! ## coin lists -/

namespace Coins

theorem isValid_of_denoms {cs fee : Coins} (hfee : fee.IsValid)
    (hd : cs.map Coin.denom = fee.map Coin.denom) (hpos : ∀ c ∈ cs, 0 < c.amount) :
    cs.IsValid := by
  constructor
  · intro c hc
    have hmem : c.denom ∈ fee.map Coin.denom := hd ▸ List.mem_map_of_mem hc
    obtain ⟨f, hf, he⟩ := List.mem_map.mp hmem
    exact ⟨he ▸ (hfee.1 f hf).1, hpos c hc⟩
  · have hlt : (fee.map Coin.denom).Pairwise (· < ·) := List.pairwise_map.mpr hfee.2
    rw [← hd] at hlt
    exact List.pairwise_map.mp hlt

end Coins

def fairLists (fee : Coins) : FeeParts Coins where
  fee10 := fee.map fun f => (fairParts f).fee10
  fee20 := fee.map fun f => (fairParts f).fee20
  fee30 := fee.map fun f => (fairParts f).fee30
  fee40 := fee.map fun f => (fairParts f).fee40

section
variable {fee : Coins}

theorem splitFee_eq (hv : fee.IsValid) (hf : ∀ f ∈ fee, 10 ≤ f.amount ∧ SdkInt.Fits f.amount) :
    splitFee fee = .ok (fairLists fee) := by
  have hparts : fee.mapM (splitCoin fee) = .ok (fee.map fairParts) :=
    mapM_of (fun f h => splitCoin_eq fee (hf f h).1 (hf f h).2 (hv.1 f h).1)
  unfold splitFee
  rw [hparts, ok_bind]
  unfold fairLists
  simp only [List.map_map, Function.comp_def]

theorem fairLists_valid (hv : fee.IsValid) (h10 : ∀ f ∈ fee, 10 ≤ f.amount) :
    ∀ cs ∈ [(fairLists fee).fee10, (fairLists fee).fee20, (fairLists fee).fee30,
      (fairLists fee).fee40],
      Coins.IsValid cs ∧ cs.map Coin.denom = fee.map Coin.denom ∧ ∀ c ∈ cs, 0 < c.amount := by
  have hlist : ∀ part : FeeParts Coin → Coin, IsPart part →
      Coins.IsValid (fee.map fun f => part (fairParts f)) ∧
        (fee.map fun f => part (fairParts f)).map Coin.denom = fee.map Coin.denom ∧
        ∀ c ∈ fee.map fun f => part (fairParts f), 0 < c.amount := by
    intro part hpart
    have hd : (fee.map fun f => part (fairParts f)).map Coin.denom = fee.map Coin.denom := by
      rw [List.map_map]
      exact List.map_congr_left (fun _ _ => fairParts_denom hpart)
    have hpos : ∀ c ∈ fee.map fun f => part (fairParts f), 0 < c.amount := by
      intro c hc
      obtain ⟨f, hf, rfl⟩ := List.mem_map.mp hc
      exact fairParts_pos hpart (h10 f hf)
    exact ⟨Coins.isValid_of_denoms hv hd hpos, hd, hpos⟩
  intro cs hcs
  simp only [List.mem_cons, List.not_mem_nil, or_false] at hcs
  rcases hcs with rfl | rfl | rfl | rfl
  · exact hlist _ (.inl rfl)
  · exact hlist _ (.inr (.inl rfl))
  · exact hlist _ (.inr (.inr (.inl rfl)))
  · exact hlist _ (.inr (.inr (.inr rfl)))

/-- **When a fee splits**, and into what. -/
theorem splitFee_succeeds (hv : fee.IsValid)
    (hf : ∀ f ∈ fee, 10 ≤ f.amount ∧ SdkInt.Fits f.amount) :
    ∃ p, splitFee fee = .ok p ∧ ∀ cs ∈ [p.fee10, p.fee20, p.fee30, p.fee40],
      Coins.IsValid cs ∧ (cs = [] → fee = []) := by
  refine ⟨_, splitFee_eq hv hf, fun cs hcs => ?_⟩
  obtain ⟨hvalid, hd, _⟩ := fairLists_valid hv (fun f h => (hf f h).1) cs hcs
  refine ⟨hvalid, fun hnil => ?_⟩
  rw [hnil, List.map_nil] at hd
  exact List.map_eq_nil_iff.mp hd.symm

theorem ten_le_of_splitFee {p : FeeParts Coins} (h : splitFee fee = .ok p) :
    ∀ f ∈ fee, 10 ≤ f.amount := by
  intro f hf
  obtain ⟨parts, hparts, _⟩ := bind_eq_ok.mp h
  obtain ⟨q, hq⟩ := mapM_ok_mem hparts hf
  obtain ⟨hlt, _⟩ := guard_eq_ok.mp hq
  omega

def belowTen (fee : Coins) : Error := ⟨.insufficientFee, s!"fee must greater than 10: {fee.str}"⟩

theorem splitFee_error (hv : fee.IsValid) (hf : ∀ f ∈ fee, SdkInt.Fits f.amount)
    (hlow : ∃ f ∈ fee, f.amount < 10) : splitFee fee = .error (.error (belowTen fee)) := by
  cases hparts : fee.mapM (splitCoin fee) with
  | ok parts =>
    obtain ⟨f, hmem, hlt⟩ := hlow
    obtain ⟨q, hq⟩ := mapM_ok_mem hparts hmem
    obtain ⟨hge, _⟩ := guard_eq_ok.mp hq
    exact absurd hlt hge
  | error e =>
    obtain ⟨f, hmem, he⟩ := mapM_error hparts
    by_cases hlt : f.amount < 10
    · rw [splitCoin, if_pos hlt] at he
      cases he
      unfold splitFee
      rw [hparts]
      rfl
    · rw [splitCoin_eq fee (by omega) (hf f hmem) (hv.1 f hmem).1] at he
      cases he

end

/-! ## the transfer -/

section
variable {Addr : Type} [SdkAddress Addr] [DecidableEq Addr]

def Decodes (Addr : Type) [SdkAddress Addr] (a : String) : Prop :=
  ∃ x : Addr, accAddressFromBech32 a = .ok x

/-- Four valid lists of the parts of every coin, the last of which is about four tenths, and a bank
transfer to any four receivers accepts them. -/
structure FairSplit (Addr : Type) [SdkAddress Addr] [DecidableEq Addr] (fee : Coins)
    (p : FeeParts Coins) : Prop where
  shares : p = fairLists fee
  rest : ∀ f ∈ fee, 4 * f.amount ≤ 10 * (fairParts f).fee40.amount ∧
    10 * (fairParts f).fee40.amount ≤ 4 * f.amount + 24
  valid : ∀ cs ∈ [p.fee10, p.fee20, p.fee30, p.fee40],
    Coins.IsValid cs ∧ cs.map Coin.denom = fee.map Coin.denom ∧ ∀ c ∈ cs, 0 < c.amount
  accepted : fee ≠ [] → ∀ payer a10 a20 a30 a40 : String, (∀ a ∈ [payer, a10, a20, a30, a40],
    Decodes Addr a) → App.validateInputsOutputs Addr [⟨payer, fee⟩]
      [⟨a10, p.fee10⟩, ⟨a20, p.fee20⟩, ⟨a30, p.fee30⟩, ⟨a40, p.fee40⟩] = .ok ()

/-- The transaction is rejected before coins move: the payment ends with an error instead of a call
to the bank, and the next handler is not reached. -/
def Refused (Addr G : Type) [SdkAddress Addr] [DecidableEq Addr] (fee : Coins) : Prop :=
  ∀ (dfd : DeductFeeDecorator Addr G) (sk : StakingKeeper Addr) (ctx : Context)
    (s : AnteState Addr G) (tx : FeeTx Addr),
    (∀ payer, dfd.payFee sk ctx s tx fee payer = .error (.error (belowTen fee))) ∧
    ∀ parse, parse tx.fee.str = .ok fee → dfd.stakingKeeper = some sk →
      freeGasLoop (DeductFeeDecorator.isAdmin sk s.app tx.feePayer) tx.msgs = false →
      ∀ ctx' s', ¬ DeductFeeDecorator.ReachesNext parse dfd ctx s tx false ctx' s'

variable {G : Type} {fee : Coins} {p : FeeParts Coins}

theorem validateBasic_of {io : InOut} (ha : Decodes Addr io.address) (hv : io.coins.IsValid)
    (hne : io.coins ≠ []) : App.validateBasic Addr io = .ok () := by
  obtain ⟨x, hx⟩ := ha
  unfold App.validateBasic App.bech32
  rw [hx]
  show (if _ then _ else _) = _
  rw [if_neg (not_or.mpr ⟨not_not.mpr hv, hne⟩)]

theorem fairLists_accepted (hv : fee.IsValid) (hf : ∀ f ∈ fee, 10 ≤ f.amount ∧ SdkInt.Fits f.amount)
    (hne : fee ≠ []) {payer a10 a20 a30 a40 : String}
    (ha : ∀ a ∈ [payer, a10, a20, a30, a40], Decodes Addr a) :
    App.validateInputsOutputs Addr [⟨payer, fee⟩] [⟨a10, (fairLists fee).fee10⟩,
      ⟨a20, (fairLists fee).fee20⟩, ⟨a30, (fairLists fee).fee30⟩, ⟨a40, (fairLists fee).fee40⟩]
      = .ok () := by
  have hvalid := fairLists_valid hv (fun f h => (hf f h).1)
  simp only [List.forall_mem_cons, List.not_mem_nil, false_implies, implies_true, and_true] at ha hvalid
  obtain ⟨hpayer, h10, h20, h30, h40⟩ := ha
  obtain ⟨⟨v10, d10, _⟩, ⟨v20, d20, _⟩, ⟨v30, d30, _⟩, v40, d40, _⟩ := hvalid
  have hnil : ∀ {cs : Coins}, cs.map Coin.denom = fee.map Coin.denom → cs ≠ [] := by
    intro cs hd hcs
    rw [hcs, List.map_nil] at hd
    exact hne (List.map_eq_nil_iff.mp hd.symm)
  have hins : [(⟨payer, fee⟩ : InOut)].mapM (App.validateBasic Addr) = .ok [()] :=
    mapM_of (v := fun _ => ()) (by simpa using validateBasic_of hpayer hv hne)
  have houts : [(⟨a10, (fairLists fee).fee10⟩ : InOut), ⟨a20, (fairLists fee).fee20⟩,
      ⟨a30, (fairLists fee).fee30⟩, ⟨a40, (fairLists fee).fee40⟩].mapM (App.validateBasic Addr)
      = .ok [(), (), (), ()] := by
    refine mapM_of (v := fun _ => ()) ?_
    simp only [List.forall_mem_cons, List.not_mem_nil, false_implies, implies_true, and_true]
    exact ⟨validateBasic_of h10 v10 (hnil d10), validateBasic_of h20 v20 (hnil d20),
      validateBasic_of h30 v30 (hnil d30), validateBasic_of h40 v40 (hnil d40)⟩
  unfold App.validateInputsOutputs
  rw [hins, ok_bind, houts, ok_bind, if_pos]
  intro d _
  have htotal := splitFee_total (splitFee_eq hv hf) d
  simp only [App.ioTotal, List.map_cons, List.map_nil, List.sum_cons, List.sum_nil]
  omega

theorem fairSplit_of_ten (hv : fee.IsValid)
    (hf : ∀ f ∈ fee, 10 ≤ f.amount ∧ SdkInt.Fits f.amount) :
    FairSplit Addr fee (fairLists fee) where
  shares := rfl
  rest _ _ := fairParts_rest
  valid := fairLists_valid hv (fun f h => (hf f h).1)
  accepted hne _ _ _ _ _ ha := fairLists_accepted hv hf hne ha

theorem refused_of_low (hv : fee.IsValid) (hf : ∀ f ∈ fee, SdkInt.Fits f.amount)
    (hlow : ∃ f ∈ fee, f.amount < 10) : Refused Addr G fee := by
  have hsplit := splitFee_error hv hf hlow
  have hpay : ∀ (dfd : DeductFeeDecorator Addr G) (sk : StakingKeeper Addr) (ctx : Context)
      (s : AnteState Addr G) (tx : FeeTx Addr) (payer : Addr),
      dfd.payFee sk ctx s tx fee payer = .error (.error (belowTen fee)) := by
    intro dfd sk ctx s tx payer
    unfold DeductFeeDecorator.payFee
    rw [if_neg (not_not.mpr hv), hsplit]
    rfl
  intro dfd sk ctx s tx
  refine ⟨hpay dfd sk ctx s tx, fun parse hparse hsk hpays ctx' s' hreach => ?_⟩
  obtain ⟨sk', hsk', _, hr⟩ := DeductFeeDecorator.reachesNext_iff.mp hreach
  obtain rfl : sk = sk' := Option.some.inj (hsk.symm.trans hsk')
  rw [if_neg (by rw [hpays]; exact Bool.false_ne_true)] at hr
  obtain ⟨⟨priority, s1⟩, hcharge, _, _⟩ := hr
  obtain ⟨_, n, payer, s2, _, hn, _, hpaid⟩ := DeductFeeDecorator.chargeFee_ok hcharge
  obtain rfl : fee = n := Except.ok.inj (hparse.symm.trans hn)
  rcases hpaid with ⟨hzero, _⟩ | ⟨_, hpaid⟩
  · -- a valid fee with a coin in it is not zero
    obtain ⟨f, hmem, _⟩ := hlow
    have hpos := (hv.1 f hmem).2
    rw [hzero f hmem] at hpos
    exact absurd hpos (lt_irrefl 0)
  · rw [hpay] at hpaid
    cases hpaid

/-- **The four-way split**: no product is too long, a fee with coins of ten and more is split fairly,
and any other is refused. -/
theorem fairSplit (hv : fee.IsValid) (hf : ∀ f ∈ fee, SdkInt.Fits f.amount) :
    (∀ f ∈ fee, ∀ rate ∈ [rate10, rate20, rate30],
      Dec.mulInt rate f.amount = .ok (rate * f.amount)) ∧
    ((∀ f ∈ fee, 10 ≤ f.amount) → ∃ p, splitFee fee = .ok p ∧ FairSplit Addr fee p) ∧
    ((∃ f ∈ fee, f.amount < 10) → Refused Addr G fee) := by
  refine ⟨fun f h => mulInt_rates (hv.1 f h).2.le (hf f h), fun h10 => ?_, refused_of_low hv hf⟩
  have hten : ∀ f ∈ fee, 10 ≤ f.amount ∧ SdkInt.Fits f.amount := fun f h => ⟨h10 f h, hf f h⟩
  exact ⟨_, splitFee_eq hv hten, fairSplit_of_ten hv hten⟩

/-- the largest amount of 256 bits -/
theorem fairSplit_largest : ∃ p, splitFee [⟨"umec", 2 ^ 256 - 1⟩] = .ok p ∧
    FairSplit String [⟨"umec", 2 ^ 256 - 1⟩] p :=
  (fairSplit (G := Unit) (by decide +kernel) (by decide +kernel)).2.1 (by decide +kernel)

end

end MeChain
