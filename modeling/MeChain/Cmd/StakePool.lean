import MeChain.Bank
import MeChain.Cmd.Genesis

/-!
# The coins of the stake pool in the genesis

* `Coins.safeAdd_ok`    what the merge of two coin lists is;
* `BankGenesis.Valid`   balances at different addresses, of valid coins, with the supply of their sum;
* `PoolFunded`          what the command should leave behind;
* `poolFunded_iff`      when it does.

The amount check looks at one coin after the other, and the balance is appended without a look at the
balances that are there.
-/

set_option linter.unusedSectionVars false

namespace MeChain
open Fallible

/-! ## the merge -/

namespace Coins

section
variable {cs csB r : Coins} {c : Coin} {d : String}

theorem amountOf_append : (cs ++ csB).amountOf d = cs.amountOf d + csB.amountOf d := by
  unfold amountOf
  rw [List.map_append, List.sum_append]

theorem amountOf_filter :
    ((cs.filter fun c => c.denom = d).map Coin.amount).sum = cs.amountOf d := by
  induction cs with
  | nil => rfl
  | cons a cs ih =>
    rw [amountOf_cons]
    by_cases h : a.denom = d
    · rw [List.filter_cons_of_pos (by rwa [decide_eq_true_iff]), List.map_cons, List.sum_cons, ih,
        if_pos h]
    · rw [List.filter_cons_of_neg (by rwa [decide_eq_true_iff]), ih, if_neg h, zero_add]

theorem sum_ok {s t : ℤ} (h : cs.foldlM (fun sum c => SdkInt.add sum c.amount) s = .ok t) :
    t = s + (cs.map Coin.amount).sum := by
  induction cs generalizing s with
  | nil =>
    rw [foldlM_nil_ok] at h
    rw [← h, List.map_nil, List.sum_nil, add_zero]
  | cons c cs ih =>
    obtain ⟨m, hm, h⟩ := foldlM_cons_ok.mp h
    obtain ⟨_, rfl⟩ := SdkInt.add_ok.mp hm
    rw [ih h, List.map_cons, List.sum_cons, add_assoc]

theorem combine_ok (h : combine cs d = .ok c) : c = ⟨d, cs.amountOf d⟩ := by
  obtain ⟨amount, hsum, h⟩ := bind_eq_ok.mp h
  rw [← Except.ok.inj h, sum_ok hsum, zero_add, amountOf_filter]

theorem combine_all {ds : List String} (h : ds.mapM (combine cs) = .ok r) :
    r = ds.map fun d => ⟨d, cs.amountOf d⟩ := by
  induction ds generalizing r with
  | nil => exact (Except.ok.inj h).symm
  | cons d ds ih =>
    obtain ⟨c, r', hc, hr, rfl⟩ := mapM_cons_ok.mp h
    rw [combine_ok hc, ih hr]
    rfl

/-- **The merge**: for every denomination the sum of both amounts, unless it is zero. -/
theorem safeAdd_ok (h : cs.safeAdd csB = .ok r) :
    r = ((denoms (cs ++ csB)).map fun d => ⟨d, (cs ++ csB).amountOf d⟩).filter
      fun c => c.amount ≠ 0 := by
  obtain ⟨_, h⟩ := guard_eq_ok.mp h
  obtain ⟨_, h⟩ := guard_eq_ok.mp h
  obtain ⟨sums, hsums, h⟩ := bind_eq_ok.mp h
  rw [← Except.ok.inj h, combine_all hsums]

theorem mem_denoms : d ∈ denoms cs ↔ d ∈ cs.map Coin.denom := by
  unfold denoms
  rw [List.mem_insertionSort, List.mem_dedup]

theorem denoms_sorted : (denoms cs).Pairwise (· < ·) := by
  have hle : (denoms cs).Pairwise (· ≤ ·) := List.pairwise_insertionSort _ _
  have hne : (denoms cs).Nodup :=
    (List.perm_insertionSort _ _).nodup_iff.mpr (List.nodup_dedup _)
  exact hle.imp₂ (fun _ _ => lt_of_le_of_ne) hne

theorem mem_safeAdd (h : cs.safeAdd csB = .ok r) : c ∈ r ↔
    c.denom ∈ (cs ++ csB).map Coin.denom ∧ c.amount = (cs ++ csB).amountOf c.denom ∧
      c.amount ≠ 0 := by
  rw [safeAdd_ok h, List.mem_filter, decide_eq_true_iff, List.mem_map]
  constructor
  · intro hc
    obtain ⟨⟨d, hd, rfl⟩, hne⟩ := hc
    exact ⟨mem_denoms.mp hd, rfl, hne⟩
  · intro hc
    obtain ⟨hd, hamount, hne⟩ := hc
    exact ⟨⟨c.denom, mem_denoms.mpr hd, hamount ▸ rfl⟩, hne⟩

theorem safeAdd_sorted (h : cs.safeAdd csB = .ok r) : r.Pairwise (fun a b => a.denom < b.denom) := by
  rw [safeAdd_ok h]
  refine List.Pairwise.filter _ (List.pairwise_map.mpr ?_)
  exact denoms_sorted

theorem safeAdd_isValid (hv : cs.IsValid) (hvB : csB.IsValid) (h : cs.safeAdd csB = .ok r) :
    r.IsValid := by
  have hboth : ∀ c ∈ cs ++ csB, validDenom c.denom = true ∧ 0 < c.amount :=
    List.forall_mem_append.mpr ⟨hv.1, hvB.1⟩
  refine ⟨fun c hc => ?_, safeAdd_sorted h⟩
  obtain ⟨hd, hamount, hne⟩ := (mem_safeAdd h).mp hc
  obtain ⟨a, ha, hda⟩ := List.mem_map.mp hd
  have hnonneg : 0 ≤ c.amount := by
    rw [hamount]
    exact amountOf_nonneg (fun x hx => (hboth x hx).2.le) _
  exact ⟨hda ▸ (hboth a ha).1, lt_of_le_of_ne hnonneg (Ne.symm hne)⟩

/-- **Amounts add up.** -/
theorem amountOf_safeAdd (h : cs.safeAdd csB = .ok r) (d : String) :
    r.amountOf d = cs.amountOf d + csB.amountOf d := by
  rw [← amountOf_append]
  have hnodup : (r.map Coin.denom).Nodup :=
    List.pairwise_map.mpr ((safeAdd_sorted h).imp ne_of_lt)
  by_cases hzero : (cs ++ csB).amountOf d = 0
  · rw [hzero]
    refine amountOf_eq_zero (fun hd => ?_)
    obtain ⟨c, hc, rfl⟩ := List.mem_map.mp hd
    obtain ⟨_, hamount, hne⟩ := (mem_safeAdd h).mp hc
    exact hne (hamount.trans hzero)
  · have hd : d ∈ (cs ++ csB).map Coin.denom := by
      by_contra hnot
      exact hzero (amountOf_eq_zero hnot)
    have hc : (⟨d, (cs ++ csB).amountOf d⟩ : Coin) ∈ r := (mem_safeAdd h).mpr ⟨hd, rfl, hzero⟩
    exact amountOf_of_mem hnodup hc

theorem sort_perm : cs.sort.Perm cs := List.perm_insertionSort _ _

end

end Coins

/-! ## valid bank states -/

/-- The spellings differ, and they spell different addresses. -/
def Apart (Addr : Type) [SdkAddress Addr] (a b : GenesisBalance) : Prop :=
  a.address ≠ b.address ∧ ∀ x : Addr, Spells a.address x → ¬ Spells b.address x

theorem Apart.symm {Addr : Type} [SdkAddress Addr] {a b : GenesisBalance} (h : Apart Addr a b) :
    Apart Addr b a := ⟨h.1.symm, fun x hb ha => h.2 x ha hb⟩

namespace BankGenesis

/-- balances at different addresses, each of valid coins, and a supply that is their sum -/
structure Valid (Addr : Type) [SdkAddress Addr] (b : BankGenesis) : Prop where
  apart : b.balances.Pairwise (Apart Addr)
  coins : ∀ e ∈ b.balances, e.coins.IsValid
  supply : b.supply.IsValid
  backed : ∀ d, b.supply.amountOf d = (b.balances.map fun e => e.coins.amountOf d).sum

/-- what the balances of an address add up to -/
def balanceOf {Addr : Type} [SdkAddress Addr] [DecidableEq Addr] (b : BankGenesis) (x : Addr)
    (d : String) : ℤ :=
  ((b.balances.filter fun e => Spells e.address x).map fun e => e.coins.amountOf d).sum

end BankGenesis

variable {Addr : Type} [SdkAddress Addr] [DecidableEq Addr]

/-- The bank genesis after the command: valid, with the coins added to the supply and to the stake
pool, which has either no base coins or the total. -/
structure PoolFunded (Addr : Type) [SdkAddress Addr] [DecidableEq Addr] (x : GenesisConfig)
    (coins : Coins) (g g' : GenesisState) : Prop where
  valid : g'.bank.Valid Addr
  credited : ∀ d, g'.bank.balanceOf (newModuleAddress x.names.stakePool : Addr) d =
    g.bank.balanceOf (newModuleAddress x.names.stakePool : Addr) d + coins.amountOf d
  grown : ∀ d, g'.bank.supply.amountOf d = g.bank.supply.amountOf d + coins.amountOf d
  total : g'.bank.balanceOf (newModuleAddress x.names.stakePool : Addr) baseMEDenom = 0 ∨
    g'.bank.balanceOf (newModuleAddress x.names.stakePool : Addr) baseMEDenom
      = x.totalBaseCoinsAmount

section
variable {x : GenesisConfig} {moduleName coinsArg : String} {coins : Coins} {g g' : GenesisState}

theorem addStakePool_ok (h : addStakePool Addr x coins g = .ok g') : ∃ supply,
    g.bank.supply.safeAdd coins = .ok supply ∧ g'.bank = {
      balances := x.sanitizeGenesisBalances (g.bank.balances ++
        [⟨SdkAddress.str (newModuleAddress x.names.stakePool : Addr), coins⟩])
      supply := supply } := by
  obtain ⟨_, _, h⟩ := bind_eq_ok.mp h
  obtain ⟨_, _, h⟩ := bind_eq_ok.mp h
  obtain ⟨_, h⟩ := guard_eq_ok.mp h
  obtain ⟨supply, hsupply, h⟩ := bind_eq_ok.mp h
  cases h
  exact ⟨supply, hsupply, rfl⟩

/-- **The command** on coins that parse: every base coin has the whole amount. -/
theorem addGenesisModuleAccount_ok (hparse : x.parseCoinsNormalized coinsArg = .ok coins)
    (h : addGenesisModuleAccount Addr x moduleName coinsArg g = .ok g') :
    (∀ c ∈ coins, c.denom = baseMEDenom → c.amount = x.totalBaseCoinsAmount) ∧
      addStakePool Addr x coins.sort g = .ok g' := by
  obtain ⟨_, h⟩ := guard_eq_ok.mp h
  obtain ⟨cs, hcs, h⟩ := bind_eq_ok.mp h
  obtain rfl : coins = cs := Except.ok.inj (hparse.symm.trans (wrap_ok.mp hcs))
  obtain ⟨hcheck, h⟩ := guard_eq_ok.mp h
  refine ⟨fun c hc hd => ?_, h⟩
  by_contra hne
  exact hcheck ⟨c, hc, hd, hne⟩

/-- no balance is there for the stake pool -/
def NoPoolBalance (Addr : Type) [SdkAddress Addr] (x : GenesisConfig) (b : BankGenesis) : Prop :=
  ∀ e ∈ b.balances, ¬ Spells e.address (newModuleAddress x.names.stakePool : Addr)

theorem balanceOf_none (h : NoPoolBalance Addr x g.bank) (d : String) :
    g.bank.balanceOf (newModuleAddress x.names.stakePool : Addr) d = 0 := by
  have hnone : g.bank.balances.filter
      (fun e => Spells e.address (newModuleAddress x.names.stakePool : Addr)) = [] :=
    List.filter_eq_nil_iff.mpr (fun e he => by
      rw [decide_eq_true_iff]
      exact h e he)
  rw [BankGenesis.balanceOf, hnone]
  rfl

theorem balanceOf_append {balances balances' : List GenesisBalance} {supply : Coins} {y : Addr}
    {d : String} (h : balances'.Perm (balances ++ [⟨SdkAddress.str y, coins⟩])) :
    BankGenesis.balanceOf ⟨balances', supply⟩ y d
      = BankGenesis.balanceOf ⟨balances, supply⟩ y d + coins.amountOf d := by
  have hnew : [(⟨SdkAddress.str y, coins⟩ : GenesisBalance)].filter
      (fun e => Spells e.address y) = [⟨SdkAddress.str y, coins⟩] :=
    List.filter_cons_of_pos (decide_eq_true (spells_str.mpr rfl))
  have hsum := ((h.filter fun e => Spells e.address y).map fun e => e.coins.amountOf d).sum_eq
  show List.sum _ = List.sum _ + _
  rw [hsum, List.filter_append, hnew, List.map_append, List.sum_append, List.map_singleton,
    List.sum_singleton]

theorem total_of_isValid (hcheck : ∀ c ∈ coins, c.denom = baseMEDenom →
      c.amount = x.totalBaseCoinsAmount) (hv : coins.sort.IsValid) :
    coins.amountOf baseMEDenom = 0 ∨ coins.amountOf baseMEDenom = x.totalBaseCoinsAmount := by
  rw [← BankState.amountOf_perm Coins.sort_perm]
  by_cases hd : baseMEDenom ∈ coins.sort.map Coin.denom
  · obtain ⟨c, hc, hcd⟩ := List.mem_map.mp hd
    have hnodup : (coins.sort.map Coin.denom).Nodup :=
      List.pairwise_map.mpr (hv.2.imp ne_of_lt)
    have hamount := Coins.amountOf_of_mem hnodup hc
    rw [hcd] at hamount
    exact .inr (hamount.trans (hcheck c (Coins.sort_perm.mem_iff.mp hc) hcd))
  · exact .inl (Coins.amountOf_eq_zero hd)

theorem valid_append {balances' : List GenesisBalance} {supply : Coins}
    (hvalid : g.bank.Valid Addr) (hnone : NoPoolBalance Addr x g.bank) (hcoins : coins.IsValid)
    (hperm : balances'.Perm (g.bank.balances ++
      [⟨SdkAddress.str (newModuleAddress x.names.stakePool : Addr), coins⟩]))
    (hsupply : g.bank.supply.safeAdd coins = .ok supply) :
    BankGenesis.Valid Addr ⟨balances', supply⟩ := by
  have hpool : Spells (SdkAddress.str (newModuleAddress x.names.stakePool : Addr))
      (newModuleAddress x.names.stakePool : Addr) := spells_str.mpr rfl
  refine {
    apart := (hperm.pairwise_iff Apart.symm).mpr ?_
    coins := fun e he => ?_
    supply := Coins.safeAdd_isValid hvalid.supply hcoins hsupply
    backed := fun d => ?_ }
  · refine List.pairwise_append.mpr ⟨hvalid.apart, List.pairwise_singleton _ _, ?_⟩
    intro e he e' he'
    rw [List.mem_singleton.mp he']
    refine ⟨fun heq => hnone e he (heq ▸ hpool), fun y hy hy' => ?_⟩
    exact hnone e he (spells_str.mp hy' ▸ hy)
  · rcases List.mem_append.mp (hperm.mem_iff.mp he) with he | he
    · exact hvalid.coins e he
    · rw [List.mem_singleton.mp he]
      exact hcoins
  · have hsum := (hperm.map fun e => e.coins.amountOf d).sum_eq
    show supply.amountOf d = List.sum _
    rw [hsum, Coins.amountOf_safeAdd hsupply, hvalid.backed, List.map_append, List.sum_append,
      List.map_singleton, List.sum_singleton]

/-- **The stake pool is funded as it should be exactly when** the coins are a valid list once they
are sorted and the stake pool has no balance yet. -/
theorem poolFunded_iff (hsanitize : ∀ l, (x.sanitizeGenesisBalances l).Perm l)
    (hvalid : g.bank.Valid Addr) (hparse : x.parseCoinsNormalized coinsArg = .ok coins)
    (h : addGenesisModuleAccount Addr x moduleName coinsArg g = .ok g') :
    PoolFunded Addr x coins g g' ↔ coins.sort.IsValid ∧ NoPoolBalance Addr x g.bank := by
  obtain ⟨hcheck, h⟩ := addGenesisModuleAccount_ok hparse h
  obtain ⟨supply, hsupply, hbank⟩ := addStakePool_ok h
  have hperm := hsanitize (g.bank.balances ++
    [⟨SdkAddress.str (newModuleAddress x.names.stakePool : Addr), coins.sort⟩])
  have hsort : ∀ d, coins.sort.amountOf d = coins.amountOf d :=
    BankState.amountOf_perm Coins.sort_perm
  have hpool : Spells (SdkAddress.str (newModuleAddress x.names.stakePool : Addr))
      (newModuleAddress x.names.stakePool : Addr) := spells_str.mpr rfl
  constructor
  · intro hfunded
    have hv := hfunded.valid
    rw [hbank] at hv
    have hcoins := hv.coins _ (hperm.mem_iff.mpr (List.mem_append_right _ (List.mem_singleton_self _)))
    refine ⟨hcoins, fun e he hspells => ?_⟩
    obtain ⟨_, _, hcross⟩ := List.pairwise_append.mp ((hperm.pairwise_iff Apart.symm).mp hv.apart)
    exact (hcross e he _ (List.mem_singleton_self _)).2 _ hspells hpool
  · intro hcond
    obtain ⟨hcoins, hnone⟩ := hcond
    have hcredited : ∀ d, g'.bank.balanceOf (newModuleAddress x.names.stakePool : Addr) d =
        g.bank.balanceOf (newModuleAddress x.names.stakePool : Addr) d + coins.amountOf d := by
      intro d
      rw [hbank, balanceOf_append hperm, hsort]
      rfl
    have hgrown : ∀ d, g'.bank.supply.amountOf d = g.bank.supply.amountOf d + coins.amountOf d := by
      intro d
      rw [hbank, ← hsort]
      exact Coins.amountOf_safeAdd hsupply d
    refine ⟨?_, hcredited, hgrown, ?_⟩
    · rw [hbank]
      exact valid_append hvalid hnone hcoins hperm hsupply
    · rw [hcredited, balanceOf_none hnone, zero_add]
      exact total_of_isValid hcheck hcoins

end

/-! ## two arguments -/

/-- a total of one MEC, with the arguments that the examples parse -/
def oneMec : GenesisConfig where
  names := .sdk
  totalBaseCoinsAmount := 100000000
  parseCoinsNormalized arg :=
    if arg = "1MEC" ∨ arg = "100000000umec" then .ok [⟨"umec", 100000000⟩]
    else if arg = "1MEC,100000000umec" then .ok [⟨"umec", 100000000⟩, ⟨"umec", 100000000⟩]
    else if arg = "1MEC,50zinc" then .ok [⟨"umec", 100000000⟩, ⟨"zinc", 50⟩]
    else goError .other "invalid decimal coin expression"
  sanitizeGenesisBalances l := l

theorem valid_empty : BankGenesis.Valid String ⟨[], []⟩ where
  apart := List.Pairwise.nil
  coins := by simp
  supply := by decide
  backed _ := rfl

/-- a file in which an account has coins of both denominations -/
def fundedGenesis : GenesisState :=
  { GenesisState.empty with
    bank := ⟨[⟨"me1alice", [⟨"umec", 7⟩, ⟨"zinc", 3⟩]⟩], [⟨"umec", 7⟩, ⟨"zinc", 3⟩]⟩ }

theorem fundedGenesis_valid : BankGenesis.Valid String fundedGenesis.bank where
  apart := List.pairwise_singleton _ _
  coins := by decide
  supply := by decide
  backed d := (add_zero _).symm

/-- one MEC and another coin for the stake pool, next to the account -/
theorem poolFunded_two_coins : ∃ g', addGenesisModuleAccount String oneMec "stake_tokens_pool"
    "1MEC,50zinc" fundedGenesis = .ok g' ∧
    PoolFunded String oneMec [⟨"umec", 100000000⟩, ⟨"zinc", 50⟩] fundedGenesis g' := by
  obtain ⟨g', hg'⟩ := exists_ok_of_isOk (x := addGenesisModuleAccount String oneMec
    "stake_tokens_pool" "1MEC,50zinc" fundedGenesis) (by decide +kernel)
  refine ⟨g', hg', (poolFunded_iff (fun _ => List.Perm.refl _) fundedGenesis_valid rfl hg').mpr
    ⟨by decide +kernel, fun e he => ?_⟩⟩
  rw [List.mem_singleton.mp he]
  decide

/-- The amount in both units: each coin passes the check, and the pool gets twice the total. -/
theorem poolFunded_twice_false : ¬ ∀ (coinsArg : String) (coins : Coins) (g g' : GenesisState),
    g.bank.Valid String → oneMec.parseCoinsNormalized coinsArg = .ok coins →
    addGenesisModuleAccount String oneMec "stake_tokens_pool" coinsArg g = .ok g' →
    PoolFunded String oneMec coins g g' := by
  intro hall
  obtain ⟨g', hg', htwice⟩ := exists_ok_of_check (x := addGenesisModuleAccount String oneMec
    "stake_tokens_pool" "1MEC,100000000umec" .empty)
    (p := fun g' => g'.bank.balanceOf (newModuleAddress "stake_tokens_pool" : String) baseMEDenom
      = 200000000) (by decide +kernel)
  have htotal := (hall _ _ _ _ valid_empty rfl hg').total
  rw [show oneMec.names.stakePool = "stake_tokens_pool" from rfl, htwice] at htotal
  exact absurd htotal (by decide)

end MeChain
