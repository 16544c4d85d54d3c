import MeChain.Bank

/-!
# When the bank operations succeed

* `WellFormed`          what the bank store keeps of itself: positive balances of valid
                        denominations, and a supply that fits;
* `addCoins_total`, `subUnlockedCoins_total`, `addSupply_total`   when the operations on one account
                        and on the supply succeed;
* `sendCoins_total`         when a transfer succeeds;
* `inputOutputCoins_total`  when a multi-send of one sender succeeds.
-/

set_option linter.unusedSectionVars false

namespace MeChain
open Fallible

variable {Addr : Type} [SdkAddress Addr] [DecidableEq Addr]

/-! ## coins of one account -/

namespace BankState

structure WellFormed (b : BankState Addr) : Prop where
  balances : ∀ r ∈ b.balances.rows, validDenom r.denom = true ∧ 0 < r.amount
  supply : ∀ d, SdkInt.Fits (b.supplyOf d)

variable {b b' : BankState Addr} {a : Addr} {d : String}

theorem WellFormed.nonneg (h : b.WellFormed) (a : Addr) (d : String) : 0 ≤ b.balance a d := by
  cases hg : b.balances.get (a, d) with
  | none => exact (Table.valueAt_none hg).ge
  | some r =>
    have hpos := (h.balances r (Table.mem_of_get hg)).2
    rw [balance, Table.valueAt_some hg]
    omega

theorem WellFormed.balance_le (h : b.WellFormed) (a : Addr) (d : String) :
    b.balance a d ≤ b.total d := by
  have hsum := Table.sum_del b.balances (fun r => if r.denom = d then r.amount else 0) (a, d)
  rw [valueAt_denom, if_pos rfl] at hsum
  have hrest : 0 ≤ (b.balances.del (a, d)).sum (fun r => if r.denom = d then r.amount else 0) := by
    refine List.sum_nonneg (fun x hx => ?_)
    obtain ⟨r, hr, rfl⟩ := List.mem_map.mp hx
    have hpos := (h.balances r (Table.mem_del.mp hr).1).2
    split <;> omega
  unfold total
  omega

theorem mem_getAllBalances {c : Coin} : c ∈ b.getAllBalances a ↔
    ∃ r ∈ b.balances.rows, r.address = a ∧ c = ⟨r.denom, r.amount⟩ := by
  rw [(b.getAllBalances_perm a).mem_iff, List.mem_map]
  constructor
  · intro h
    obtain ⟨r, hr, rfl⟩ := h
    rw [List.mem_filter, decide_eq_true_eq] at hr
    exact ⟨r, hr.1, hr.2, rfl⟩
  · intro h
    obtain ⟨r, hr, ha, rfl⟩ := h
    exact ⟨r, List.mem_filter.mpr ⟨hr, decide_eq_true ha⟩, rfl⟩

theorem amount_getAllBalances {c : Coin} (h : c ∈ b.getAllBalances a) :
    c.amount = b.balance a c.denom := by
  obtain ⟨r, hr, rfl, rfl⟩ := mem_getAllBalances.mp h
  exact (Table.valueAt_some (f := Balance.amount) (Table.mem_rows_iff.mp hr)).symm

theorem nodup_getAllBalances (b : BankState Addr) (a : Addr) :
    ((b.getAllBalances a).map Coin.denom).Nodup := by
  rw [((b.getAllBalances_perm a).map Coin.denom).nodup_iff, List.map_map]
  refine List.Nodup.map_on ?_ (b.balances.nodup_rows.filter _)
  intro r hr r' hr' he
  rw [List.mem_filter, decide_eq_true_eq] at hr hr'
  refine Table.eq_of_key hr.1 hr'.1 ?_
  show (r.address, r.denom) = (r'.address, r'.denom)
  rw [hr.2, hr'.2]
  exact congrArg (Prod.mk a) he

theorem WellFormed.isValid (h : b.WellFormed) (a : Addr) : (b.getAllBalances a).IsValid := by
  constructor
  · intro c hc
    obtain ⟨r, hr, _, rfl⟩ := mem_getAllBalances.mp hc
    exact h.balances r hr
  · have htotal : Std.Total (fun x y : Coin => x.denom ≤ y.denom) := ⟨fun x y => le_total _ _⟩
    have htrans : IsTrans Coin (fun x y : Coin => x.denom ≤ y.denom) := ⟨fun x y z => le_trans⟩
    have hle : (b.getAllBalances a).Pairwise (fun x y => x.denom ≤ y.denom) :=
      List.pairwise_insertionSort _ _
    have hne := List.pairwise_map.mp (b.nodup_getAllBalances a)
    exact (hle.and hne).imp (fun hxy => lt_of_le_of_ne hxy.1 hxy.2)

/-! ## runs over a coin list -/

theorem denoms_ne {amt : Coins} (h : amt.IsValid) :
    amt.Pairwise (fun x y => x.denom ≠ y.denom) := h.2.imp (fun hxy => ne_of_lt hxy)

/-- a run over coins of distinct denominations, each of which only looks at its own denomination -/
theorem foldlM_coins_total {f : BankState Addr → Coin → Res (BankState Addr)}
    (val : BankState Addr → String → ℤ)
    (hframe : ∀ t c t' d, f t c = .ok t' → d ≠ c.denom → val t' d = val t d)
    {amt : Coins} (hamt : amt.Pairwise (fun x y => x.denom ≠ y.denom))
    (hstep : ∀ c ∈ amt, ∀ t, val t c.denom = val b c.denom → ∃ t', f t c = .ok t') :
    ∃ b', amt.foldlM f b = .ok b' := by
  obtain ⟨b', hb', _⟩ := foldlM_total (f := f) (l := amt) (s := b)
    (I := fun done t => ∀ d, d ∉ done.map Coin.denom → val t d = val b d) (fun _ _ => rfl) (by
      intro done c rest t hl hI
      have hnew : c.denom ∉ done.map Coin.denom := by
        intro hc
        obtain ⟨x, hx, he⟩ := List.mem_map.mp hc
        exact (split_of_pairwise hamt hl).1 x hx he
      obtain ⟨t', ht'⟩ := hstep c (by rw [hl]; simp) t (hI c.denom hnew)
      refine ⟨t', ht', fun d hd => ?_⟩
      rw [List.map_append, List.mem_append, not_or, List.map_singleton, List.mem_singleton] at hd
      rw [hframe t c t' d ht' hd.2]
      exact hI d hd.1)
  exact ⟨b', hb'⟩

theorem setBalance_total {c : Coin} (hd : validDenom c.denom = true) (h0 : 0 ≤ c.amount) :
    ∃ b', b.setBalance a c = .ok b' := by
  unfold setBalance
  rw [if_neg (not_not.mpr ⟨hd, h0⟩)]
  by_cases hz : c.amount = 0
  · exact ⟨_, if_pos hz⟩
  · exact ⟨_, if_neg hz⟩

theorem setBalance_other {c : Coin} (h : b.setBalance a c = .ok b') (hd : d ≠ c.denom) :
    b'.balance a d = b.balance a d := by
  rw [(setBalance_write h).2.2.1, if_neg (fun he => hd he.2)]

theorem addCoins_total {amt : Coins} (hv : amt.IsValid)
    (hf : ∀ c ∈ amt, 0 ≤ b.balance a c.denom ∧ SdkInt.Fits (b.balance a c.denom + c.amount)) :
    ∃ b', b.addCoins a amt = .ok b' := by
  unfold addCoins
  rw [if_neg (not_not.mpr hv)]
  refine foldlM_coins_total (fun t => t.balance a) ?_ (denoms_ne hv) ?_
  · intro t c t' d ht hd
    obtain ⟨x, _, hset⟩ := bind_eq_ok.mp ht
    exact setBalance_other hset hd
  · intro c hc t ht
    have hpos := (hv.1 c hc).2
    have hnn := (hf c hc).1
    have hadd := SdkInt.add_ok.mpr ⟨(hf c hc).2, rfl⟩
    change t.balance a c.denom = b.balance a c.denom at ht
    rw [← ht] at hadd hnn
    obtain ⟨t', ht'⟩ := setBalance_total (b := t) (a := a)
      (c := ⟨c.denom, t.balance a c.denom + c.amount⟩) (hv.1 c hc).1 (by show 0 ≤ _ + _; omega)
    exact ⟨t', bind_eq_ok.mpr ⟨_, hadd, ht'⟩⟩

theorem subUnlockedCoins_total {amt : Coins} {locked : String → ℤ} (hv : amt.IsValid)
    (hlocked : ∀ d, 0 ≤ locked d)
    (hf : ∀ c ∈ amt, c.amount ≤ b.balance a c.denom - locked c.denom ∧
      SdkInt.Fits (b.balance a c.denom)) :
    ∃ b', b.subUnlockedCoins locked a amt = .ok b' := by
  unfold subUnlockedCoins
  rw [if_neg (not_not.mpr hv)]
  refine foldlM_coins_total (fun t => t.balance a) ?_ (denoms_ne hv) ?_
  · intro t c t' d ht hd
    obtain ⟨_, ht⟩ := guard_eq_ok.mp ht
    obtain ⟨_, ht⟩ := guard_eq_ok.mp ht
    obtain ⟨x, _, hset⟩ := bind_eq_ok.mp ht
    exact setBalance_other hset hd
  · intro c hc t ht
    obtain ⟨hle, hfit⟩ := hf c hc
    have hpos := (hv.1 c hc).2
    have hlock := hlocked c.denom
    change t.balance a c.denom = b.balance a c.denom at ht
    rw [← ht] at hle hfit
    have hsub := SdkInt.sub_ok.mpr ⟨SdkInt.fits_of_le (x := t.balance a c.denom - c.amount)
      (by omega) (by omega) hfit, rfl⟩
    obtain ⟨t', ht'⟩ := setBalance_total (b := t) (a := a)
      (c := ⟨c.denom, t.balance a c.denom - c.amount⟩) (hv.1 c hc).1 (by show 0 ≤ _ - _; omega)
    exact ⟨t', guard_eq_ok.mpr ⟨by omega, guard_eq_ok.mpr ⟨by omega,
      bind_eq_ok.mpr ⟨_, hsub, ht'⟩⟩⟩⟩

theorem subUnlockedCoins_spendable {amt : Coins} {locked : String → ℤ}
    (h : b.subUnlockedCoins locked a amt = .ok b') :
    ∀ c ∈ amt, c.amount ≤ b.balance a c.denom - locked c.denom := by
  obtain ⟨hv, h⟩ := guard_eq_ok.mp h
  have hdenoms := denoms_ne (not_not.mp hv)
  have hrun := foldlM_ok (I := fun done t =>
    (∀ d, d ∉ done.map Coin.denom → t.balance a d = b.balance a d) ∧
    ∀ c ∈ done, c.amount ≤ b.balance a c.denom - locked c.denom) h ⟨fun _ _ => rfl, by simp⟩ (by
      intro done c rest t t' hl hI hstep
      obtain ⟨hframe, hspent⟩ := hI
      obtain ⟨_, hstep⟩ := guard_eq_ok.mp hstep
      obtain ⟨hle, hstep⟩ := guard_eq_ok.mp hstep
      obtain ⟨x, _, hset⟩ := bind_eq_ok.mp hstep
      have hnew : c.denom ∉ done.map Coin.denom := by
        intro hc
        obtain ⟨y, hy, he⟩ := List.mem_map.mp hc
        exact (split_of_pairwise hdenoms hl).1 y hy he
      rw [hframe c.denom hnew] at hle
      refine ⟨fun d hd => ?_, fun y hy => ?_⟩
      · rw [List.map_append, List.mem_append, not_or, List.map_singleton, List.mem_singleton] at hd
        exact (setBalance_other hset hd.2).trans (hframe d hd.1)
      · rcases List.mem_append.mp hy with hy | hy
        · exact hspent y hy
        · rw [List.mem_singleton.mp hy]
          omega)
  exact hrun.2

theorem addSupply_total {amt : Coins} (hv : amt.IsValid)
    (hf : ∀ c ∈ amt, SdkInt.Fits (b.supplyOf c.denom + c.amount)) :
    ∃ b', amt.foldlM addSupply b = .ok b' := by
  refine foldlM_coins_total supplyOf ?_ (denoms_ne hv) ?_
  · intro t c t' d ht hd
    obtain ⟨x, _, hset⟩ := bind_eq_ok.mp ht
    cases hset
    rw [supplyOf_setSupply, if_neg hd]
  · intro c hc t ht
    have hadd := SdkInt.add_ok.mpr ⟨hf c hc, rfl⟩
    rw [← ht] at hadd
    exact ⟨_, bind_eq_ok.mpr ⟨_, hadd, rfl⟩⟩

/-! ## well-formed stores stay well-formed -/

theorem WellFormed.setBalance {c : Coin} (h : b.WellFormed) (hs : b.setBalance a c = .ok b') :
    b'.WellFormed := by
  have hsupply := (setBalance_write hs).2.1
  refine ⟨?_, fun d => by rw [supplyOf, hsupply]; exact h.supply d⟩
  unfold BankState.setBalance at hs
  obtain ⟨hc, hs⟩ := guard_eq_ok.mp hs
  rw [not_not] at hc
  by_cases h0 : c.amount = 0
  · rw [if_pos h0] at hs
    cases hs
    exact fun r hr => h.balances r (Table.mem_del.mp hr).1
  · rw [if_neg h0] at hs
    cases hs
    intro r hr
    rcases Table.mem_put.mp hr with rfl | ⟨hr, _⟩
    · exact ⟨hc.1, by show 0 < c.amount; omega⟩
    · exact h.balances r hr

theorem WellFormed.addCoins {amt : Coins} (h : b.WellFormed) (ha : b.addCoins a amt = .ok b') :
    b'.WellFormed := by
  obtain ⟨_, ha⟩ := guard_eq_ok.mp ha
  refine foldlM_ok (I := fun _ t => t.WellFormed) ha h ?_
  intro done c rest t t' _ hI ht
  obtain ⟨x, _, hset⟩ := bind_eq_ok.mp ht
  exact hI.setBalance hset

theorem WellFormed.subUnlockedCoins {amt : Coins} {locked : String → ℤ} (h : b.WellFormed)
    (ha : b.subUnlockedCoins locked a amt = .ok b') : b'.WellFormed := by
  obtain ⟨_, ha⟩ := guard_eq_ok.mp ha
  refine foldlM_ok (I := fun _ t => t.WellFormed) ha h ?_
  intro done c rest t t' _ hI ht
  obtain ⟨_, ht⟩ := guard_eq_ok.mp ht
  obtain ⟨_, ht⟩ := guard_eq_ok.mp ht
  obtain ⟨x, _, hset⟩ := bind_eq_ok.mp ht
  exact hI.setBalance hset

theorem WellFormed.addSupply {amt : Coins} (h : b.WellFormed)
    (ha : amt.foldlM BankState.addSupply b = .ok b') : b'.WellFormed := by
  refine foldlM_ok (I := fun _ t => t.WellFormed) ha h ?_
  intro done c rest t t' _ hI ht
  obtain ⟨x, hx, hset⟩ := bind_eq_ok.mp ht
  obtain ⟨hfit, rfl⟩ := SdkInt.add_ok.mp hx
  cases hset
  refine ⟨fun r hr => ?_, fun d => ?_⟩
  · rw [balances_setSupply] at hr
    exact hI.balances r hr
  · rw [supplyOf_setSupply]
    split
    · exact hfit
    · exact hI.supply d

end BankState

/-! ## a transfer -/

namespace App

variable {s : App Addr}

theorem lockedCoins_nonneg (s : App Addr) (ctx : Context) (x : Addr) (d : String) :
    0 ≤ s.lockedCoins ctx x d := by
  unfold lockedCoins
  split
  · exact Account.lockedAmount_nonneg ..
  · exact le_rfl

theorem spendableCoins_of_unlocked {ctx : Context} {x : Addr} {d : String}
    (h : s.lockedCoins ctx x d = 0) : s.spendableCoins ctx x d = s.bank.balance x d := by
  rw [spendableCoins, h, sub_zero]

theorem wellFormed_sendCoins {ctx : Context} {s' : App Addr} {x y : Addr} {amt : Coins}
    (hw : s.bank.WellFormed) (h : sendCoins ctx s x y amt = .ok s') : s'.bank.WellFormed := by
  obtain ⟨b, hb, h⟩ := bind_eq_ok.mp h
  obtain ⟨b', hb', h⟩ := bind_eq_ok.mp h
  cases h
  exact (hw.subUnlockedCoins hb).addCoins hb'

/-- **A transfer succeeds** when the sender can spend the coins. -/
theorem sendCoins_total {ctx : Context} {x y : Addr} {amt : Coins} (hw : s.bank.WellFormed)
    (hroom : ∀ d, SdkInt.Fits (s.bank.total d)) (hv : amt.IsValid)
    (hfunds : ∀ c ∈ amt, c.amount ≤ s.spendableCoins ctx x c.denom) :
    ∃ s', sendCoins ctx s x y amt = .ok s' := by
  have hnodup : (amt.map Coin.denom).Nodup := List.pairwise_map.mpr (BankState.denoms_ne hv)
  obtain ⟨b, hb⟩ := BankState.subUnlockedCoins_total (b := s.bank) (a := x) hv
    (s.lockedCoins_nonneg ctx x)
    (fun c hc => ⟨hfunds c hc, SdkInt.fits_of_le (hw.nonneg x c.denom) (hw.balance_le x c.denom)
      (hroom c.denom)⟩)
  obtain ⟨_, _, htot, _⟩ := BankState.subUnlockedCoins_ok hb
  have hwb := hw.subUnlockedCoins hb
  obtain ⟨b', hb'⟩ := BankState.addCoins_total (b := b) (a := y) hv (fun c hc => by
    -- the recipient's balance is part of the total, which the coins were taken from
    have hnn := hwb.nonneg y c.denom
    have hle := hwb.balance_le y c.denom
    have hpos := (hv.1 c hc).2
    rw [htot, Coins.amountOf_of_mem hnodup hc] at hle
    exact ⟨hnn, SdkInt.fits_of_le (by omega) (by omega) (hroom c.denom)⟩)
  exact ⟨_, bind_eq_ok.mpr ⟨b, hb, bind_eq_ok.mpr ⟨b', hb', rfl⟩⟩⟩

end App

/-! ## a multi-send -/

namespace App

variable {s : App Addr}

theorem addOutput_total {io : InOut} {a : Addr} (hw : s.bank.WellFormed)
    (ha : bech32 io.address = .ok a) (hv : io.coins.IsValid)
    (hf : ∀ d, SdkInt.Fits (s.bank.total d + io.coins.amountOf d)) :
    ∃ s', addOutput s io = .ok s' ∧ s'.bank.WellFormed ∧
      ∀ d, s'.bank.total d = s.bank.total d + io.coins.amountOf d := by
  have hnodup : (io.coins.map Coin.denom).Nodup := List.pairwise_map.mpr (BankState.denoms_ne hv)
  obtain ⟨b, hb⟩ := BankState.addCoins_total (b := s.bank) (a := a) hv (fun c hc => by
    have hnn := hw.nonneg a c.denom
    have hle := hw.balance_le a c.denom
    have hpos := (hv.1 c hc).2
    have hfit := hf c.denom
    rw [Coins.amountOf_of_mem hnodup hc] at hfit
    exact ⟨hnn, SdkInt.fits_of_le (by omega) (by omega) hfit⟩)
  exact ⟨_, bind_eq_ok.mpr ⟨a, ha, bind_eq_ok.mpr ⟨b, hb, rfl⟩⟩, hw.addCoins hb,
    (BankState.addCoins_ok hb).2.2.1⟩

theorem addOutputs_total {outputs : List InOut} (hw : s.bank.WellFormed)
    (hv : ∀ io ∈ outputs, io.coins.IsValid ∧ ∃ a : Addr, bech32 io.address = .ok a)
    (hf : ∀ d, SdkInt.Fits (s.bank.total d + ioTotal outputs d)) :
    ∃ s', outputs.foldlM addOutput s = .ok s' := by
  induction outputs generalizing s with
  | nil => exact ⟨s, rfl⟩
  | cons io outputs ih =>
    obtain ⟨hio, a, ha⟩ := hv io (List.mem_cons_self ..)
    have hrest : ∀ x ∈ outputs, x.coins.IsValid ∧ ∃ a : Addr, bech32 x.address = .ok a :=
      fun x hx => hv x (List.mem_cons_of_mem _ hx)
    have hnn : ∀ d, 0 ≤ s.bank.total d := fun d =>
      (hw.nonneg a d).trans (hw.balance_le a d)
    have htotal : ∀ d, 0 ≤ ioTotal outputs d := fun d => by
      refine List.sum_nonneg (fun x hx => ?_)
      obtain ⟨y, hy, rfl⟩ := List.mem_map.mp hx
      exact Coins.amountOf_nonneg (fun c hc => ((hrest y hy).1.1 c hc).2.le) d
    obtain ⟨t, ht, htw, htt⟩ := addOutput_total hw ha hio (fun d => by
      have hfd := hf d
      rw [ioTotal_cons] at hfd
      have h1 := hnn d
      have h2 := Coins.amountOf_nonneg (fun c hc => (hio.1 c hc).2.le) d
      have h3 := htotal d
      exact SdkInt.fits_of_le (by omega) (by omega) hfd)
    obtain ⟨s', hs'⟩ := ih htw hrest (fun d => by
      have hfd := hf d
      rw [ioTotal_cons, ← add_assoc, ← htt] at hfd
      exact hfd)
    exact ⟨s', foldlM_cons_ok.mpr ⟨t, ht, hs'⟩⟩

/-- **A multi-send of one sender succeeds** when the sender can spend the coins, and the outputs are
valid and add up to them. -/
theorem inputOutputCoins_total {ctx : Context} {a : Addr} {amt : Coins} {outputs : List InOut}
    (hw : s.bank.WellFormed) (hroom : ∀ d, SdkInt.Fits (s.bank.total d))
    (hamt : amt.IsValid) (hne : amt ≠ [])
    (hfunds : ∀ c ∈ amt, c.amount ≤ s.spendableCoins ctx a c.denom)
    (hv : ∀ io ∈ outputs, (io.coins.IsValid ∧ io.coins ≠ []) ∧
      ∃ a : Addr, bech32 io.address = .ok a)
    (htotal : ∀ d, ioTotal outputs d = amt.amountOf d) :
    ∃ s', inputOutputCoins ctx s [⟨SdkAddress.str a, amt⟩] outputs = .ok s' := by
  have ha : bech32 (SdkAddress.str a) = .ok a := by
    unfold bech32
    rw [SdkAddress.fromBech32_str]
  have hbasic : ∀ io : InOut, (io.coins.IsValid ∧ io.coins ≠ []) →
      (∃ a : Addr, bech32 io.address = .ok a) → validateBasic Addr io = .ok () := by
    intro io hio hio'
    obtain ⟨x, hx⟩ := hio'
    refine bind_eq_ok.mpr ⟨x, hx, if_neg ?_⟩
    rw [not_or, not_not]
    exact hio
  have hvalidate : validateInputsOutputs Addr [⟨SdkAddress.str a, amt⟩] outputs = .ok () := by
    have h1 := mapM_of (g := validateBasic Addr) (v := fun _ => ())
      (l := [⟨SdkAddress.str a, amt⟩]) (fun io hio => by
        rw [List.mem_singleton.mp hio]
        exact hbasic _ ⟨hamt, hne⟩ ⟨a, ha⟩)
    have h2 := mapM_of (g := validateBasic Addr) (v := fun _ => ()) (l := outputs)
      (fun io hio => hbasic io (hv io hio).1 (hv io hio).2)
    refine bind_eq_ok.mpr ⟨_, h1, bind_eq_ok.mpr ⟨_, h2, if_pos (fun d _ => ?_)⟩⟩
    rw [ioTotal_cons, htotal]
    exact add_zero _
  obtain ⟨b, hb⟩ := BankState.subUnlockedCoins_total (b := s.bank) (a := a) hamt
    (s.lockedCoins_nonneg ctx a)
    (fun c hc => ⟨hfunds c hc, SdkInt.fits_of_le (hw.nonneg a c.denom) (hw.balance_le a c.denom)
      (hroom c.denom)⟩)
  obtain ⟨_, _, htot, _⟩ := BankState.subUnlockedCoins_ok hb
  have hin : subInput ctx s ⟨SdkAddress.str a, amt⟩ = .ok { s with bank := b } :=
    bind_eq_ok.mpr ⟨a, ha, bind_eq_ok.mpr ⟨b, hb, rfl⟩⟩
  have hcredit : ∃ s', outputs.foldlM addOutput { s with bank := b } = .ok s' := by
    refine addOutputs_total (hw.subUnlockedCoins hb)
      (fun io hio => ⟨(hv io hio).1.1, (hv io hio).2⟩) (fun d => ?_)
    show SdkInt.Fits (b.total d + _)
    rw [htot, htotal, sub_add_cancel]
    exact hroom d
  obtain ⟨s', hs'⟩ := hcredit
  exact ⟨s', bind_eq_ok.mpr ⟨(), hvalidate, bind_eq_ok.mpr
    ⟨_, foldlM_cons_ok.mpr ⟨_, hin, foldlM_nil_ok.mpr rfl⟩, hs'⟩⟩⟩

end App

end MeChain
