import Mathlib.Algebra.Notation.Lemmas
import Mathlib.Order.Interval.Finset.Nat
import MeChain.Upgrade.ClearWay

/-!
# Which addresses and numbers the renumbering takes

* `Occupied`          which addresses and which numbers are taken after any run;
* `Occupied.step`     one visit, whatever stands in the way;
* `Occupied.clear`    a run that ends in a consistent numbering had a clear way.

A consistent numbering has as many index entries as accounts.  Every move that meets an obstacle
leaves one entry too many, and no later move takes one away.
-/

set_option linter.unusedSectionVars false

namespace MeChain
open Fallible

variable {Addr : Type} [SdkAddress Addr] [DecidableEq Addr]

/-! ## what is taken -/

/-- the addresses and the numbers that are taken after the accounts of a listing were visited -/
structure Occupied (s0 : AuthState Addr) (done : List (Account Addr)) (t : AuthState Addr) :
    Prop where
  counter : ∃ moved dropped, t.globalAccountNumber = s0.globalAccountNumber + moved + dropped ∧
    ((∃ b ∈ done, b.accountNumber = 2) ∧ moved = 1 ∨
      (∀ b ∈ done, b.accountNumber ≠ 2) ∧ moved = 0) ∧
    (Dropped s0 done ∧ dropped = 1 ∨ ¬ Dropped s0 done ∧ dropped = 0)
  accounts : ∀ x, t.numberOf x ≠ none ↔ s0.numberOf x ≠ none ∨
    (∃ b ∈ done, b.accountNumber = 1) ∧ x = meidAdmin Addr ∨ Dropped s0 done ∧ x = airDrop Addr
  index : ∀ n, t.addressOf n ≠ none ↔ s0.addressOf n ≠ none ∨
    (∃ b ∈ done, b.accountNumber = 1) ∧ n = 2 ∨
    s0.globalAccountNumber ≤ n ∧ n < t.globalAccountNumber

section
variable {s0 t : AuthState Addr} {done rest : List (Account Addr)} {a : Account Addr}

theorem Start.below (hs : Start s0 (done ++ a :: rest)) :
    ∀ b, b ∈ done ∨ b ∈ rest ∨ b = a → b.accountNumber < s0.globalAccountNumber := by
  intro b hb
  have hb' : b ∈ done ++ a :: rest := by
    simp only [List.mem_append, List.mem_cons]
    tauto
  exact hs.numbered.below _ _ (AuthState.numberOf_eq_some.mpr ⟨b, hs.listed b hb', rfl⟩)

theorem Start.not_dropped (hs : Start s0 (done ++ a :: rest))
    (ha : a.accountNumber = 3 ∨ a.accountNumber = 2 ∧ s0.globalAccountNumber = 3) :
    ¬ Dropped s0 done := by
  intro hd
  obtain ⟨b, hb, hd⟩ := hd
  have := hs.below b (Or.inl hb)
  have := hs.below a (Or.inr (Or.inr rfl))
  have := (hs.others b (Or.inl hb)).2
  omega

theorem Start.taken (hs : Start s0 (done ++ a :: rest)) :
    s0.numberOf a.address ≠ none ∧ s0.addressOf a.accountNumber ≠ none := by
  have hidx := (hs.numbered.agrees _ _).mpr hs.number
  rw [hs.number, hidx]
  simp

theorem Start.moved_none (hs : Start s0 (done ++ a :: rest)) (n2 : a.accountNumber = 2)
    {moved : Nat} (hm : (∃ b ∈ done, b.accountNumber = 2) ∧ moved = 1 ∨
      (∀ b ∈ done, b.accountNumber ≠ 2) ∧ moved = 0) : moved = 0 := by
  rcases hm with ⟨⟨b, hb, hb2⟩, _⟩ | ⟨_, hm⟩
  · exact absurd (hb2.trans n2.symm) (hs.others b (Or.inl hb)).2
  · exact hm

theorem Occupied.counter_le (h : Occupied s0 done t) :
    s0.globalAccountNumber ≤ t.globalAccountNumber := by
  obtain ⟨moved, dropped, hc, _⟩ := h.counter
  omega

theorem Occupied.step_one (hs : Start s0 (done ++ a :: rest)) (h : Occupied s0 done t)
    (n1 : a.accountNumber = 1)
    (hcount : (renumber t a).globalAccountNumber = t.globalAccountNumber)
    (hN : ∀ x, (renumber t a).numberOf x = if x = a.address then some 2
      else if x = meidAdmin Addr then some 1 else t.numberOf x)
    (hI : ∀ n, (renumber t a).addressOf n = if n = 2 then some a.address
      else if n = 1 then some (meidAdmin Addr) else t.addressOf n) :
    Occupied s0 (done ++ [a]) (renumber t a) := by
  have n2 : a.accountNumber ≠ 2 := by omega
  have hsn : Dropped s0 (done ++ [a]) ↔ Dropped s0 done := by
    rw [Dropped.snoc, or_iff_left (by omega)]
  obtain ⟨moved, dropped, hc, hm, hd⟩ := h.counter
  refine ⟨⟨moved, dropped, hcount.trans hc, ?_, by rw [hsn]; exact hd⟩, fun x => ?_, fun n => ?_⟩
  · rw [exists_snoc, forall_snoc, or_iff_left n2, and_iff_left n2]
    exact hm
  · rw [hN, hsn, exists_snoc]
    by_cases hxa : x = a.address
    · rw [if_pos hxa, hxa]
      exact iff_of_true (by simp) (Or.inl hs.taken.1)
    · by_cases hxm : x = meidAdmin Addr
      · rw [if_neg hxa, if_pos hxm]
        exact iff_of_true (by simp) (Or.inr (Or.inl ⟨Or.inr n1, hxm⟩))
      · rw [if_neg hxa, if_neg hxm, h.accounts]
        simp only [hxm, and_false]
  · rw [hI, hcount, exists_snoc]
    by_cases hn2 : n = 2
    · rw [if_pos hn2]
      exact iff_of_true (by simp) (Or.inr (Or.inl ⟨Or.inr n1, hn2⟩))
    · by_cases hn1 : n = 1
      · rw [if_neg hn2, if_pos hn1, hn1]
        exact iff_of_true (by simp) (Or.inl (n1 ▸ hs.taken.2))
      · rw [if_neg hn2, if_neg hn1, h.index]
        simp only [hn2, and_false]

theorem Occupied.step_move (hs : Start s0 (done ++ a :: rest)) (h : Occupied s0 done t)
    (n2 : a.accountNumber = 2) (h3 : 3 < t.globalAccountNumber)
    (hcount : (renumber t a).globalAccountNumber = t.globalAccountNumber + 1)
    (hN : ∀ x, (renumber t a).numberOf x = if x = a.address then some t.globalAccountNumber
      else t.numberOf x)
    (hI : ∀ n, (renumber t a).addressOf n = if n = t.globalAccountNumber then some a.address
      else t.addressOf n) :
    Occupied s0 (done ++ [a]) (renumber t a) := by
  obtain ⟨moved, dropped, hc, hm, hd⟩ := h.counter
  have hm0 := hs.moved_none n2 hm
  clear hm
  have n1 : a.accountNumber ≠ 1 := by omega
  -- with 3 as the next number the account would have gone through the last branch
  have hc3 : s0.globalAccountNumber ≠ 3 := by
    intro e
    have hno := hs.not_dropped (Or.inr ⟨n2, e⟩)
    rcases hd with ⟨hd, _⟩ | ⟨_, hd⟩
    · exact hno hd
    · omega
  have hsn : Dropped s0 (done ++ [a]) ↔ Dropped s0 done := by
    rw [Dropped.snoc, or_iff_left (by omega)]
  refine ⟨⟨1, dropped, by omega, Or.inl ⟨⟨a, by simp, n2⟩, rfl⟩, by rw [hsn]; exact hd⟩,
    fun x => ?_, fun n => ?_⟩
  · rw [hN, hsn, exists_snoc, or_iff_left n1]
    by_cases hxa : x = a.address
    · rw [if_pos hxa, hxa]
      exact iff_of_true (by simp) (Or.inl hs.taken.1)
    · rw [if_neg hxa]
      exact h.accounts x
  · rw [hI, hcount, exists_snoc, or_iff_left n1]
    by_cases hn : n = t.globalAccountNumber
    · rw [if_pos hn]
      exact iff_of_true (by simp) (Or.inr (Or.inr (by omega)))
    · rw [if_neg hn, h.index]
      exact or_congr_right (or_congr_right (by omega))

theorem Occupied.step_drop (hs : Start s0 (done ++ a :: rest)) (h : Occupied s0 done t) {f : Nat}
    (hf : a.accountNumber = 3 ∧ f = t.globalAccountNumber ∨
      a.accountNumber = 2 ∧ t.globalAccountNumber = 3 ∧ f = 4)
    (hcount : (renumber t a).globalAccountNumber = f + 1)
    (hN : ∀ x, (renumber t a).numberOf x = if x = airDrop Addr then some 3
      else if x = a.address then some f else t.numberOf x)
    (hI : ∀ n, (renumber t a).addressOf n = if n = 3 then some (airDrop Addr)
      else if n = f then some a.address else t.addressOf n) :
    Occupied s0 (done ++ [a]) (renumber t a) := by
  have hbel := hs.below a (Or.inr (Or.inr rfl))
  have hle := h.counter_le
  have n1 : a.accountNumber ≠ 1 := by omega
  have hdrop : a.accountNumber = 3 ∨ a.accountNumber = 2 ∧ s0.globalAccountNumber = 3 := by omega
  have hsn : Dropped s0 (done ++ [a]) := Dropped.snoc.mpr (Or.inr hdrop)
  refine ⟨?_, fun x => ?_, fun n => ?_⟩
  · obtain ⟨moved, dropped, hc, hm, hd⟩ := h.counter
    have hd0 : dropped = 0 := (hd.resolve_left (fun h => hs.not_dropped hdrop h.1)).2
    rw [hd0, add_zero] at hc
    rcases hf with ⟨h3, rfl⟩ | ⟨n2, h3, rfl⟩
    · have n2 : a.accountNumber ≠ 2 := fun h2 => absurd (h3.symm.trans h2) (by decide)
      refine ⟨moved, 1, by rw [hcount, hc], ?_, Or.inl ⟨hsn, rfl⟩⟩
      rw [exists_snoc, forall_snoc, or_iff_left n2, and_iff_left n2]
      exact hm
    · rw [hs.moved_none n2 hm, add_zero] at hc
      exact ⟨1, 1, by rw [hcount, ← hc, h3], Or.inl ⟨⟨a, by simp, n2⟩, rfl⟩, Or.inl ⟨hsn, rfl⟩⟩
  · rw [hN, exists_snoc, or_iff_left n1]
    by_cases hxd : x = airDrop Addr
    · rw [if_pos hxd]
      exact iff_of_true (by simp) (Or.inr (Or.inr ⟨hsn, hxd⟩))
    · by_cases hxa : x = a.address
      · rw [if_neg hxd, if_pos hxa, hxa]
        exact iff_of_true (by simp) (Or.inl hs.taken.1)
      · rw [if_neg hxd, if_neg hxa, h.accounts]
        simp only [hxd, and_false]
  · have htaken := hs.taken.2
    rw [hI, hcount, exists_snoc, or_iff_left n1]
    by_cases hn3 : n = 3
    · rw [if_pos hn3]
      refine iff_of_true (by simp) ?_
      rcases hdrop with h3 | ⟨_, hc3⟩
      · exact Or.inl (by rw [hn3, ← h3]; exact htaken)
      · exact Or.inr (Or.inr (by omega))
    · by_cases hnf : n = f
      · rw [if_neg hn3, if_pos hnf]
        exact iff_of_true (by simp) (Or.inr (Or.inr (by omega)))
      · rw [if_neg hn3, if_neg hnf, h.index]
        exact or_congr_right (or_congr_right (by omega))

theorem Occupied.step_pass (h : Occupied s0 done t) (n1 : a.accountNumber ≠ 1)
    (n2 : a.accountNumber ≠ 2) (n3 : a.accountNumber ≠ 3) : Occupied s0 (done ++ [a]) t := by
  have hsn : Dropped s0 (done ++ [a]) ↔ Dropped s0 done := by
    rw [Dropped.snoc, or_iff_left (by omega)]
  obtain ⟨moved, dropped, hc, hm, hd⟩ := h.counter
  refine ⟨⟨moved, dropped, hc, ?_, by rw [hsn]; exact hd⟩, fun x => ?_, fun n => ?_⟩
  · rw [exists_snoc, forall_snoc, or_iff_left n2, and_iff_left n2]
    exact hm
  · rw [hsn, exists_snoc, or_iff_left n1]
    exact h.accounts x
  · rw [exists_snoc, or_iff_left n1]
    exact h.index n

/-- **One visit**, whatever stands in the way -/
theorem Occupied.step (hs : Start s0 (done ++ a :: rest)) (h : Occupied s0 done t) :
    Occupied s0 (done ++ [a]) (renumber t a) := by
  have hle := h.counter_le
  have ha := hs.below a (Or.inr (Or.inr rfl))
  rcases renumber_spec (s := t) (a := a) (fun h2 => by omega) with ⟨n1, hcount, hN, hI⟩ |
    ⟨n2, h3, hcount, hN, hI⟩ | ⟨f, hf, hcount, hN, hI⟩ | ⟨n1, n2, n3, e⟩
  · exact h.step_one hs n1 hcount hN hI
  · exact h.step_move hs n2 h3 hcount hN hI
  · exact h.step_drop hs hf hcount hN hI
  · rw [e]
    exact h.step_pass n1 n2 n3

end

/-! ## counting -/

def takenAddresses (s : AuthState Addr) : Finset Addr := s.accounts.keys.toFinset

def takenNumbers (s : AuthState Addr) : Finset Nat := s.accountNumbers.keys.toFinset

theorem mem_takenAddresses {s : AuthState Addr} {x : Addr} :
    x ∈ takenAddresses s ↔ s.numberOf x ≠ none := by
  rw [takenAddresses, List.mem_toFinset, ne_eq, numberOf_none, AuthState.getAccount,
    Table.get_eq_none_iff, not_not]

theorem mem_takenNumbers {s : AuthState Addr} {n : Nat} :
    n ∈ takenNumbers s ↔ s.addressOf n ≠ none := by
  rw [takenNumbers, List.mem_toFinset, AuthState.addressOf, ne_eq, Option.map_eq_none_iff,
    Table.get_eq_none_iff, not_not]

/-- a consistent numbering has as many index entries as accounts -/
theorem card_taken {s : AuthState Addr} (h : s.Numbered) :
    (takenAddresses s).card = (takenNumbers s).card := by
  refine Finset.card_bij (fun x _ => (s.numberOf x).getD 0) ?_ ?_ ?_
  · intro x hx
    obtain ⟨n, hn⟩ := Option.ne_none_iff_exists'.mp (mem_takenAddresses.mp hx)
    rw [hn, Option.getD_some, mem_takenNumbers, (h.agrees n x).mpr hn]
    simp
  · intro x hx y hy hxy
    obtain ⟨n, hn⟩ := Option.ne_none_iff_exists'.mp (mem_takenAddresses.mp hx)
    obtain ⟨m, hm⟩ := Option.ne_none_iff_exists'.mp (mem_takenAddresses.mp hy)
    simp only [hn, hm, Option.getD_some] at hxy
    exact h.distinct x y n hn (hxy ▸ hm)
  · intro n hn
    obtain ⟨x, hx⟩ := Option.ne_none_iff_exists'.mp (mem_takenNumbers.mp hn)
    have hx' := (h.agrees n x).mp hx
    exact ⟨x, mem_takenAddresses.mpr (by rw [hx']; simp), by simp only [hx', Option.getD_some]⟩

theorem Occupied.card_addresses {s0 t : AuthState Addr} {l : List (Account Addr)}
    (h : Occupied s0 l t) {m d : Nat}
    (hm : (∃ b ∈ l, b.accountNumber = 1) → s0.numberOf (meidAdmin Addr) = none → m = 1)
    (hd : Dropped s0 l → s0.numberOf (airDrop Addr) = none → d = 1) :
    (takenAddresses t).card ≤ (takenAddresses s0).card + m + d := by
  have hnew : takenAddresses t \ takenAddresses s0 ⊆ (if m = 1 then {meidAdmin Addr} else ∅) ∪
      if d = 1 then {airDrop Addr} else ∅ := by
    intro x hx
    rw [Finset.mem_sdiff, mem_takenAddresses, mem_takenAddresses, not_not, h.accounts] at hx
    obtain ⟨h | ⟨h1, rfl⟩ | ⟨h1, rfl⟩, hx⟩ := hx
    · exact absurd hx h
    · simp [hm h1 hx]
    · simp [hd h1 hx]
  have hcard := (Finset.card_le_card hnew).trans (Finset.card_union_le _ _)
  have hle := Finset.card_le_card_sdiff_add_card (s := takenAddresses t) (t := takenAddresses s0)
  have hm1 : (if m = 1 then {meidAdmin Addr} else ∅ : Finset Addr).card ≤ m := by
    split
    · simp [*]
    · simp
  have hd1 : (if d = 1 then {airDrop Addr} else ∅ : Finset Addr).card ≤ d := by
    split
    · simp [*]
    · simp
  omega

/-- a run takes every number between the two counters, and number 2 when number 1 is moved -/
theorem Occupied.card_numbers {s0 t : AuthState Addr} {l : List (Account Addr)}
    (h : Occupied s0 l t) (hs : s0.Numbered) {y : Nat}
    (hy : y = 0 ∨ y = 1 ∧ (∃ b ∈ l, b.accountNumber = 1) ∧ 3 ≤ s0.globalAccountNumber ∧
      s0.addressOf 2 = none) :
    (takenNumbers s0).card + y + (t.globalAccountNumber - s0.globalAccountNumber)
      ≤ (takenNumbers t).card := by
  have hbelow : ∀ n ∈ takenNumbers s0, n < s0.globalAccountNumber := by
    intro n hn
    obtain ⟨x, hx⟩ := Option.ne_none_iff_exists'.mp (mem_takenNumbers.mp hn)
    exact hs.below x n ((hs.agrees n x).mp hx)
  have hrange : Disjoint (takenNumbers s0)
      (Finset.Ico s0.globalAccountNumber t.globalAccountNumber) := by
    rw [Finset.disjoint_left]
    intro n hn hI
    have := hbelow n hn
    have := (Finset.mem_Ico.mp hI).1
    omega
  have hold : takenNumbers s0 ∪ Finset.Ico s0.globalAccountNumber t.globalAccountNumber
      ⊆ takenNumbers t := by
    intro n hn
    rw [mem_takenNumbers, h.index]
    rcases Finset.mem_union.mp hn with hn | hn
    · exact Or.inl (mem_takenNumbers.mp hn)
    · exact Or.inr (Or.inr (Finset.mem_Ico.mp hn))
  have hcard := Finset.card_union_of_disjoint hrange
  rw [Nat.card_Ico] at hcard
  rcases hy with rfl | ⟨rfl, h1, h3, h2⟩
  · have := Finset.card_le_card hold
    omega
  · have hnot : 2 ∉ takenNumbers s0 ∪ Finset.Ico s0.globalAccountNumber t.globalAccountNumber := by
      rw [Finset.mem_union, mem_takenNumbers, Finset.mem_Ico, h2]
      rintro (hn | hn)
      · exact hn rfl
      · omega
    have htwo : 2 ∈ takenNumbers t :=
      mem_takenNumbers.mpr ((h.index 2).mpr (Or.inr (Or.inl ⟨h1, rfl⟩)))
    have := Finset.card_le_card (Finset.insert_subset htwo hold)
    rw [Finset.card_insert_of_notMem hnot] at this
    omega

theorem Occupied.card_le {s0 t : AuthState Addr} {l : List (Account Addr)} (h : Occupied s0 l t)
    (hs : s0.Numbered) (ht : t.Numbered) {m d y : Nat}
    (hm : (∃ b ∈ l, b.accountNumber = 1) → s0.numberOf (meidAdmin Addr) = none → m = 1)
    (hd : Dropped s0 l → s0.numberOf (airDrop Addr) = none → d = 1)
    (hy : y = 0 ∨ y = 1 ∧ (∃ b ∈ l, b.accountNumber = 1) ∧ 3 ≤ s0.globalAccountNumber ∧
      s0.addressOf 2 = none) :
    y + t.globalAccountNumber ≤ m + d + s0.globalAccountNumber := by
  have hle := h.counter_le
  have hup := h.card_addresses hm hd
  have hlow := h.card_numbers hs hy
  rw [card_taken ht, card_taken hs] at hup
  omega

/-- **Counting.**  If the numbering is consistent after a run, the way was clear. -/
theorem Occupied.clear {s0 t : AuthState Addr} {l : List (Account Addr)} (h : Occupied s0 l t)
    (hs : s0.Numbered) (ht : t.Numbered)
    (h3 : (∃ b ∈ l, b.accountNumber = 1) → 3 ≤ s0.globalAccountNumber)
    (hl : (∃ b ∈ l, b.accountNumber = 1) → s0.addressOf 2 ≠ none → ∃ b ∈ l, b.accountNumber = 2) :
    Clear s0 l := by
  classical
  obtain ⟨moved, dropped, hc, hmoved, hdropped⟩ := h.counter
  let m := if (∃ b ∈ l, b.accountNumber = 1) ∧ s0.numberOf (meidAdmin Addr) = none then 1 else 0
  let d := if Dropped s0 l ∧ s0.numberOf (airDrop Addr) = none then 1 else 0
  have hm1 : m ≤ 1 := ite_le_one (le_refl 1) (Nat.zero_le 1)
  have hd1 : d ≤ dropped := by
    rcases hdropped with ⟨_, rfl⟩ | ⟨hno, rfl⟩
    · exact ite_le_one (le_refl 1) (Nat.zero_le 1)
    · exact (if_neg (fun h => hno h.1)).le
  -- there are no more new accounts than new index entries
  have hle {y : Nat} (hy : y = 0 ∨ y = 1 ∧ (∃ b ∈ l, b.accountNumber = 1) ∧
      3 ≤ s0.globalAccountNumber ∧ s0.addressOf 2 = none) : y + moved + dropped ≤ m + d := by
    have := h.card_le hs ht (m := m) (d := d) (fun h1 h2 => if_pos ⟨h1, h2⟩)
      (fun h1 h2 => if_pos ⟨h1, h2⟩) hy
    clear hmoved hdropped hy
    omega
  have hdrop_one : Dropped s0 l → dropped = 1 := by
    intro hdr
    rcases hdropped with ⟨_, h1⟩ | ⟨hno, _⟩
    · exact h1
    · exact absurd hdr hno
  have hmove_one : (∃ b ∈ l, b.accountNumber = 2) → moved = 1 := by
    intro h2
    obtain ⟨b, hb, hb2⟩ := h2
    rcases hmoved with ⟨_, h1⟩ | ⟨hno, _⟩
    · exact h1
    · exact absurd hb2 (hno b hb)
  have hnod : Dropped s0 l → ¬ s0.getAccount (airDrop Addr) = none → d = 0 :=
    fun _ hne => if_neg (fun h => hne (numberOf_none.mp h.2))
  clear hmoved hdropped
  by_cases h1 : ∃ b ∈ l, b.accountNumber = 1
  · have hy : ∃ y, y + moved + dropped ≤ m + d ∧ 1 ≤ y + moved := by
      cases h2 : s0.addressOf 2 with
      | none => exact ⟨1, hle (Or.inr ⟨rfl, h1, h3 h1, h2⟩), Nat.le_add_right 1 moved⟩
      | some x =>
        have := hmove_one (hl h1 (by rw [h2]; simp))
        exact ⟨0, hle (Or.inl rfl), by rw [this]⟩
    obtain ⟨y, hsum, hone⟩ := hy
    refine ⟨fun _ => ⟨?_, h3 h1⟩, fun _ => h1, fun hdr => ?_⟩
    · by_contra hne
      have hm0 : m = 0 := if_neg (fun h => hne (numberOf_none.mp h.2))
      omega
    · by_contra hne
      have := hnod hdr hne
      have := hdrop_one hdr
      omega
  · have hm0 : m = 0 := if_neg (fun h => h1 h.1)
    have hsum := hle (Or.inl rfl)
    refine ⟨fun h => absurd h h1, fun h2 => ?_, fun hdr => ?_⟩
    · have := hmove_one h2
      omega
    · by_contra hne
      have := hnod hdr hne
      have := hdrop_one hdr
      omega

end MeChain
