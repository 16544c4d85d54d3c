import Mathlib.Data.Nat.Size
import Mathlib.Data.List.Basic
import Mathlib.Tactic.Ring

/-!
# Varints

A varint spells a number in groups of seven bits, the lowest group first; every byte but the last
has its top bit set.

* `Spells`          the bytes of a varint and the number they spell;
* `Spells.unique`   a byte string begins with at most one varint;
* `encode`          the shortest varint of a number, with its length (`length_encode`);
* `decode`          the number a list begins with, and how many bytes spell it;
* `Word`            a varint read into a 64-bit word: ten bytes at most, the value modulo `2 ^ 64`.
-/

namespace Varint

inductive Spells : List UInt8 → Nat → Prop
  | last {b : UInt8} : b.toNat < 128 → Spells [b] b.toNat
  | more {b : UInt8} {bs : List UInt8} {n : Nat} : 128 ≤ b.toNat → Spells bs n →
      Spells (b :: bs) (b.toNat % 128 + 128 * n)

theorem Spells.ne_nil {bs : List UInt8} {n : Nat} (h : Spells bs n) : bs ≠ [] := by
  cases h <;> simp

theorem Spells.length_pos {bs : List UInt8} {n : Nat} (h : Spells bs n) : 0 < bs.length :=
  List.length_pos_of_ne_nil h.ne_nil

/-- The byte with the clear top bit ends the varint, so two varints at the same place are the same. -/
theorem Spells.unique {bs bs' rest rest' : List UInt8} {n n' : Nat} (h : Spells bs n)
    (h' : Spells bs' n') (he : bs ++ rest = bs' ++ rest') : bs = bs' ∧ n = n' ∧ rest = rest' := by
  induction h generalizing bs' n' with
  | last hb =>
    cases h' with
    | last hb' =>
      cases he
      exact ⟨rfl, rfl, rfl⟩
    | more hb' _ =>
      cases he
      omega
  | more hb hs ih =>
    cases h' with
    | last hb' =>
      cases he
      omega
    | more hb' hs' =>
      rw [List.cons_append, List.cons_append, List.cons.injEq] at he
      obtain ⟨rfl, he⟩ := he
      obtain ⟨rfl, rfl, rfl⟩ := ih hs' he
      exact ⟨rfl, rfl, rfl⟩

theorem Spells.lt_pow {bs : List UInt8} {n : Nat} (h : Spells bs n) : n < 128 ^ bs.length := by
  induction h with
  | last hb => simpa using hb
  | more _ _ ih =>
    rw [List.length_cons, Nat.pow_succ]
    omega

/-- the number at the front of a list and the bytes that spell it -/
def decode : List UInt8 → Option (Nat × Nat)
  | [] => none
  | b :: bs =>
    if b.toNat < 128 then some (b.toNat, 1)
    else (decode bs).map fun r => (b.toNat % 128 + 128 * r.1, r.2 + 1)

theorem Spells.decode_append {bs : List UInt8} {n : Nat} (h : Spells bs n) (rest : List UInt8) :
    decode (bs ++ rest) = some (n, bs.length) := by
  induction h with
  | last hb =>
    rw [List.singleton_append, decode, if_pos hb]
    rfl
  | more hb _ ih =>
    rw [List.cons_append, decode, if_neg (by omega), ih]
    rfl

/-! ## the shortest spelling -/

def encode (n : Nat) : List UInt8 :=
  if n < 128 then [UInt8.ofNat n] else UInt8.ofNat (n % 128 + 128) :: encode (n / 128)
termination_by n

theorem encode_small {n : Nat} (h : n < 128) : encode n = [UInt8.ofNat n] := by
  rw [encode, if_pos h]

theorem encode_large {n : Nat} (h : 128 ≤ n) :
    encode n = UInt8.ofNat (n % 128 + 128) :: encode (n / 128) := by
  rw [encode, if_neg (by omega)]

theorem spells_encode (n : Nat) : Spells (encode n) n := by
  induction n using encode.induct with
  | case1 n h =>
    have hb : (UInt8.ofNat n).toNat = n := by
      rw [UInt8.toNat_ofNat']
      omega
    have hs : Spells [UInt8.ofNat n] (UInt8.ofNat n).toNat := .last (by omega)
    rw [encode_small h]
    rwa [hb] at hs
  | case2 n h ih =>
    have hb : (UInt8.ofNat (n % 128 + 128)).toNat = n % 128 + 128 := by
      rw [UInt8.toNat_ofNat']
      omega
    have hs := Spells.more (b := UInt8.ofNat (n % 128 + 128)) (by omega) ih
    have hn : (n % 128 + 128) % 128 + 128 * (n / 128) = n := by omega
    rw [encode_large (by omega)]
    rwa [hb, hn] at hs

theorem length_encode_pos (n : Nat) : 0 < (encode n).length := (spells_encode n).length_pos

/-- `k + 1` bytes are enough exactly for the numbers below `128 ^ (k + 1)`. -/
theorem length_encode_le_iff (n k : Nat) : (encode n).length ≤ k + 1 ↔ n < 128 ^ (k + 1) := by
  induction k generalizing n with
  | zero =>
    by_cases h : n < 128
    · simp [encode_small h, h]
    · have hp := length_encode_pos (n / 128)
      rw [encode_large (by omega), List.length_cons]
      omega
  | succ k ih =>
    by_cases h : n < 128
    · have hp : 128 ^ 1 ≤ 128 ^ (k + 1 + 1) := Nat.pow_le_pow_right (by decide) (by omega)
      rw [encode_small h, List.length_singleton]
      omega
    · rw [encode_large (by omega), List.length_cons, Nat.add_le_add_iff_right, ih,
        Nat.div_lt_iff_lt_mul (by decide), Nat.pow_succ 128 (k + 1)]

theorem length_encode_mono {m n : Nat} (h : m ≤ n) : (encode m).length ≤ (encode n).length := by
  obtain ⟨k, hk⟩ := Nat.exists_eq_succ_of_ne_zero (length_encode_pos n).ne'
  have hn : n < 128 ^ (k + 1) := (length_encode_le_iff n k).mp hk.le
  rw [hk]
  exact (length_encode_le_iff m k).mpr (by omega)

theorem Spells.length_encode_le {bs : List UInt8} {n : Nat} (h : Spells bs n) :
    (encode n).length ≤ bs.length := by
  obtain ⟨k, hk⟩ := Nat.exists_eq_succ_of_ne_zero h.length_pos.ne'
  have hn : n < 128 ^ bs.length := h.lt_pow
  rw [hk] at hn ⊢
  exact (length_encode_le_iff n k).mpr hn

/-- the length of the shortest spelling from the bit length of the number -/
theorem length_encode (n : Nat) : (encode n).length = (Nat.size (n ||| 1) + 6) / 7 := by
  have hor (k : Nat) : n ||| 1 < 2 ^ (7 * (k + 1)) ↔ n < 2 ^ (7 * (k + 1)) := by
    have hone : 1 < 2 ^ (7 * (k + 1)) := Nat.one_lt_two_pow (by omega)
    constructor
    · exact fun h => lt_of_le_of_lt Nat.left_le_or h
    · exact fun h => Nat.or_lt_two_pow h hone
  have hsize : 0 < Nat.size (n ||| 1) := by
    rw [Nat.size_pos]
    exact lt_of_lt_of_le Nat.one_pos Nat.right_le_or
  have hle (k : Nat) : (encode n).length ≤ k + 1 ↔ (Nat.size (n ||| 1) + 6) / 7 ≤ k + 1 := by
    have hp : (128 : Nat) ^ (k + 1) = 2 ^ (7 * (k + 1)) := by
      rw [Nat.pow_mul]
    rw [length_encode_le_iff, hp, ← hor, ← Nat.size_le]
    omega
  obtain ⟨k, hk⟩ := Nat.exists_eq_succ_of_ne_zero (length_encode_pos n).ne'
  obtain ⟨j, hj⟩ : ∃ j, (Nat.size (n ||| 1) + 6) / 7 = j + 1 :=
    ⟨(Nat.size (n ||| 1) + 6) / 7 - 1, by omega⟩
  have h1 := (hle k).mp hk.le
  have h2 := (hle j).mpr hj.le
  omega

/-! ## words -/

/-- a varint read into a 64-bit word -/
def Word (bs : List UInt8) (v : Nat) : Prop :=
  ∃ n, Spells bs n ∧ bs.length ≤ 10 ∧ v = n % 2 ^ 64

theorem Word.length_pos {bs : List UInt8} {v : Nat} (h : Word bs v) : 0 < bs.length := by
  obtain ⟨n, hs, _, _⟩ := h
  exact hs.length_pos

theorem Word.unique {bs bs' rest rest' : List UInt8} {v v' : Nat} (h : Word bs v)
    (h' : Word bs' v') (he : bs ++ rest = bs' ++ rest') : bs = bs' ∧ v = v' ∧ rest = rest' := by
  obtain ⟨n, hs, _, rfl⟩ := h
  obtain ⟨n', hs', _, rfl⟩ := h'
  obtain ⟨rfl, rfl, rfl⟩ := hs.unique hs' he
  exact ⟨rfl, rfl, rfl⟩

theorem Word.length_encode_le {bs : List UInt8} {v : Nat} (h : Word bs v) :
    (encode v).length ≤ bs.length := by
  obtain ⟨n, hs, _, rfl⟩ := h
  exact (length_encode_mono (Nat.mod_le _ _)).trans hs.length_encode_le

theorem word_encode {v : Nat} (h : v < 2 ^ 64) : Word (encode v) v := by
  refine ⟨v, spells_encode v, ?_, (Nat.mod_eq_of_lt h).symm⟩
  exact (length_encode_le_iff v 9).mpr (lt_of_lt_of_le h (by decide))

end Varint
