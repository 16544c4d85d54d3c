import MeChain.Lib.Loop
import MeChain.Lib.Wire
import MeChain.Sdk

/-!
# Reading the wire format: integers, slices, varints

The four generated files of `x/checkin/types` carry the same reading code under four suffixes (`Tx`,
`Genesis`, `Params`, `Query`).  It works on a byte slice and an index of type `int`, which wraps
around when a sum does not fit.

* `int`, `byteAt`, `slice`  the integers and the slices, with their panics;
* `readVarint`        the loop `for shift := uint(0); ; shift += 7`, wherever it stands;
* `readVarint_cases`  it reads the varint the bytes begin with and returns an error when there is
  none of ten bytes or fewer; `readVarint_word` is the same for a varint that is known to be there.
-/

namespace MeChain.Proto
open Loop Varint Wire

/-! ## integers and slices -/

/-- a sum or a conversion of type `int` -/
def int (n : ℤ) : ℤ := n.bmod (2 ^ 64)

/-- a conversion to `int32` -/
def int32 (n : ℤ) : ℤ := n.bmod (2 ^ 32)

theorem int_of_small {n : ℤ} (h0 : 0 ≤ n) (h : n < 2 ^ 63) : int n = n := by
  unfold int
  rw [Int.bmod_eq_of_le] <;> omega

theorem int_lt (n : ℤ) : int n < 2 ^ 63 := by
  have h : n.bmod (2 ^ 64) < ((2 ^ 64 : ℕ) + 1) / 2 := Int.bmod_lt (by decide)
  exact lt_of_lt_of_le h (by norm_num)

theorem int_word {n : ℕ} (h : n < 2 ^ 64) : int n = n ∧ n < 2 ^ 63 ∨ int n < 0 ∧ 2 ^ 63 ≤ n := by
  unfold int
  by_cases hn : n < 2 ^ 63
  · exact .inl ⟨Int.bmod_eq_of_le (by omega) (by omega), hn⟩
  · rw [Int.bmod_def]
    exact .inr ⟨by omega, by omega⟩

/-- The sum of two lengths is itself or wraps around to a negative number. -/
theorem int_add {a b : ℤ} (ha : 0 ≤ a ∧ a < 2 ^ 63) (hb : 0 ≤ b ∧ b < 2 ^ 63) :
    int (a + b) = a + b ∧ a + b < 2 ^ 63 ∨ int (a + b) < 0 ∧ 2 ^ 63 ≤ a + b := by
  unfold int
  by_cases hn : a + b < 2 ^ 63
  · exact .inl ⟨Int.bmod_eq_of_le (by omega) (by omega), hn⟩
  · rw [Int.bmod_def]
    exact .inr ⟨by omega, by omega⟩

def byteAt (dAtA : List UInt8) (i : ℤ) : Res UInt8 :=
  if 0 ≤ i ∧ i < dAtA.length then .ok (dAtA.getD i.toNat 0) else goPanic "index out of range"

/-- `dAtA[i:j]` -/
def slice (dAtA : List UInt8) (i j : ℤ) : Res (List UInt8) :=
  if 0 ≤ i ∧ i ≤ j ∧ j ≤ dAtA.length then .ok ((dAtA.drop i.toNat).take (j - i).toNat)
  else goPanic "slice bounds out of range"

theorem length_split (pre rest : List UInt8) :
    ((pre ++ rest).length : ℤ) = pre.length + rest.length := by
  rw [List.length_append]
  exact Nat.cast_add _ _

theorem byteAt_append (pre rest : List UInt8) (b : UInt8) :
    byteAt (pre ++ b :: rest) pre.length = .ok b := by
  have hlt : (pre.length : ℤ) < ((pre ++ b :: rest).length : ℤ) := by
    rw [List.length_append, List.length_cons]
    omega
  unfold byteAt
  rw [if_pos ⟨by omega, hlt⟩]
  simp

theorem slice_append (pre bs rest : List UInt8) :
    slice (pre ++ bs ++ rest) pre.length (pre ++ bs).length = .ok bs := by
  have hle : ((pre ++ bs).length : ℤ) ≤ ((pre ++ bs ++ rest).length : ℤ) := by
    rw [length_split (pre ++ bs) rest]
    omega
  unfold slice
  rw [if_pos ⟨by omega, by rw [List.length_append]; omega, hle⟩, List.append_assoc]
  have hn : (((pre ++ bs).length : ℤ) - (pre.length : ℤ)).toNat = bs.length := by
    rw [List.length_append]
    omega
  rw [hn]
  simp

/-! ## the errors -/

section
variable {α : Type}

/-- `ErrIntOverflow` -/
def errIntOverflow : Res α := goError .other "proto: integer overflow"

/-- `ErrInvalidLength` -/
def errInvalidLength : Res α := goError .other "proto: negative length found during unmarshaling"

/-- `ErrUnexpectedEndOfGroup` -/
def errUnexpectedEndOfGroup : Res α := goError .other "proto: unexpected end of group"

/-- `io.ErrUnexpectedEOF` -/
def errUnexpectedEOF : Res α := goError .other "unexpected EOF"

/-- an error was returned -/
def Refused (r : Res α) : Prop := ∃ e, r = .error (.error e)

theorem refused_goError (kind : ErrKind) (msg : String) : Refused (goError kind msg : Res α) :=
  ⟨⟨kind, msg⟩, rfl⟩

end

/-! ## varints -/

structure VarintState where
  shift : ℕ
  iNdEx : ℤ
  wire : UInt64

/-- one pass of the loop: the next byte, whose seven low bits go in at `shift` -/
def varintStep (dAtA : List UInt8) (s : VarintState) : Res (Turn VarintState (UInt64 × ℤ)) :=
  if 64 ≤ s.shift then errIntOverflow
  else if (dAtA.length : ℤ) ≤ s.iNdEx then errUnexpectedEOF
  else do
    let b ← byteAt dAtA s.iNdEx
    let iNdEx := int (s.iNdEx + 1)
    let wire := s.wire ||| ((b &&& 0x7F).toUInt64 <<< UInt64.ofNat s.shift)
    if b < 0x80 then .ok (.done (wire, iNdEx)) else .ok (.again ⟨s.shift + 7, iNdEx, wire⟩)

/-- The loop that reads a varint at `iNdEx`, with the word it read and the index behind it.  Where the
source collects the bits in an `int`, its value is `int` of the word: the bits are the same. -/
def readVarint (dAtA : List UInt8) (iNdEx : ℤ) : Res (UInt64 × ℤ) :=
  loop (varintStep dAtA) (.panic "out of passes") 11 ⟨0, iNdEx, 0⟩

/-- the low seven bits of a byte put in above a word of `7 * k` bits -/
theorem toNat_or_shift {w : UInt64} {b : UInt8} {k : ℕ} (hk : k ≤ 9) (hw : w.toNat < 2 ^ (7 * k)) :
    (w ||| ((b &&& 0x7F).toUInt64 <<< UInt64.ofNat (7 * k))).toNat =
      (w.toNat + 2 ^ (7 * k) * (b.toNat % 128)) % 2 ^ 64 := by
  have hb : (b &&& 0x7F).toNat = b.toNat % 128 := by
    rw [UInt8.toNat_and]
    exact Nat.and_two_pow_sub_one_eq_mod b.toNat 7
  have hs : (UInt64.ofNat (7 * k)).toNat % 64 = 7 * k := by
    rw [UInt64.toNat_ofNat']
    omega
  have hle : 2 ^ (7 * k) ≤ 2 ^ 64 := Nat.pow_le_pow_right (by decide) (by omega)
  have hor := Nat.two_pow_add_eq_or_of_lt hw (b.toNat % 128)
  rw [UInt64.toNat_or, UInt64.toNat_shiftLeft, UInt8.toNat_toUInt64, hb, hs,
    Nat.shiftLeft_eq, Nat.add_comm w.toNat, hor, Nat.or_comm, Nat.mul_comm (b.toNat % 128),
    Nat.or_mod_two_pow, Nat.mod_eq_of_lt (lt_of_lt_of_le hw hle)]

theorem varintStep_end {dAtA : List UInt8} {k : ℕ} {w : UInt64} :
    ∃ r, Refused r ∧ Runs (varintStep dAtA) ⟨7 * k, dAtA.length, w⟩ r := by
  by_cases hk : 64 ≤ 7 * k
  · exact ⟨_, refused_goError _ _, .fails (if_pos hk)⟩
  · refine ⟨errUnexpectedEOF, refused_goError _ _, .fails ?_⟩
    unfold varintStep
    rw [if_neg hk, if_pos (le_refl _)]
    rfl

theorem varintStep_cons {pre rest : List UInt8} {b : UInt8} {k : ℕ} {w : UInt64} (hk : k ≤ 9)
    (hfit : (pre ++ b :: rest).length < 2 ^ 63) :
    varintStep (pre ++ b :: rest) ⟨7 * k, pre.length, w⟩ =
      let wire := w ||| ((b &&& 0x7F).toUInt64 <<< UInt64.ofNat (7 * k))
      if b < 0x80 then .ok (.done (wire, (pre ++ [b]).length))
      else .ok (.again ⟨7 * (k + 1), (pre ++ [b]).length, wire⟩) := by
  rw [List.length_append, List.length_cons] at hfit
  have hlt : ¬ ((pre ++ b :: rest).length : ℤ) ≤ pre.length := by
    rw [List.length_append, List.length_cons]
    omega
  have hi : int ((pre.length : ℤ) + 1) = (pre ++ [b]).length := by
    rw [int_of_small (by omega) (by omega), List.length_append, List.length_singleton]
    rfl
  unfold varintStep
  rw [if_neg (by simp only; omega), if_neg hlt]
  simp only [byteAt_append, Fallible.ok_bind, hi, Nat.mul_succ]

/-- The loop entered after `k` bytes: it reads the rest of the varint, or there is no varint with at
most ten bytes and it returns an error. -/
theorem varint_runs (rest pre : List UInt8) {k : ℕ} {w : UInt64} (hk : k ≤ 10)
    (hw : k ≤ 9 → w.toNat < 2 ^ (7 * k)) (hfit : (pre ++ rest).length < 2 ^ 63) :
    (∃ ws n rest' v, rest = ws ++ rest' ∧ Spells ws n ∧ k + ws.length ≤ 10 ∧
      v.toNat = (w.toNat + 2 ^ (7 * k) * n) % 2 ^ 64 ∧
      Runs (varintStep (pre ++ rest)) ⟨7 * k, pre.length, w⟩ (.ok (v, (pre ++ ws).length))) ∨
    ((∀ ws n rest', rest = ws ++ rest' → Spells ws n → 10 < k + ws.length) ∧
      ∃ r, Refused r ∧ Runs (varintStep (pre ++ rest)) ⟨7 * k, pre.length, w⟩ r) := by
  induction rest generalizing pre k w with
  | nil =>
    refine .inr ⟨fun ws n rest' he hs => ?_, ?_⟩
    · have hnil := (List.append_eq_nil_iff.mp he.symm).1
      exact absurd hnil hs.ne_nil
    · rw [List.append_nil]
      exact varintStep_end
  | cons b rest ih =>
    by_cases hk' : k = 10
    · refine .inr ⟨fun ws n rest' _ hs => ?_, ?_⟩
      · have hp := hs.length_pos
        omega
      · exact ⟨_, refused_goError _ _, .fails (if_pos (by simp only; omega))⟩
    · have hk9 : k ≤ 9 := by omega
      have hstep := varintStep_cons (w := w) hk9 hfit
      have hv := toNat_or_shift (b := b) hk9 (hw hk9)
      by_cases hb : b < 0x80
      · have hb' : b.toNat < 128 := UInt8.lt_iff_toNat_lt.mp hb
        rw [Nat.mod_eq_of_lt hb'] at hv
        refine .inl ⟨[b], b.toNat, rest, _, rfl, .last hb', by simp; omega, hv, .done ?_⟩
        rw [hstep]
        exact if_pos hb
      · have hb' : 128 ≤ b.toNat := Nat.le_of_not_lt fun h => hb (UInt8.lt_iff_toNat_lt.mpr h)
        have hagain := hstep.trans (if_neg hb)
        have hsplit : pre ++ b :: rest = (pre ++ [b]) ++ rest := by simp
        have hpow : 2 ^ (7 * (k + 1)) = 2 ^ (7 * k) * 128 := by rw [Nat.mul_succ, Nat.pow_add]
        have hw' : k + 1 ≤ 9 → (w ||| ((b &&& 0x7F).toUInt64 <<< UInt64.ofNat (7 * k))).toNat <
            2 ^ (7 * (k + 1)) := by
          intro hk8
          have hle : 2 ^ (7 * (k + 1)) ≤ 2 ^ 63 := Nat.pow_le_pow_right (by decide) (by omega)
          have hlt : w.toNat + 2 ^ (7 * k) * (b.toNat % 128) < 2 ^ (7 * (k + 1)) := by
            have h127 : 2 ^ (7 * k) * (b.toNat % 128) ≤ 2 ^ (7 * k) * 127 :=
              Nat.mul_le_mul_left _ (by omega)
            have := hw hk9
            omega
          rw [hv, Nat.mod_eq_of_lt (by omega)]
          exact hlt
        rw [hsplit] at hfit hagain ⊢
        rcases ih (pre ++ [b]) (by omega) hw' hfit with h | h
        · obtain ⟨ws, n, rest', v, rfl, hs, hlen, hval, hr⟩ := h
          refine .inl ⟨b :: ws, b.toNat % 128 + 128 * n, rest', v, rfl, .more hb' hs,
            by rw [List.length_cons]; omega, ?_, ?_⟩
          · rw [hval, hv, hpow, Nat.mod_add_mod]
            congr 1
            ring
          · have hpre : pre ++ [b] ++ ws = pre ++ b :: ws := by simp
            rw [hpre] at hr
            exact .again hagain hr
        · obtain ⟨hno, r, hr, hruns⟩ := h
          refine .inr ⟨fun ws n rest' he hs => ?_, r, hr, .again hagain hruns⟩
          cases hs with
          | last hlast =>
            cases he
            omega
          | more _ hs =>
            cases he
            have := hno _ _ rest' rfl hs
            rw [List.length_cons]
            omega

theorem readVarint_eq_iff {dAtA : List UInt8} {iNdEx : ℤ} {r : Res (UInt64 × ℤ)} :
    readVarint dAtA iNdEx = r ↔ Runs (varintStep dAtA) ⟨0, iNdEx, 0⟩ r := by
  refine loop_eq_iff (fun s => (70 - s.shift) / 7) (I := fun _ => True) ?_ trivial (by simp)
  intro s s' _ hs
  unfold varintStep at hs
  split at hs
  · cases hs
  · split at hs
    · cases hs
    · obtain ⟨b, _, hs⟩ := Fallible.bind_eq_ok.mp hs
      simp only at hs
      split at hs
      · cases hs
      · cases hs
        exact ⟨trivial, by simp only; omega⟩

theorem readVarint_cases (pre rest : List UInt8) (hfit : (pre ++ rest).length < 2 ^ 63) :
    (∃ ws v rest', rest = ws ++ rest' ∧ Word ws v.toNat ∧
      readVarint (pre ++ rest) pre.length = .ok (v, (pre ++ ws).length)) ∨
    ((∀ ws v rest', rest = ws ++ rest' → ¬ Word ws v) ∧
      Refused (readVarint (pre ++ rest) pre.length)) := by
  rcases varint_runs rest pre (k := 0) (w := 0) (by omega) (by simp) hfit with h | h
  · obtain ⟨ws, n, rest', v, he, hs, hlen, hv, hr⟩ := h
    exact .inl ⟨ws, v, rest', he, ⟨n, hs, by omega, by simpa using hv⟩, readVarint_eq_iff.mpr hr⟩
  · obtain ⟨hno, r, hr, hruns⟩ := h
    refine .inr ⟨fun ws v rest' he hw => ?_, by rwa [readVarint_eq_iff.mpr hruns]⟩
    obtain ⟨n, hs, hlen, _⟩ := hw
    have := hno ws n rest' he hs
    omega

theorem readVarint_word {pre ws rest : List UInt8} {v : ℕ} (h : Word ws v)
    (hfit : (pre ++ ws ++ rest).length < 2 ^ 63) :
    ∃ u : UInt64, u.toNat = v ∧
      readVarint (pre ++ ws ++ rest) pre.length = .ok (u, (pre ++ ws).length) := by
  rw [List.append_assoc] at hfit ⊢
  rcases readVarint_cases pre (ws ++ rest) hfit with hr | hr
  · obtain ⟨ws', u, rest', he, hw, hr⟩ := hr
    obtain ⟨rfl, rfl, rfl⟩ := h.unique hw he
    exact ⟨u, rfl, hr⟩
  · exact absurd h (hr.1 ws v rest rfl)

end MeChain.Proto
