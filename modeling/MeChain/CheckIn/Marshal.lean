import MeChain.CheckIn.Decode

/-!
# Encoding a message

The `MarshalToSizedBuffer` methods fill a buffer from its end: each field puts its content in front of
what is already there, then the length, then the key.  What comes out, read forwards, is the plain
concatenation of the fields.

* `Writes w out`      the writer `w` puts `out` in front of its index, touches nothing else, and panics
  exactly when the room in front of the index is too small;
* `Writes.comp`       writers one after the other;
* `writes_putString`  the writer of a string field;
* `marshalSized_ok`, `marshalSized_panics`, `marshalBytes_ok`  the methods around the writers.
-/

namespace MeChain.Proto
open Loop Varint

/-! ## buffers -/

/-- `dAtA[i] = b` -/
def setByte (dAtA : List UInt8) (i : ℤ) (b : UInt8) : Res (List UInt8) :=
  if 0 ≤ i ∧ i < dAtA.length then .ok (dAtA.set i.toNat b) else goPanic "index out of range"

/-- `copy(dAtA[i:], s)` -/
def copyAt (dAtA : List UInt8) (i : ℤ) (s : List UInt8) : Res (List UInt8) :=
  if 0 ≤ i ∧ i ≤ dAtA.length then
    .ok (dAtA.take i.toNat ++ s.take (dAtA.length - i.toNat) ++ dAtA.drop (i.toNat + s.length))
  else goPanic "slice bounds out of range"

/-- `make([]byte, size)` -/
def makeBytes (size : ℤ) : Res (List UInt8) :=
  if 0 ≤ size then .ok (List.replicate size.toNat 0) else goPanic "makeslice: len out of range"

theorem setByte_append (pre post : List UInt8) (a b : UInt8) :
    setByte (pre ++ [a] ++ post) pre.length b = .ok (pre ++ [b] ++ post) := by
  have h1 := length_split (pre ++ [a]) post
  have h2 := length_split pre [a]
  rw [List.length_singleton] at h2
  unfold setByte
  rw [if_pos ⟨by omega, by omega⟩]
  simp

theorem copyAt_append {gap s : List UInt8} (pre post : List UInt8) (h : gap.length = s.length) :
    copyAt (pre ++ gap ++ post) pre.length s = .ok (pre ++ s ++ post) := by
  have h1 := length_split (pre ++ gap) post
  have h2 := length_split pre gap
  have htake : s.take ((pre ++ gap ++ post).length - pre.length) = s := by
    rw [List.take_of_length_le]
    omega
  have hdrop : (pre ++ gap ++ post).drop (pre.length + s.length) = post := by
    rw [← h, ← List.length_append]
    exact List.drop_left
  unfold copyAt
  rw [if_pos ⟨by omega, by omega⟩, Int.toNat_natCast, htake, hdrop]
  simp

/-! ## varints -/

/-- `sov`: the length of the varint of `x` -/
def sov (x : UInt64) : ℤ := (Nat.size (x ||| 1).toNat + 6) / 7

theorem sov_eq (x : UInt64) : sov x = (encode x.toNat).length := by
  have hone : (x ||| 1).toNat = x.toNat ||| 1 := UInt64.toNat_or x 1
  unfold sov
  rw [length_encode, hone]
  norm_cast

structure EncodeState where
  dAtA : List UInt8
  v : UInt64
  offset : ℤ

def encodeVarintStep (s : EncodeState) : Res (Turn EncodeState (List UInt8)) :=
  if 128 ≤ s.v then do
    let dAtA ← setByte s.dAtA s.offset (s.v &&& 0x7f ||| 0x80).toUInt8
    .ok (.again ⟨dAtA, s.v >>> 7, s.offset + 1⟩)
  else do
    let dAtA ← setByte s.dAtA s.offset s.v.toUInt8
    .ok (.done dAtA)

/-- `encodeVarintTx` and its three copies -/
def encodeVarint (dAtA : List UInt8) (offset : ℤ) (v : UInt64) : Res (List UInt8 × ℤ) := do
  let base := offset - sov v
  let dAtA ← loop encodeVarintStep (.panic "out of passes") 11 ⟨dAtA, v, base⟩
  .ok (dAtA, base)

theorem toUInt8_more (v : UInt64) :
    (v &&& 0x7f ||| 0x80).toUInt8 = UInt8.ofNat (v.toNat % 128 + 128) := by
  have hand : v.toNat &&& 127 = v.toNat % 128 := Nat.and_two_pow_sub_one_eq_mod v.toNat 7
  have hor := Nat.two_pow_add_eq_or_of_lt (i := 7) (Nat.mod_lt v.toNat (by decide)) 1
  apply UInt8.toNat_inj.mp
  rw [UInt64.toNat_toUInt8, UInt64.toNat_or, UInt64.toNat_and, UInt8.toNat_ofNat']
  show ((v.toNat &&& 127) ||| 128) % 256 = (v.toNat % 128 + 128) % 256
  rw [hand, Nat.or_comm, Nat.add_comm]
  exact congrArg (· % 256) hor.symm

theorem toUInt8_last (v : UInt64) : v.toUInt8 = UInt8.ofNat v.toNat := by
  apply UInt8.toNat_inj.mp
  rw [UInt64.toNat_toUInt8, UInt8.toNat_ofNat']

theorem encodeVarint_runs (v : UInt64) (pre post : List UInt8) {gap : List UInt8}
    (h : gap.length = (encode v.toNat).length) :
    Runs encodeVarintStep ⟨pre ++ gap ++ post, v, pre.length⟩ (.ok (pre ++ encode v.toNat ++ post)) := by
  generalize hn : v.toNat = n at h ⊢
  induction n using encode.induct generalizing v pre gap with
  | case1 n hlt =>
    rw [encode_small hlt] at h ⊢
    obtain ⟨a, rfl⟩ := List.length_eq_one_iff.mp h
    refine .done ?_
    have hv : ¬ 128 ≤ v := by
      rw [UInt64.le_iff_toNat_le, hn]
      exact Nat.not_le_of_lt hlt
    unfold encodeVarintStep
    simp only
    rw [if_neg hv, setByte_append, toUInt8_last, hn]
    rfl
  | case2 n hlt ih =>
    have hge : 128 ≤ n := by omega
    rw [encode_large hge, List.length_cons] at h
    obtain ⟨a, gap', rfl⟩ := List.exists_cons_of_length_eq_add_one h
    rw [List.length_cons, Nat.add_right_cancel_iff] at h
    have hv : 128 ≤ v := by
      rw [UInt64.le_iff_toNat_le, hn]
      exact hge
    have hdiv : (v >>> 7).toNat = n / 128 := by
      rw [UInt64.toNat_shiftRight, hn, Nat.shiftRight_eq_div_pow]
      rfl
    have hbuf : pre ++ a :: gap' ++ post = pre ++ [a] ++ (gap' ++ post) := by simp
    have hoff : (pre.length : ℤ) + 1 = (pre ++ [(v &&& 0x7f ||| 0x80).toUInt8]).length := by
      rw [length_split]
      rfl
    have hstep : encodeVarintStep ⟨pre ++ a :: gap' ++ post, v, pre.length⟩ =
        .ok (.again ⟨pre ++ [(v &&& 0x7f ||| 0x80).toUInt8] ++ gap' ++ post, v >>> 7,
          (pre ++ [(v &&& 0x7f ||| 0x80).toUInt8]).length⟩) := by
      unfold encodeVarintStep
      simp only
      rw [if_pos hv, hbuf, setByte_append, Fallible.ok_bind, hoff, ← List.append_assoc]
    have hnext := ih (v >>> 7) (pre ++ [(v &&& 0x7f ||| 0x80).toUInt8]) hdiv h
    have hout : pre ++ [(v &&& 0x7f ||| 0x80).toUInt8] ++ encode (n / 128) ++ post =
        pre ++ encode n ++ post := by
      rw [encode_large hge, toUInt8_more, hn]
      simp
    rw [hout] at hnext
    exact .again hstep hnext

/-- the bytes of the shortest varint go in one by one, so they bound the passes -/
theorem encodeVarint_loop (v : UInt64) (dAtA : List UInt8) (offset : ℤ) {r : Res (List UInt8)} :
    loop encodeVarintStep (.panic "out of passes") 11 ⟨dAtA, v, offset⟩ = r ↔
      Runs encodeVarintStep ⟨dAtA, v, offset⟩ r := by
  have hv : (encode v.toNat).length ≤ 10 := by
    obtain ⟨n, _, hle, _⟩ := word_encode (UInt64.toNat_lt v)
    exact hle
  refine loop_eq_iff (I := fun _ => True) (fun s => (encode s.v.toNat).length) ?_ trivial
    (by simp only; omega)
  intro s s' _ hs
  unfold encodeVarintStep at hs
  split at hs
  · rename_i h128
    have hge : 128 ≤ s.v.toNat := UInt64.le_iff_toNat_le.mp h128
    obtain ⟨d, _, hs⟩ := Fallible.bind_eq_ok.mp hs
    cases hs
    have hdiv : (s.v >>> 7).toNat = s.v.toNat / 128 := by
      rw [UInt64.toNat_shiftRight, Nat.shiftRight_eq_div_pow]
      rfl
    refine ⟨trivial, ?_⟩
    simp only
    rw [hdiv, encode_large hge, List.length_cons]
    exact Nat.lt_succ_self _
  · obtain ⟨d, _, hs⟩ := Fallible.bind_eq_ok.mp hs
    cases hs

/-! ## writers -/

/-- a buffer and the index down to which it is filled -/
abbrev Buffer := List UInt8 × ℤ

structure Writes (w : Buffer → Res Buffer) (out : List UInt8) : Prop where
  fits : ∀ pre gap post : List UInt8, gap.length = out.length →
    w (pre ++ gap ++ post, ((pre ++ gap).length : ℤ)) = .ok (pre ++ out ++ post, (pre.length : ℤ))
  overruns : ∀ (dAtA : List UInt8) (i : ℤ), 0 ≤ i → i ≤ dAtA.length → i < out.length →
    isPanic (w (dAtA, i)) = true

theorem isPanic_bind {α β : Type} {x : Res α} (f : α → Res β) (h : isPanic x = true) :
    isPanic (x >>= f) = true := by
  cases x with
  | ok _ => cases h
  | error a =>
    cases a with
    | error _ => cases h
    | panic _ => rfl

theorem exists_room {dAtA : List UInt8} {i : ℤ} {n : ℕ} (h : i ≤ dAtA.length) (hn : (n : ℤ) ≤ i) :
    ∃ pre gap post : List UInt8, dAtA = pre ++ gap ++ post ∧ i = (pre ++ gap).length ∧
      gap.length = n := by
  refine ⟨dAtA.take (i.toNat - n), (dAtA.drop (i.toNat - n)).take n, dAtA.drop i.toNat, ?_, ?_, ?_⟩
  · have hdrop : dAtA.drop i.toNat = (dAtA.drop (i.toNat - n)).drop n := by
      rw [List.drop_drop]
      congr 1
      omega
    rw [List.append_assoc, hdrop, List.take_append_drop, List.take_append_drop]
  · rw [List.length_append, List.length_take, List.length_take, List.length_drop]
    omega
  · rw [List.length_take, List.length_drop]
    omega

theorem Writes.comp {w₁ w₂ : Buffer → Res Buffer} {o₁ o₂ : List UInt8} (h₁ : Writes w₁ o₁)
    (h₂ : Writes w₂ o₂) : Writes (fun s => w₁ s >>= w₂) (o₂ ++ o₁) where
  fits pre gap post hgap := by
    rw [List.length_append] at hgap
    have hsplit := (List.take_append_drop o₂.length gap).symm
    have ht : (gap.take o₂.length).length = o₂.length := by
      rw [List.length_take]
      omega
    have hd : (gap.drop o₂.length).length = o₁.length := by
      rw [List.length_drop]
      omega
    rw [hsplit, ← List.append_assoc, h₁.fits _ _ _ hd, Fallible.ok_bind]
    have hbuf : pre ++ gap.take o₂.length ++ o₁ ++ post =
        pre ++ gap.take o₂.length ++ (o₁ ++ post) := by simp
    rw [hbuf, h₂.fits _ _ _ ht]
    simp
  overruns dAtA i h0 hle hlt := by
    rw [List.length_append] at hlt
    by_cases h : i < o₁.length
    · exact isPanic_bind w₂ (h₁.overruns dAtA i h0 hle h)
    · obtain ⟨pre, gap, post, rfl, rfl, hgap⟩ := exists_room (n := o₁.length) hle (by omega)
      have hlen := length_split pre gap
      have hlen' := length_split (pre ++ o₁) post
      have hlen'' := length_split pre o₁
      rw [h₁.fits _ _ _ hgap, Fallible.ok_bind]
      exact h₂.overruns _ _ (by omega) (by omega) (by omega)

theorem writes_none : Writes (fun s => .ok s) [] where
  fits pre gap post hgap := by
    obtain rfl := List.eq_nil_of_length_eq_zero hgap
    simp
  overruns dAtA i h0 _ hlt := by
    rw [List.length_nil] at hlt
    omega

theorem writes_copy (content : List UInt8) :
    Writes (fun s => do
      let dAtA ← copyAt s.1 (s.2 - content.length) content
      .ok (dAtA, s.2 - content.length)) content where
  fits pre gap post hgap := by
    have hi : ((pre ++ gap).length : ℤ) - content.length = pre.length := by
      have hlen := length_split pre gap
      omega
    simp only
    rw [hi, copyAt_append pre post hgap, Fallible.ok_bind]
  overruns dAtA i h0 _ hlt := by
    simp only
    rw [copyAt, if_neg (by omega)]
    rfl

theorem writes_varint (v : UInt64) :
    Writes (fun s => encodeVarint s.1 s.2 v) (encode v.toNat) where
  fits pre gap post hgap := by
    have hi : ((pre ++ gap).length : ℤ) - sov v = pre.length := by
      have hlen := length_split pre gap
      rw [sov_eq]
      omega
    simp only [encodeVarint]
    rw [hi, (encodeVarint_loop v _ _).mpr (encodeVarint_runs v pre post hgap), Fallible.ok_bind]
  overruns dAtA i h0 _ hlt := by
    have hneg : i - sov v < 0 := by
      rw [sov_eq]
      omega
    have hset (b : UInt8) : setByte dAtA (i - sov v) b = goPanic "index out of range" := by
      rw [setByte, if_neg (by omega)]
    have hfail : encodeVarintStep ⟨dAtA, v, i - sov v⟩ = .error (.panic "index out of range") := by
      unfold encodeVarintStep
      split
      · rw [hset]
        rfl
      · rw [hset]
        rfl
    simp only [encodeVarint]
    rw [(encodeVarint_loop v _ _).mpr (.fails hfail)]
    rfl

theorem writes_byte (b : UInt8) :
    Writes (fun s => do
      let dAtA ← setByte s.1 (s.2 - 1) b
      .ok (dAtA, s.2 - 1)) [b] where
  fits pre gap post hgap := by
    obtain ⟨a, rfl⟩ := List.length_eq_one_iff.mp hgap
    have hi : ((pre ++ [a]).length : ℤ) - 1 = pre.length := by
      rw [length_split]
      exact add_sub_cancel_right _ _
    simp only
    rw [hi, setByte_append, Fallible.ok_bind]
  overruns dAtA i h0 _ hlt := by
    rw [List.length_singleton] at hlt
    simp only
    rw [setByte, if_neg (by omega)]
    rfl

/-! ## fields -/

/-- a length-delimited field as it is read forwards -/
def encodeField (tag : UInt8) (content : List UInt8) : List UInt8 :=
  [tag] ++ (encode content.length ++ content)

/-- a string field, left out when it is empty -/
def encodeString (tag : UInt8) (content : List UInt8) : List UInt8 :=
  if content = [] then [] else encodeField tag content

/-- the block of a string field in `MarshalToSizedBuffer` -/
def putString (tag : UInt8) (content : List UInt8) (s : Buffer) : Res Buffer :=
  if 0 < content.length then do
    let dAtA ← copyAt s.1 (s.2 - content.length) content
    let s' ← encodeVarint dAtA (s.2 - content.length) (UInt64.ofNat content.length)
    let dAtA ← setByte s'.1 (s'.2 - 1) tag
    .ok (dAtA, s'.2 - 1)
  else .ok s

/-- the block of a message field, which is encoded in the part of the buffer before the index -/
def putMessage (tag : UInt8) (marshal : List UInt8 → Res (List UInt8 × ℤ)) (s : Buffer) :
    Res Buffer := do
  let part ← slice s.1 0 s.2
  let r ← marshal part
  let s' ← encodeVarint (r.1 ++ s.1.drop s.2.toNat) (s.2 - r.2) (UInt64.ofInt r.2)
  let dAtA ← setByte s'.1 (s'.2 - 1) tag
  .ok (dAtA, s'.2 - 1)

/-- `MarshalToSizedBuffer`: the blocks of a message from the end of the buffer on, and the bytes used -/
def marshalSized (w : Buffer → Res Buffer) (dAtA : List UInt8) : Res (List UInt8 × ℤ) := do
  let s ← w (dAtA, dAtA.length)
  .ok (s.1, dAtA.length - s.2)

theorem toNat_length {content : List UInt8} (h : content.length < 2 ^ 63) :
    (UInt64.ofNat content.length).toNat = content.length := by
  rw [UInt64.toNat_ofNat']
  exact Nat.mod_eq_of_lt (by omega)

theorem ofInt_length (n : ℕ) : UInt64.ofInt (n : ℤ) = UInt64.ofNat n := by
  apply UInt64.toNat_inj.mp
  rw [UInt64.ofInt, UInt64.toNat_ofNat', UInt64.toNat_ofNat']
  omega

theorem writes_putString (tag : UInt8) {content : List UInt8} (h : content.length < 2 ^ 63) :
    Writes (putString tag content) (encodeString tag content) := by
  by_cases hc : content = []
  · subst hc
    exact writes_none
  · have hlen : 0 < content.length := List.length_pos_of_ne_nil hc
    have hw := ((writes_copy content).comp (writes_varint (UInt64.ofNat content.length))).comp
      (writes_byte tag)
    rw [toNat_length h] at hw
    rw [encodeString, if_neg hc, encodeField]
    convert hw using 1
    funext s
    rw [putString, if_pos hlen]
    simp only [bind_assoc, Fallible.ok_bind]

section
variable {w : Buffer → Res Buffer} {out : List UInt8} (h : Writes w out)
include h

theorem marshalSized_ok {dAtA : List UInt8} (hle : out.length ≤ dAtA.length) :
    marshalSized w dAtA = .ok (dAtA.take (dAtA.length - out.length) ++ out, (out.length : ℤ)) := by
  have hgap : (dAtA.drop (dAtA.length - out.length)).length = out.length := by
    rw [List.length_drop]
    omega
  have hw := h.fits (dAtA.take (dAtA.length - out.length)) _ [] hgap
  rw [List.append_nil, List.append_nil, List.take_append_drop] at hw
  have hi : (dAtA.length : ℤ) - (dAtA.take (dAtA.length - out.length)).length = out.length := by
    rw [List.length_take]
    omega
  rw [marshalSized, hw, Fallible.ok_bind, hi]

theorem marshalSized_panics {dAtA : List UInt8} (hlt : dAtA.length < out.length) :
    isPanic (marshalSized w dAtA) = true :=
  isPanic_bind _ (h.overruns dAtA dAtA.length (by omega) (le_refl _) (by omega))

theorem marshalSized_size {dAtA : List UInt8} {r : List UInt8 × ℤ} (hr : marshalSized w dAtA = .ok r) :
    r.2 = out.length := by
  by_cases hle : out.length ≤ dAtA.length
  · rw [marshalSized_ok h hle] at hr
    cases hr
    rfl
  · have hp := marshalSized_panics h (Nat.lt_of_not_le hle)
    rw [hr] at hp
    cases hp

theorem writes_part :
    Writes (fun s => do
      let part ← slice s.1 0 s.2
      let r ← marshalSized w part
      .ok (r.1 ++ s.1.drop s.2.toNat, s.2 - r.2)) out where
  fits pre gap post hgap := by
    have hlen := length_split pre gap
    have hpart : slice (pre ++ gap ++ post) 0 (pre ++ gap).length = .ok (pre ++ gap) := by
      have hs := slice_append [] (pre ++ gap) post
      rwa [List.nil_append] at hs
    have hi : ((pre ++ gap).length : ℤ) - out.length = pre.length := by omega
    have htake : (pre ++ gap).take ((pre ++ gap).length - out.length) = pre := by
      rw [List.length_append, hgap, Nat.add_sub_cancel]
      exact List.take_left
    simp only
    rw [hpart, Fallible.ok_bind, marshalSized_ok h (by omega), Fallible.ok_bind, htake, hi,
      Int.toNat_natCast, List.drop_left]
  overruns dAtA i h0 hle hlt := by
    have hpart : slice dAtA 0 i = .ok (dAtA.take i.toNat) := by
      rw [slice, if_pos ⟨le_refl _, h0, hle⟩]
      simp
    simp only
    rw [hpart, Fallible.ok_bind]
    refine isPanic_bind _ (marshalSized_panics h ?_)
    rw [List.length_take]
    omega

theorem writes_putMessage (tag : UInt8) (hout : out.length < 2 ^ 63) :
    Writes (putMessage tag (marshalSized w)) (encodeField tag out) := by
  have hw := ((writes_part h).comp (writes_varint (UInt64.ofNat out.length))).comp (writes_byte tag)
  rw [toNat_length hout] at hw
  rw [encodeField]
  convert hw using 1
  funext s
  unfold putMessage
  cases slice s.1 0 s.2 with
  | error _ => rfl
  | ok part =>
    simp only [Fallible.ok_bind]
    cases hr : marshalSized w part with
    | error _ => rfl
    | ok r =>
      simp only [Fallible.ok_bind, marshalSized_size h hr, ofInt_length]

end

/-! ## sizes and the other methods -/

/-- the block of a string field in `Size` -/
def addString (n : ℤ) (content : List UInt8) : ℤ :=
  if 0 < content.length then int (n + (1 + content.length + sov (UInt64.ofNat content.length))) else n

/-- the block of a message field in `Size` -/
def addMessage (n : ℤ) (size : ℤ) : ℤ := int (n + (1 + size + sov (UInt64.ofInt size)))

/-- `Marshal` -/
def marshalBytes (size : ℤ) (marshal : List UInt8 → Res (List UInt8 × ℤ)) : Res (List UInt8) := do
  let dAtA ← makeBytes size
  let r ← marshal dAtA
  slice r.1 0 r.2

/-- `MarshalTo`, on the array behind the slice -/
def marshalTo (size : ℤ) (marshal : List UInt8 → Res (List UInt8 × ℤ)) (dAtA : List UInt8) :
    Res (List UInt8 × ℤ) := do
  let part ← slice dAtA 0 size
  let r ← marshal part
  .ok (r.1 ++ dAtA.drop size.toNat, r.2)

/-- `XXX_Marshal` when the order of the fields does not matter, on the array behind the slice -/
def xxxMarshal (marshal : List UInt8 → Res (List UInt8 × ℤ)) (b : List UInt8) : Res (List UInt8) := do
  let r ← marshal b
  slice r.1 0 r.2

theorem length_encodeField (tag : UInt8) {content : List UInt8} (h : content.length < 2 ^ 63) :
    ((encodeField tag content).length : ℤ) =
      1 + content.length + sov (UInt64.ofNat content.length) := by
  rw [sov_eq, toNat_length h, encodeField, length_split, length_split]
  simp only [List.length_singleton]
  omega

theorem addString_eq (tag : UInt8) (pre content : List UInt8)
    (h : (pre ++ encodeString tag content).length < 2 ^ 63) :
    addString pre.length content = (pre ++ encodeString tag content).length := by
  have hlen := length_split pre (encodeString tag content)
  unfold addString
  unfold encodeString at hlen h ⊢
  by_cases hc : content = []
  · subst hc
    simp
  · rw [if_neg hc] at hlen h ⊢
    have hsplit := length_split [tag] (encode content.length ++ content)
    have hsplit' := length_split (encode content.length) content
    have hfield : (encodeField tag content).length = ([tag] ++ (encode content.length ++ content)).length :=
      rfl
    have hcl : content.length < 2 ^ 63 := by omega
    rw [if_pos (List.length_pos_of_ne_nil hc), ← length_encodeField tag hcl,
      int_of_small (by omega) (by omega)]
    omega

section
variable {w : Buffer → Res Buffer} {out : List UInt8} (h : Writes w out)
include h

theorem xxxMarshal_ok {b : List UInt8} (hle : out.length ≤ b.length) :
    xxxMarshal (marshalSized w) b = .ok ((b.take (b.length - out.length) ++ out).take out.length) := by
  have hlen : (b.take (b.length - out.length) ++ out).length = b.length := by
    rw [List.length_append, List.length_take]
    omega
  unfold xxxMarshal
  rw [marshalSized_ok h hle, Fallible.ok_bind, slice, if_pos ⟨le_refl _, by simp, by simp only; omega⟩]
  simp

theorem marshalBytes_ok : marshalBytes out.length (marshalSized w) = .ok out := by
  have hmake : makeBytes (out.length : ℤ) = .ok (List.replicate out.length 0) := by
    rw [makeBytes, if_pos (by omega), Int.toNat_natCast]
  have hx := xxxMarshal_ok h (b := List.replicate out.length 0) (by simp)
  rw [List.length_replicate, Nat.sub_self, List.take_zero, List.nil_append, List.take_length] at hx
  rw [marshalBytes, hmake, Fallible.ok_bind]
  exact hx

theorem marshalTo_ok {dAtA : List UInt8} (hle : out.length ≤ dAtA.length) :
    marshalTo out.length (marshalSized w) dAtA =
      .ok (out ++ dAtA.drop out.length, (out.length : ℤ)) := by
  have hpart : slice dAtA 0 out.length = .ok (dAtA.take out.length) := by
    rw [slice, if_pos ⟨le_refl _, by omega, by omega⟩]
    simp
  have hlen : (dAtA.take out.length).length = out.length := by
    rw [List.length_take]
    omega
  have hm := marshalSized_ok h hlen.ge
  rw [hlen, Nat.sub_self, List.take_zero, List.nil_append] at hm
  rw [marshalTo, hpart, Fallible.ok_bind, hm, Fallible.ok_bind, Int.toNat_natCast]

end

end MeChain.Proto
