import MeChain.CheckIn.Skip

/-!
# Decoding a message

The `Unmarshal` methods of the messages of `x/checkin` are one loop over fields; they differ in the
name of the message and in the fields they know, all of them length-delimited.  `Schema` holds what
differs and `unmarshal` is the loop.

What a byte string means does not mention the loop: it is a `Message`, a sequence of fields, and each
field in turn is taken into the message (`take`).

* `unmarshal_message`  on a sequence of fields `unmarshal` takes them in turn, errors included;
* `unmarshal_sound`    it succeeds on nothing else;
* `unmarshal_returns`  it never panics and never runs out of passes, whatever the bytes are;
* `unmarshal_append`   a message followed by another one is merged field by field.
-/

namespace MeChain.Proto
open Loop Varint Wire

/-- a field of a message: its number and name in the source, and the assignment of its content -/
structure FieldOf (M : Type) where
  num : ℤ
  name : String
  store : M → List UInt8 → Res M

structure Schema (M : Type) where
  name : String
  fields : List (FieldOf M)

namespace Schema
variable {M : Type}

def lookup (sch : Schema M) (num : ℤ) : Option (FieldOf M) := sch.fields.find? (·.num = num)

def illegalTag {α : Type} (sch : Schema M) (fieldNum : ℤ) (wire : ℕ) : Res α :=
  goError .other ("proto: " ++ sch.name ++ ": illegal tag " ++ toString fieldNum ++
    " (wire type " ++ toString wire ++ ")")

def wrongWireType {α : Type} (f : FieldOf M) (wireType : ℕ) : Res α :=
  goError .other ("proto: wrong wireType = " ++ toString wireType ++ " for field " ++ f.name)

/-- the `case` of a known field -/
def unmarshalField (f : FieldOf M) (dAtA : List UInt8) (m : M) (iNdEx : ℤ) (wireType : ℕ) :
    Res (M × ℤ) :=
  if wireType ≠ 2 then wrongWireType f wireType
  else do
    let (len, iNdEx) ← readVarint dAtA iNdEx
    if int len.toNat < 0 then errInvalidLength
    else if int (iNdEx + int len.toNat) < 0 then errInvalidLength
    else if (dAtA.length : ℤ) < int (iNdEx + int len.toNat) then errUnexpectedEOF
    else do
      let content ← slice dAtA iNdEx (int (iNdEx + int len.toNat))
      let m' ← f.store m content
      .ok (m', int (iNdEx + int len.toNat))

/-- the `default` case: the field is skipped from its key on -/
def unmarshalUnknown (dAtA : List UInt8) (preIndex : ℤ) : Res ℤ := do
  let rest ← slice dAtA preIndex dAtA.length
  let skippy ← skip rest
  if skippy < 0 ∨ int (preIndex + skippy) < 0 then errInvalidLength
  else if (dAtA.length : ℤ) < int (preIndex + skippy) then errUnexpectedEOF
  else .ok (int (preIndex + skippy))

/-- what follows the key in one pass of the loop -/
def unmarshalKey (sch : Schema M) (dAtA : List UInt8) (m : M) (preIndex iNdEx : ℤ) (wire : UInt64) :
    Res (M × ℤ) :=
  let fieldNum := int32 (wire >>> 3).toNat
  let wireType := (wire &&& 0x7).toNat
  if wireType = 4 then
    goError .other ("proto: " ++ sch.name ++ ": wiretype end group for non-group")
  else if fieldNum ≤ 0 then sch.illegalTag fieldNum wire.toNat
  else
    match sch.lookup fieldNum with
    | some f => unmarshalField f dAtA m iNdEx wireType
    | none => do
      let i ← unmarshalUnknown dAtA preIndex
      .ok (m, i)

def unmarshalStep (sch : Schema M) (dAtA : List UInt8) (s : M × ℤ) : Res (Turn (M × ℤ) M) :=
  if s.2 < dAtA.length then do
    let (wire, iNdEx) ← readVarint dAtA s.2
    let s' ← sch.unmarshalKey dAtA s.1 s.2 iNdEx wire
    .ok (.again s')
  else if (dAtA.length : ℤ) < s.2 then errUnexpectedEOF
  else .ok (.done s.1)

def unmarshal (sch : Schema M) (m : M) (dAtA : List UInt8) : Res M :=
  loop (sch.unmarshalStep dAtA) (.panic "out of passes") (dAtA.length + 1) (m, 0)

/-! ## what a field means to a message -/

/-- the number of a field as the loop reads it off the key -/
def fieldNumber (key : ℕ) : ℤ := int32 (key / 8 : ℕ)

/-- A field taken into a message: a known one is stored, an unknown one dropped.  A field without a
valid number and a known one of another wire type are errors. -/
def take (sch : Schema M) (m : M) (e : Entry) : Res M :=
  if fieldNumber e.key ≤ 0 then sch.illegalTag (fieldNumber e.key) e.key
  else
    match sch.lookup (fieldNumber e.key) with
    | some f => if wireType e.key = 2 then f.store m e.content else wrongWireType f (wireType e.key)
    | none => .ok m

theorem toNat_fieldNum (wire : UInt64) :
    int32 (wire >>> 3).toNat = fieldNumber wire.toNat := by
  rw [UInt64.toNat_shiftRight, Nat.shiftRight_eq_div_pow]
  rfl

theorem wireType_of_field {e : Entry} {bs : List UInt8} (h : Message [e] bs) :
    wireType e.key ≠ 4 := by
  intro h4
  cases h with
  | scalar _ hs _ =>
    simp only at h4
    rw [h4] at hs
    cases hs
  | group _ ht _ _ _ _ =>
    simp only at h4
    omega

theorem slice_rest {dAtA pre rest : List UInt8} (hd : dAtA = pre ++ rest) :
    slice dAtA pre.length dAtA.length = .ok rest := by
  have h := slice_append pre rest []
  rw [List.append_nil, ← hd] at h
  exact h

section
variable {dAtA : List UInt8} (hfit : dAtA.length < 2 ^ 63)
include hfit

/-! ## a known field -/

theorem unmarshalField_content {f : FieldOf M} {m : M} {pre ls content rest : List UInt8}
    (hd : dAtA = pre ++ ls ++ content ++ rest) (hl : Word ls content.length) :
    unmarshalField f dAtA m pre.length 2 =
      (f.store m content >>= fun m' => .ok (m', ((pre ++ ls ++ content).length : ℤ))) := by
  have h1 := length_split (pre ++ ls) content
  have hd' : dAtA = pre ++ ls ++ (content ++ rest) := by rw [hd, List.append_assoc]
  have hall : (dAtA.length : ℤ) = (pre ++ ls ++ content).length + rest.length := by
    rw [hd, length_split]
  obtain ⟨u, hu, hr⟩ := readVarint_word hl (hd' ▸ hfit)
  have hint : int u.toNat = content.length := by
    rw [hu]
    exact int_of_small (by omega) (by omega)
  have hpost : int (((pre ++ ls).length : ℤ) + content.length) = (pre ++ ls ++ content).length := by
    rw [int_of_small (by omega) (by omega)]
    omega
  unfold unmarshalField
  rw [if_neg (by simp), hd', hr, ← hd', Fallible.ok_bind]
  simp only [hint, hpost]
  rw [if_neg (by omega), if_neg (by omega), if_neg (by omega), hd, slice_append, Fallible.ok_bind]

theorem unmarshalField_cases (f : FieldOf M) (m : M) {pre rest : List UInt8} (t : ℕ)
    (hd : dAtA = pre ++ rest) : Refused (unmarshalField f dAtA m pre.length t) ∨
    t = 2 ∧ ∃ ls content rest', rest = ls ++ content ++ rest' ∧ Word ls content.length ∧
      content.length < 2 ^ 63 := by
  unfold unmarshalField
  by_cases ht : t = 2
  · rw [if_neg (not_not.mpr ht)]
    rcases readVarint_cases pre rest (hd ▸ hfit) with ⟨ls, v, rest', rfl, hw, hr⟩ | ⟨_, e, hr⟩
    · rw [← hd] at hr
      rw [hr, Fallible.ok_bind]
      simp only
      rcases int_word (UInt64.toNat_lt v) with ⟨hv, hlt⟩ | ⟨hneg, _⟩
      · rw [hv, if_neg (by omega)]
        rw [← List.append_assoc] at hd
        rcases skip_fixed v.toNat ⟨by omega, by omega⟩ (hd ▸ hfit) with h | h | h
        · obtain ⟨content, rest'', rfl, hlen, _⟩ := h
          have hc : content.length = v.toNat := by omega
          rw [← hc] at hw hlt
          exact .inr ⟨ht, ls, content, rest'', by rw [List.append_assoc], hw, hlt⟩
        · rw [if_pos h]
          exact .inl (refused_goError _ _)
        · rw [← hd] at h
          rw [if_neg (by omega), if_pos h]
          exact .inl (refused_goError _ _)
      · rw [if_pos hneg]
        exact .inl (refused_goError _ _)
    · rw [← hd] at hr
      exact .inl ⟨e, by rw [hr]; rfl⟩
  · rw [if_pos ht]
    exact .inl (refused_goError _ _)

/-! ## a field to skip -/

theorem unmarshalUnknown_field {e : Entry} {pre bs rest : List UInt8} (h : Message [e] bs)
    (hd : dAtA = pre ++ bs ++ rest) : unmarshalUnknown dAtA pre.length = .ok (pre ++ bs).length := by
  have hpl := length_split pre bs
  have hall : (dAtA.length : ℤ) = (pre ++ bs).length + rest.length := by rw [hd, length_split]
  have hd' : dAtA = pre ++ (bs ++ rest) := by rw [hd, List.append_assoc]
  have hrest := length_split bs rest
  have hpost : int ((pre.length : ℤ) + bs.length) = (pre ++ bs).length := by
    rw [int_of_small (by omega) (by omega)]
    omega
  unfold unmarshalUnknown
  rw [slice_rest hd', Fallible.ok_bind, skip_complete h (by omega), Fallible.ok_bind, hpost,
    if_neg (by omega), if_neg (by omega)]

theorem unmarshalUnknown_cases {pre rest : List UInt8} (hd : dAtA = pre ++ rest) :
    Refused (unmarshalUnknown dAtA pre.length) ∨
    ∃ e bs rest', rest = bs ++ rest' ∧ Message [e] bs := by
  have hall : (dAtA.length : ℤ) = pre.length + rest.length := by rw [hd, length_split]
  have hrest : rest.length < 2 ^ 63 := by omega
  unfold unmarshalUnknown
  rw [slice_rest hd, Fallible.ok_bind]
  rcases skip_cases hrest with ⟨e, he⟩ | ⟨n, h0, hlt, hn⟩
  · exact .inl ⟨e, by rw [he]; rfl⟩
  · rw [hn, Fallible.ok_bind]
    by_cases hle : n ≤ rest.length
    · obtain ⟨e, bs, rest', rfl, _, hm⟩ := skip_sound hrest hn hle
      exact .inr ⟨e, bs, rest', rfl, hm⟩
    · left
      rcases int_add (a := pre.length) (b := n) ⟨by omega, by omega⟩ ⟨h0, hlt⟩ with h | h
      · rw [if_neg (by omega), if_pos (by omega)]
        exact refused_goError _ _
      · rw [if_pos (.inr h.1)]
        exact refused_goError _ _

/-! ## one pass -/

variable (sch : Schema M)

theorem unmarshalStep_key {key : ℕ} {pre ks rest : List UInt8} (m : M) (hk : Word ks key)
    (hd : dAtA = pre ++ ks ++ rest) : ∃ wire : UInt64, wire.toNat = key ∧
      sch.unmarshalStep dAtA (m, pre.length) =
        (sch.unmarshalKey dAtA m pre.length (pre ++ ks).length wire >>= fun s => .ok (.again s)) := by
  have hp := hk.length_pos
  have hlt : (pre.length : ℤ) < dAtA.length := by
    rw [hd, List.length_append, List.length_append]
    omega
  obtain ⟨u, hu, hr⟩ := readVarint_word hk (hd ▸ hfit)
  rw [← hd] at hr
  refine ⟨u, hu, ?_⟩
  unfold unmarshalStep
  rw [if_pos hlt, hr, Fallible.ok_bind]

theorem unmarshalStep_field {e : Entry} {pre bs rest : List UInt8} (m : M) (h : Message [e] bs)
    (hd : dAtA = pre ++ bs ++ rest) : sch.unmarshalStep dAtA (m, pre.length) =
      (sch.take m e >>= fun m' => .ok (.again (m', ((pre ++ bs).length : ℤ)))) := by
  obtain ⟨ks, as, rfl, hk⟩ := h.key
  obtain ⟨u, hu, hstep⟩ := unmarshalStep_key hfit sch m hk
    (show dAtA = pre ++ ks ++ (as ++ rest) by simp [hd])
  rw [hstep]
  unfold unmarshalKey take
  simp only [toNat_fieldNum, toNat_wireType, hu]
  rw [if_neg (wireType_of_field h)]
  by_cases hnum : fieldNumber e.key ≤ 0
  · rw [if_pos hnum, if_pos hnum]
    rfl
  · rw [if_neg hnum, if_neg hnum]
    cases hf : sch.lookup (fieldNumber e.key) with
    | none =>
      simp only
      rw [unmarshalUnknown_field hfit h hd]
      rfl
    | some f =>
      simp only
      by_cases ht : wireType e.key = 2
      · rw [if_pos ht]
        obtain ⟨ks', ls, hsplit, hk', hl, _⟩ := h.of_bytes ht
        rw [List.append_assoc] at hsplit
        obtain ⟨rfl, _, rfl⟩ := hk.unique hk' hsplit
        have hd' : dAtA = pre ++ ks ++ ls ++ e.content ++ rest := by simp [hd]
        rw [ht, unmarshalField_content hfit hd' hl]
        cases f.store m e.content with
        | error a => rfl
        | ok m' => simp
      · rw [if_neg ht, unmarshalField, if_pos ht]
        rfl

/-- From inside the slice a pass finds a field or returns an error. -/
theorem unmarshalStep_cases {pre rest : List UInt8} (m : M) (hne : rest ≠ []) (hd : dAtA = pre ++ rest) :
    Refused (sch.unmarshalStep dAtA (m, pre.length)) ∨
    ∃ e bs rest', rest = bs ++ rest' ∧ Message [e] bs := by
  rcases readVarint_cases pre rest (hd ▸ hfit) with ⟨ks, key, rest', rfl, hk, hr⟩ | ⟨_, a, hr⟩
  · have hd' : dAtA = pre ++ ks ++ rest' := by rw [hd, List.append_assoc]
    obtain ⟨u, hu, hstep⟩ := unmarshalStep_key hfit sch m hk hd'
    rw [hstep]
    unfold unmarshalKey
    simp only [toNat_fieldNum, toNat_wireType, hu]
    by_cases h4 : wireType key.toNat = 4
    · rw [if_pos h4]
      exact .inl ⟨_, rfl⟩
    · rw [if_neg h4]
      by_cases hnum : fieldNumber key.toNat ≤ 0
      · rw [if_pos hnum]
        exact .inl ⟨_, rfl⟩
      · rw [if_neg hnum]
        cases hf : sch.lookup (fieldNumber key.toNat) with
        | none =>
          simp only
          rcases unmarshalUnknown_cases hfit hd with ⟨a, ha⟩ | h
          · exact .inl ⟨a, by rw [ha]; rfl⟩
          · exact .inr h
        | some f =>
          simp only
          rcases unmarshalField_cases hfit f m (wireType key.toNat) hd' with ⟨a, ha⟩ | h
          · exact .inl ⟨a, by rw [ha]; rfl⟩
          · obtain ⟨ht, ls, content, rest'', rfl, hl, hlt⟩ := h
            refine .inr ⟨⟨key.toNat, content⟩, ks ++ (ls ++ content), rest'', by simp,
              .of_scalar hk ?_⟩
            rw [ht]
            exact .bytes hl hlt rfl
  · refine .inl ⟨a, ?_⟩
    have hlt : (pre.length : ℤ) < dAtA.length := by
      have hp := List.length_pos_of_ne_nil hne
      rw [hd, List.length_append]
      omega
    unfold unmarshalStep
    rw [← hd] at hr
    rw [if_pos hlt, hr]
    rfl

omit hfit in
theorem unmarshalStep_end (m : M) : sch.unmarshalStep dAtA (m, dAtA.length) = .ok (.done m) := by
  unfold unmarshalStep
  rw [if_neg (lt_irrefl _), if_neg (lt_irrefl _)]

/-! ## whole runs -/

theorem runs_fields {es : List Entry} {bs pre rest : List UInt8} {m m' : M} {r : Res M}
    (h : Message es bs) (hd : dAtA = pre ++ bs ++ rest) (ht : es.foldlM sch.take m = .ok m')
    (hr : Runs (sch.unmarshalStep dAtA) (m', ((pre ++ bs).length : ℤ)) r) :
    Runs (sch.unmarshalStep dAtA) (m, (pre.length : ℤ)) r := by
  induction es generalizing bs pre m with
  | nil =>
    cases h
    cases ht
    simpa using hr
  | cons e es ih =>
    obtain ⟨as, bs', rfl, he, hes⟩ := h.uncons
    rw [Fallible.foldlM_cons_ok] at ht
    obtain ⟨t, ht, hts⟩ := ht
    have hstep := unmarshalStep_field hfit sch m he
      (show dAtA = pre ++ as ++ (bs' ++ rest) by simp [hd])
    rw [ht] at hstep
    refine .again hstep (ih hes (show dAtA = pre ++ as ++ bs' ++ rest by simp [hd]) hts ?_)
    rwa [List.append_assoc]

/-- The loop ends at the first field that is refused. -/
theorem runs_fails {es : List Entry} {bs pre rest : List UInt8} {m : M} {a : Abort}
    (h : Message es bs) (hd : dAtA = pre ++ bs ++ rest) (ht : es.foldlM sch.take m = .error a) :
    Runs (sch.unmarshalStep dAtA) (m, (pre.length : ℤ)) (.error a) := by
  induction es generalizing bs pre m with
  | nil => cases ht
  | cons e es ih =>
    obtain ⟨as, bs', rfl, he, hes⟩ := h.uncons
    have hstep := unmarshalStep_field hfit sch m he
      (show dAtA = pre ++ as ++ (bs' ++ rest) by simp [hd])
    rw [List.foldlM_cons] at ht
    cases hm : sch.take m e with
    | error a' =>
      rw [hm] at ht hstep
      cases ht
      exact .fails hstep
    | ok t =>
      rw [hm] at ht hstep
      exact .again hstep (ih hes (show dAtA = pre ++ as ++ bs' ++ rest by simp [hd]) ht)

/-- what a run that succeeds has read: a sequence of fields up to the end of the slice -/
theorem runs_message_sound {s : M × ℤ} {m' : M} (h : Runs (sch.unmarshalStep dAtA) s (.ok m'))
    {pre rest : List UInt8} (hd : dAtA = pre ++ rest) (hi : s.2 = pre.length) :
    ∃ es, Message es rest := by
  generalize hr : (Except.ok m' : Res M) = r at h
  induction h generalizing pre rest with
  | fails _ => cases hr
  | @done s b hs =>
    obtain ⟨m, i⟩ := s
    simp only at hi
    subst hi
    by_cases hne : rest = []
    · exact ⟨[], hne ▸ .nil⟩
    · rcases unmarshalStep_cases hfit sch m hne hd with ⟨a, ha⟩ | ⟨e, bs, rest', rfl, he⟩
      · rw [ha] at hs
        cases hs
      · rw [← List.append_assoc] at hd
        rw [unmarshalStep_field hfit sch m he hd] at hs
        obtain ⟨t, _, hs⟩ := Fallible.bind_eq_ok.mp hs
        cases hs
  | @again s s' r hs _ ih =>
    obtain ⟨m, i⟩ := s
    simp only at hi
    subst hi
    by_cases hne : rest = []
    · exact ⟨[], hne ▸ .nil⟩
    · rcases unmarshalStep_cases hfit sch m hne hd with ⟨a, ha⟩ | ⟨e, bs, rest', rfl, he⟩
      · rw [ha] at hs
        cases hs
      · rw [← List.append_assoc] at hd
        rw [unmarshalStep_field hfit sch m he hd] at hs
        obtain ⟨t, _, hs⟩ := Fallible.bind_eq_ok.mp hs
        cases hs
        obtain ⟨es, hes⟩ := ih hd rfl hr
        exact ⟨_, he.append hes⟩

end

/-! ## the loop as a whole -/

section
variable (sch : Schema M) {dAtA : List UInt8}

/-- a position of the loop -/
def Within (dAtA : List UInt8) (s : M × ℤ) : Prop := 0 ≤ s.2 ∧ s.2 ≤ dAtA.length

/-- a pass from a position goes on to a later one, ends the loop, or passes on an error -/
theorem unmarshalStep_within (hfit : dAtA.length < 2 ^ 63) {s : M × ℤ} (hs : Within dAtA s) :
    Refused (sch.unmarshalStep dAtA s) ∨ (∃ m, sch.unmarshalStep dAtA s = .ok (.done m)) ∨
    ∃ e i, s.2 < i ∧ i ≤ dAtA.length ∧ e.content.length ≤ dAtA.length ∧
      sch.unmarshalStep dAtA s = (sch.take s.1 e >>= fun m' => .ok (.again (m', i))) := by
  obtain ⟨m, i⟩ := s
  obtain ⟨h0, hle⟩ := hs
  obtain ⟨pre, rest, rfl, rfl⟩ := exists_split h0 hle
  by_cases hne : rest = []
  · subst hne
    rw [List.append_nil]
    exact .inr (.inl ⟨m, unmarshalStep_end sch m⟩)
  · rcases unmarshalStep_cases hfit sch m hne rfl with h | ⟨e, bs, rest', rfl, he⟩
    · exact .inl h
    · have hp := he.length_pos
      have hl := length_split pre bs
      rw [← List.append_assoc] at hfit ⊢
      have hl' := length_split (pre ++ bs) rest'
      have hc := he.content_le
      exact .inr (.inr ⟨e, (pre ++ bs).length, by simp only; omega, by omega, by omega,
        unmarshalStep_field hfit sch m he rfl⟩)

/-- how many bytes are left -/
def left (dAtA : List UInt8) (s : M × ℤ) : ℕ := ((dAtA.length : ℤ) - s.2).toNat

theorem unmarshalStep_again (hfit : dAtA.length < 2 ^ 63) (s s' : M × ℤ) (hw : Within dAtA s)
    (hs : sch.unmarshalStep dAtA s = .ok (.again s')) : Within dAtA s' ∧ left dAtA s' < left dAtA s := by
  have h0 := hw.1
  rcases sch.unmarshalStep_within hfit hw with ⟨a, ha⟩ | ⟨m, hm⟩ | ⟨e, i, hlt, hi, _, ht⟩
  · rw [ha] at hs
    cases hs
  · rw [hm] at hs
    cases hs
  · rw [ht] at hs
    obtain ⟨t, _, hs⟩ := Fallible.bind_eq_ok.mp hs
    cases hs
    exact ⟨⟨by simp only; omega, hi⟩, by simp only [left]; omega⟩

theorem unmarshal_eq_iff (hfit : dAtA.length < 2 ^ 63) {m : M} {r : Res M} :
    sch.unmarshal m dAtA = r ↔ Runs (sch.unmarshalStep dAtA) (m, 0) r :=
  loop_eq_iff (left dAtA) (sch.unmarshalStep_again hfit) ⟨le_refl _, by simp only; omega⟩
    (by simp only [left]; omega)

theorem unmarshal_message {es : List Entry} (h : Message es dAtA) (hfit : dAtA.length < 2 ^ 63)
    (m : M) : sch.unmarshal m dAtA = es.foldlM sch.take m := by
  have hd : dAtA = [] ++ dAtA ++ [] := by simp
  rw [unmarshal_eq_iff sch hfit]
  cases ht : es.foldlM sch.take m with
  | error a => exact runs_fails hfit sch h hd ht
  | ok m' => exact runs_fields hfit sch h hd ht (.done (unmarshalStep_end sch m'))

theorem unmarshal_sound (hfit : dAtA.length < 2 ^ 63) {m m' : M}
    (h : sch.unmarshal m dAtA = .ok m') : ∃ es, Message es dAtA ∧ es.foldlM sch.take m = .ok m' := by
  obtain ⟨es, hes⟩ := runs_message_sound hfit sch ((unmarshal_eq_iff sch hfit).mp h)
    (List.nil_append _).symm rfl
  exact ⟨es, hes, by rw [← sch.unmarshal_message hes hfit, h]⟩

/-- the assignments of the fields do not panic -/
def Stores (sch : Schema M) : Prop :=
  ∀ f ∈ sch.fields, ∀ m content, content.length < 2 ^ 63 → isPanic (f.store m content) = false

theorem take_returns {sch : Schema M} (hsch : sch.Stores) (m : M) {e : Entry}
    (he : e.content.length < 2 ^ 63) : isPanic (sch.take m e) = false := by
  unfold take
  split
  · rfl
  · split
    · rename_i f hf
      split
      · exact hsch f (List.mem_of_find?_eq_some hf) m e.content he
      · rfl
    · rfl

theorem unmarshal_returns {sch : Schema M} (hsch : sch.Stores) (m : M)
    (hfit : dAtA.length < 2 ^ 63) : isPanic (sch.unmarshal m dAtA) = false := by
  have hruns : Runs (sch.unmarshalStep dAtA) (m, 0) (sch.unmarshal m dAtA) :=
    (sch.unmarshal_eq_iff hfit).mp rfl
  cases hr : sch.unmarshal m dAtA with
  | ok _ => rfl
  | error a =>
    rw [hr] at hruns
    refine hruns.fails_of (I := Within dAtA) (Q := fun a => isPanic (.error a : Res M) = false) ?_ ?_
      ⟨le_refl _, by simp only; omega⟩
    · exact fun s s' hw hs => (sch.unmarshalStep_again hfit s s' hw hs).1
    · intro s a hw hs
      rcases sch.unmarshalStep_within hfit hw with ⟨b, hb⟩ | ⟨m, hm⟩ | ⟨e, i, _, _, hc, ht⟩
      · rw [hb] at hs
        cases hs
        rfl
      · rw [hm] at hs
        cases hs
      · have hret := take_returns hsch s.1 (e := e) (by omega)
        rw [ht] at hs
        cases htake : sch.take s.1 e with
        | error b =>
          rw [htake] at hs hret
          cases hs
          exact hret
        | ok t =>
          rw [htake] at hs
          cases hs

/-- Behind a message that decodes, the rest of the bytes is decoded into what it left. -/
theorem unmarshal_append {as bs : List UInt8} (hfit : (as ++ bs).length < 2 ^ 63) {m m₁ m₂ : M}
    (h : sch.unmarshal m as = .ok m₁) :
    sch.unmarshal m (as ++ bs) = .ok m₂ ↔ sch.unmarshal m₁ bs = .ok m₂ := by
  have hlen := length_split as bs
  have has : as.length < 2 ^ 63 := by omega
  have hbs : bs.length < 2 ^ 63 := by omega
  obtain ⟨es, hes, ht⟩ := sch.unmarshal_sound has h
  have hboth {fs : List Entry} (hfs : Message fs bs) :
      sch.unmarshal m (as ++ bs) = sch.unmarshal m₁ bs := by
    rw [sch.unmarshal_message (hes.append hfs) hfit, sch.unmarshal_message hfs hbs, List.foldlM_append,
      ht, Fallible.ok_bind]
  constructor
  · intro hab
    have hruns := (sch.unmarshal_eq_iff hfit).mp hab
    have hw : Within (as ++ bs) (m₁, (as.length : ℤ)) := ⟨by simp only; omega, by simp only; omega⟩
    obtain ⟨r, hr⟩ : ∃ r, Runs (sch.unmarshalStep (as ++ bs)) (m₁, (as.length : ℤ)) r :=
      ⟨loop _ (.panic "out of passes") _ _,
        loop_runs (left (as ++ bs)) (sch.unmarshalStep_again hfit) hw (Nat.lt_succ_self _)⟩
    have hd : as ++ bs = [] ++ as ++ bs := by simp
    obtain rfl := hruns.unique (runs_fields hfit sch hes hd ht hr)
    obtain ⟨fs, hfs⟩ := runs_message_sound hfit sch hr rfl rfl
    rw [← hboth hfs]
    exact hab
  · intro hb
    obtain ⟨fs, hfs, _⟩ := sch.unmarshal_sound hbs hb
    rw [hboth hfs]
    exact hb

end

end Schema

end MeChain.Proto
