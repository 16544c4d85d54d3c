import MeChain.CheckIn.Decode

/-!
# Skipping a field

`skipTx` and its three copies walk over one field, whatever it holds.  They do not build the groups
inside it: a counter says how many are open, and the keys that open and close groups are not compared.

* `skip`           the loop, with a pass of its own (`skipStep`) and the payload of a key
  (`skipPayload`);
* `skip_complete`  a field at the front of the slice is skipped;
* `skip_sound`     an answer within the slice is the length of a field of the grammar;
* `skip_cases`     there is no third outcome: an answer from 0 on, or a returned error.
-/

namespace MeChain.Proto
open Loop Varint Wire

structure SkipState where
  iNdEx : ℤ
  depth : ℕ

/-- the `switch wireType` of `skip`: where the payload ends and how many groups are open then -/
def skipPayload (dAtA : List UInt8) (s : SkipState) (wireType : ℕ) : Res SkipState :=
  match wireType with
  | 0 => do
    let (_, iNdEx) ← readVarint dAtA s.iNdEx
    .ok ⟨iNdEx, s.depth⟩
  | 1 => .ok ⟨int (s.iNdEx + 8), s.depth⟩
  | 2 => do
    let (length, iNdEx) ← readVarint dAtA s.iNdEx
    if int length.toNat < 0 then errInvalidLength
    else .ok ⟨int (iNdEx + int length.toNat), s.depth⟩
  | 3 => .ok ⟨s.iNdEx, s.depth + 1⟩
  | 4 => if s.depth = 0 then errUnexpectedEndOfGroup else .ok ⟨s.iNdEx, s.depth - 1⟩
  | 5 => .ok ⟨int (s.iNdEx + 4), s.depth⟩
  | _ => goError .other ("proto: illegal wireType " ++ toString wireType)

def skipStep (dAtA : List UInt8) (s : SkipState) : Res (Turn SkipState ℤ) :=
  if (dAtA.length : ℤ) ≤ s.iNdEx then errUnexpectedEOF
  else do
    let (wire, iNdEx) ← readVarint dAtA s.iNdEx
    let s' ← skipPayload dAtA ⟨iNdEx, s.depth⟩ (wire &&& 0x7).toNat
    if s'.iNdEx < 0 then errInvalidLength
    else if s'.depth = 0 then .ok (.done s'.iNdEx)
    else .ok (.again s')

def skip (dAtA : List UInt8) : Res ℤ :=
  loop (skipStep dAtA) (.panic "out of passes") (dAtA.length + 1) ⟨0, 0⟩

theorem toNat_wireType (wire : UInt64) : (wire &&& 0x7).toNat = wireType wire.toNat := by
  rw [UInt64.toNat_and]
  exact Nat.and_two_pow_sub_one_eq_mod wire.toNat 3

/-- what a pass does once the payload is behind it -/
def skipTurn (s : SkipState) : Res (Turn SkipState ℤ) :=
  if s.iNdEx < 0 then errInvalidLength
  else if s.depth = 0 then .ok (.done s.iNdEx)
  else .ok (.again s)

theorem skipStep_key {pre ks rest : List UInt8} {key d : ℕ} (hk : Word ks key)
    (hfit : (pre ++ ks ++ rest).length < 2 ^ 63) :
    skipStep (pre ++ ks ++ rest) ⟨pre.length, d⟩ =
      (skipPayload (pre ++ ks ++ rest) ⟨(pre ++ ks).length, d⟩ (wireType key) >>= skipTurn) := by
  obtain ⟨u, rfl, hr⟩ := readVarint_word hk hfit
  have hp := hk.length_pos
  have hlt : ¬ ((pre ++ ks ++ rest).length : ℤ) ≤ pre.length := by
    rw [List.length_append, List.length_append]
    omega
  unfold skipStep
  rw [if_neg hlt, hr, ← toNat_wireType]
  rfl

theorem skip_fixed {pre rest : List UInt8} (k : ℤ) (hk : 0 ≤ k ∧ k < 2 ^ 63)
    (hfit : (pre ++ rest).length < 2 ^ 63) :
    (∃ ps rest', rest = ps ++ rest' ∧ (ps.length : ℤ) = k ∧
      int ((pre.length : ℤ) + k) = (pre ++ ps).length) ∨
    (int ((pre.length : ℤ) + k) < 0 ∨ ((pre ++ rest).length : ℤ) < int ((pre.length : ℤ) + k)) := by
  rw [List.length_append] at hfit
  by_cases hle : k ≤ rest.length
  · have hlen : ((rest.take k.toNat).length : ℤ) = k := by
      rw [List.length_take]
      omega
    refine .inl ⟨rest.take k.toNat, rest.drop k.toNat, (List.take_append_drop _ rest).symm, hlen, ?_⟩
    rw [int_of_small (by omega) (by omega), List.length_append]
    omega
  · rw [List.length_append]
    rcases int_add (a := pre.length) (b := k) ⟨by omega, by omega⟩ hk with h | h
    · exact .inr (.inr (by rw [h.1]; omega))
    · exact .inr (.inl h.1)

theorem skipPayload_length {dAtA : List UInt8} {s : SkipState} {v : UInt64} {i : ℤ}
    (hr : readVarint dAtA s.iNdEx = .ok (v, i)) :
    skipPayload dAtA s 2 =
      if int v.toNat < 0 then errInvalidLength else .ok ⟨int (i + int v.toNat), s.depth⟩ := by
  simp only [skipPayload]
  rw [hr, Fallible.ok_bind]

/-- A payload is there, or the index ends up outside the slice, or an error is returned. -/
theorem skipPayload_cases (pre rest : List UInt8) (d t : ℕ) (hfit : (pre ++ rest).length < 2 ^ 63) :
    (∃ content ps rest', rest = ps ++ rest' ∧ Scalar t content ps) ∨ t = 3 ∨ (t = 4 ∧ d ≠ 0) ∨
    (∃ n, (n < 0 ∨ ((pre ++ rest).length : ℤ) < n) ∧ n < 2 ^ 63 ∧
      skipPayload (pre ++ rest) ⟨pre.length, d⟩ t = .ok ⟨n, d⟩) ∨
    Refused (skipPayload (pre ++ rest) ⟨pre.length, d⟩ t) := by
  match t with
  | 0 =>
    rcases readVarint_cases pre rest hfit with ⟨ws, v, rest', rfl, hw, hr⟩ | ⟨_, e, hr⟩
    · exact .inl ⟨ws, ws, rest', rfl, .varint hw⟩
    · exact .inr (.inr (.inr (.inr ⟨e, by simp only [skipPayload, hr]; rfl⟩)))
  | 1 =>
    rcases skip_fixed 8 (by omega) hfit with ⟨ps, rest', rfl, hlen, _⟩ | h
    · exact .inl ⟨ps, ps, rest', rfl, .fixed64 (by omega)⟩
    · exact .inr (.inr (.inr (.inl ⟨_, h, int_lt _, rfl⟩)))
  | 2 =>
    rcases readVarint_cases pre rest hfit with ⟨ls, v, rest', rfl, hw, hr⟩ | ⟨_, e, hr⟩
    · rw [skipPayload_length hr]
      rcases int_word (UInt64.toNat_lt v) with ⟨hv, hlt⟩ | ⟨hneg, _⟩
      · rw [hv, if_neg (by omega)]
        rw [← List.append_assoc] at hfit ⊢
        rcases skip_fixed v.toNat ⟨by omega, by omega⟩ hfit with ⟨content, rest'', rfl, hlen, _⟩ | h
        · exact .inl ⟨content, ls ++ content, rest'', by simp, .bytes hw hlt (by omega)⟩
        · exact .inr (.inr (.inr (.inl ⟨_, h, int_lt _, rfl⟩)))
      · rw [if_pos hneg]
        exact .inr (.inr (.inr (.inr (refused_goError _ _))))
    · exact .inr (.inr (.inr (.inr ⟨e, by simp only [skipPayload, hr]; rfl⟩)))
  | 3 => exact .inr (.inl rfl)
  | 4 =>
    by_cases hd : d = 0
    · exact .inr (.inr (.inr (.inr ⟨_, if_pos hd⟩)))
    · exact .inr (.inr (.inl ⟨rfl, hd⟩))
  | 5 =>
    rcases skip_fixed 4 (by omega) hfit with ⟨ps, rest', rfl, hlen, _⟩ | h
    · exact .inl ⟨ps, ps, rest', rfl, .fixed32 (by omega)⟩
    · exact .inr (.inr (.inr (.inl ⟨_, h, int_lt _, rfl⟩)))
  | _ + 6 => exact .inr (.inr (.inr (.inr (refused_goError _ _))))

theorem skipPayload_scalar {pre content ps rest : List UInt8} {t : ℕ} (d : ℕ) (h : Scalar t content ps)
    (hfit : (pre ++ ps ++ rest).length < 2 ^ 63) :
    skipPayload (pre ++ ps ++ rest) ⟨pre.length, d⟩ t = .ok ⟨(pre ++ ps).length, d⟩ := by
  have hlen : (pre ++ ps).length = pre.length + ps.length := List.length_append
  have hall : (pre ++ ps).length < 2 ^ 63 := by
    have hsum := length_split (pre ++ ps) rest
    omega
  cases h with
  | varint hw =>
    obtain ⟨u, _, hr⟩ := readVarint_word hw hfit
    simp only [skipPayload, hr, Fallible.ok_bind]
  | fixed64 h8 =>
    have hi : int ((pre.length : ℤ) + 8) = (pre ++ content).length := by
      rw [int_of_small (by omega) (by omega)]
      omega
    simp only [skipPayload, hi]
  | bytes hw hn hc =>
    rename_i ls n
    have hsplit : pre ++ (ls ++ content) ++ rest = pre ++ ls ++ (content ++ rest) := by simp
    rw [hsplit] at hfit ⊢
    obtain ⟨u, rfl, hr⟩ := readVarint_word hw hfit
    have hl : (ls ++ content).length = ls.length + content.length := List.length_append
    have hpl : (pre ++ ls).length = pre.length + ls.length := List.length_append
    have hu : int u.toNat = u.toNat := int_of_small (by omega) (by omega)
    have hi : int (((pre ++ ls).length : ℤ) + u.toNat) = (pre ++ (ls ++ content)).length := by
      rw [int_of_small (by omega) (by omega)]
      omega
    rw [skipPayload_length hr, hu, if_neg (by omega), hi]
  | fixed32 h4 =>
    have hi : int ((pre.length : ℤ) + 4) = (pre ++ content).length := by
      rw [int_of_small (by omega) (by omega)]
      omega
    simp only [skipPayload, hi]

/-! ## one pass of `skip` -/

theorem skipTurn_done (n : ℕ) : skipTurn ⟨n, 0⟩ = .ok (.done n) := by
  unfold skipTurn
  rw [if_neg (by simp only; omega), if_pos rfl]

theorem skipTurn_again (n d : ℕ) : skipTurn ⟨n, d + 1⟩ = .ok (.again ⟨n, d + 1⟩) := by
  unfold skipTurn
  rw [if_neg (by simp only; omega), if_neg (by simp only; omega)]

theorem skipTurn_cases (s : SkipState) : Refused (skipTurn s) ∨ 0 ≤ s.iNdEx ∧
    (s.depth = 0 ∧ skipTurn s = .ok (.done s.iNdEx) ∨
      s.depth ≠ 0 ∧ skipTurn s = .ok (.again s)) := by
  unfold skipTurn
  by_cases hi : s.iNdEx < 0
  · rw [if_pos hi]
    exact .inl (refused_goError _ _)
  · rw [if_neg hi]
    by_cases hd : s.depth = 0
    · exact .inr ⟨by omega, .inl ⟨hd, if_pos hd⟩⟩
    · exact .inr ⟨by omega, .inr ⟨hd, if_neg hd⟩⟩

theorem skipStep_token {pre ts rest : List UInt8} {d d' : ℕ} (h : Token d d' ts)
    (hfit : (pre ++ ts ++ rest).length < 2 ^ 63) :
    skipStep (pre ++ ts ++ rest) ⟨pre.length, d⟩ = skipTurn ⟨(pre ++ ts).length, d'⟩ := by
  cases h with
  | scalar hk hs =>
    rename_i ks content ps key
    have hsplit : pre ++ (ks ++ ps) ++ rest = pre ++ ks ++ (ps ++ rest) := by simp
    have hend : pre ++ (ks ++ ps) = pre ++ ks ++ ps := by simp
    rw [hsplit] at hfit ⊢
    rw [skipStep_key hk hfit]
    rw [← List.append_assoc] at hfit ⊢
    rw [skipPayload_scalar d hs hfit, Fallible.ok_bind, hend]
  | opens hk ht =>
    rw [skipStep_key hk hfit, ht]
    rfl
  | closes hk ht =>
    rw [skipStep_key hk hfit, ht]
    rfl

/-- A pass from inside the slice takes a token, ends up outside the slice, or returns an error. -/
theorem skipStep_cases {pre rest : List UInt8} (d : ℕ) (hne : rest ≠ [])
    (hfit : (pre ++ rest).length < 2 ^ 63) :
    (∃ ts rest' d', rest = ts ++ rest' ∧ Token d d' ts) ∨
    (∃ n, (n < 0 ∨ ((pre ++ rest).length : ℤ) < n) ∧ n < 2 ^ 63 ∧
      skipStep (pre ++ rest) ⟨pre.length, d⟩ = skipTurn ⟨n, d⟩) ∨
    Refused (skipStep (pre ++ rest) ⟨pre.length, d⟩) := by
  have hlt : ¬ ((pre ++ rest).length : ℤ) ≤ pre.length := by
    have hp := List.length_pos_of_ne_nil hne
    rw [List.length_append]
    omega
  rcases readVarint_cases pre rest hfit with ⟨ks, key, rest', rfl, hk, hr⟩ | ⟨_, e, hr⟩
  · rw [← List.append_assoc] at hfit ⊢
    rw [skipStep_key hk hfit]
    rcases skipPayload_cases (pre ++ ks) rest' d (wireType key.toNat) hfit with h | h | h | h | h
    · obtain ⟨content, ps, rest'', rfl, hs⟩ := h
      exact .inl ⟨ks ++ ps, rest'', d, by simp, .scalar hk hs⟩
    · exact .inl ⟨ks, rest', d + 1, rfl, .opens hk h⟩
    · obtain ⟨d', rfl⟩ := Nat.exists_eq_succ_of_ne_zero h.2
      exact .inl ⟨ks, rest', d', rfl, .closes hk h.1⟩
    · obtain ⟨n, hn, hlt, hp⟩ := h
      exact .inr (.inl ⟨n, hn, hlt, by rw [hp, Fallible.ok_bind]⟩)
    · obtain ⟨e, he⟩ := h
      exact .inr (.inr ⟨e, by rw [he]; rfl⟩)
  · refine .inr (.inr ⟨e, ?_⟩)
    unfold skipStep
    rw [if_neg hlt, hr]
    rfl

/-! ## whole runs -/

section
variable {dAtA : List UInt8} (hfit : dAtA.length < 2 ^ 63)
include hfit

theorem skipStep_of_token {pre ts rest : List UInt8} {d d' : ℕ} (h : Token d d' ts)
    (hd : dAtA = pre ++ ts ++ rest) :
    skipStep dAtA ⟨pre.length, d⟩ = skipTurn ⟨(pre ++ ts).length, d'⟩ := by
  subst hd
  exact skipStep_token h hfit

theorem runs_message {es : List Entry} {body : List UInt8} (h : Message es body)
    {pre rest : List UInt8} {d : ℕ} {r : Res ℤ} (hd : dAtA = pre ++ body ++ rest)
    (hr : Runs (skipStep dAtA) ⟨(pre ++ body).length, d + 1⟩ r) :
    Runs (skipStep dAtA) ⟨pre.length, d + 1⟩ r := by
  induction h generalizing pre rest d with
  | nil => simpa using hr
  | @scalar ks content ps bs key es hk hs _ ih =>
    have hstep := skipStep_of_token hfit (.scalar (d := d + 1) hk hs)
      (show dAtA = pre ++ (ks ++ ps) ++ (bs ++ rest) by simp [hd])
    rw [skipTurn_again] at hstep
    refine .again hstep (ih (show dAtA = pre ++ (ks ++ ps) ++ bs ++ rest by simp [hd]) ?_)
    simpa using hr
  | @group ks body cs bs key close inner es hk ht _ hc ht' _ ihin ih =>
    have hopen := skipStep_of_token hfit (.opens (d := d + 1) hk ht)
      (show dAtA = pre ++ ks ++ (body ++ cs ++ bs ++ rest) by simp [hd])
    have hclose := skipStep_of_token hfit (.closes (d := d + 1) hc ht')
      (show dAtA = pre ++ ks ++ body ++ cs ++ (bs ++ rest) by simp [hd])
    rw [skipTurn_again] at hopen hclose
    refine .again hopen (ihin (show dAtA = pre ++ ks ++ body ++ (cs ++ bs ++ rest) by simp [hd]) ?_)
    refine .again hclose (ih (show dAtA = pre ++ ks ++ body ++ cs ++ bs ++ rest by simp [hd]) ?_)
    simpa using hr

theorem runs_field {e : Entry} {bs rest : List UInt8} (h : Message [e] bs)
    (hd : dAtA = bs ++ rest) : Runs (skipStep dAtA) ⟨0, 0⟩ (.ok bs.length) := by
  cases h with
  | @scalar ks content ps _ key _ hk hs hnil =>
    cases hnil
    have hstep := skipStep_of_token hfit (.scalar (d := 0) hk hs)
      (show dAtA = [] ++ (ks ++ ps) ++ rest by simp [hd])
    rw [skipTurn_done] at hstep
    rw [List.append_nil]
    exact .done hstep
  | @group ks body cs _ key close inner _ hk ht hin hc ht' hnil =>
    cases hnil
    have hopen := skipStep_of_token hfit (.opens (d := 0) hk ht)
      (show dAtA = [] ++ ks ++ (body ++ cs ++ rest) by simp [hd])
    have hclose := skipStep_of_token hfit (.closes (d := 0) hc ht')
      (show dAtA = ks ++ body ++ cs ++ rest by simp [hd])
    rw [skipTurn_again] at hopen
    rw [skipTurn_done] at hclose
    rw [List.append_nil]
    have hbody : dAtA = ks ++ body ++ (cs ++ rest) := by simp [hd]
    exact .again hopen (runs_message hfit hin hbody (.done hclose))

end

theorem exists_split {dAtA : List UInt8} {i : ℤ} (h0 : 0 ≤ i) (h : i ≤ dAtA.length) :
    ∃ pre rest : List UInt8, dAtA = pre ++ rest ∧ i = pre.length := by
  refine ⟨dAtA.take i.toNat, dAtA.drop i.toNat, (List.take_append_drop _ _).symm, ?_⟩
  rw [List.length_take]
  omega

/-- What one pass does to the state: it moves on by a token, or to behind the end of the slice. -/
structure Moved (dAtA : List UInt8) (s s' : SkipState) : Prop where
  inside : s.iNdEx < dAtA.length
  advances : s.iNdEx < s'.iNdEx
  fits : s'.iNdEx < 2 ^ 63
  token : (dAtA.length : ℤ) < s'.iNdEx ∨ ∃ pre ts rest, dAtA = pre ++ ts ++ rest ∧
    s.iNdEx = pre.length ∧ s'.iNdEx = (pre ++ ts).length ∧ Token s.depth s'.depth ts

theorem skipStep_moved {dAtA : List UInt8} {s : SkipState} (hfit : dAtA.length < 2 ^ 63)
    (h0 : 0 ≤ s.iNdEx) :
    Refused (skipStep dAtA s) ∨ ∃ s', Moved dAtA s s' ∧ skipStep dAtA s = skipTurn s' := by
  obtain ⟨i, d⟩ := s
  simp only at h0
  by_cases hlt : i < dAtA.length
  · obtain ⟨pre, rest, rfl, rfl⟩ := exists_split h0 hlt.le
    have hne : rest ≠ [] := by
      rintro rfl
      rw [List.append_nil] at hlt
      omega
    rcases skipStep_cases d hne hfit with h | h | h
    · obtain ⟨ts, rest', d', rfl, ht⟩ := h
      have hp := ht.length_pos
      have hl : (pre ++ ts).length = pre.length + ts.length := List.length_append
      have hl' : (pre ++ ts ++ rest').length = (pre ++ ts).length + rest'.length := List.length_append
      rw [← List.append_assoc] at hfit hlt ⊢
      refine .inr ⟨⟨(pre ++ ts).length, d'⟩, ⟨hlt, by simp only; omega, by simp only; omega, .inr ?_⟩,
        skipStep_token ht hfit⟩
      exact ⟨pre, ts, rest', rfl, rfl, rfl, ht⟩
    · obtain ⟨n, hn, hfits, hs⟩ := h
      rcases hn with hn | hn
      · refine .inl ?_
        rw [hs, skipTurn, if_pos hn]
        exact refused_goError _ _
      · exact .inr ⟨⟨n, d⟩, ⟨hlt, by simp only; omega, hfits, .inl hn⟩, hs⟩
    · exact .inl h
  · refine .inl ?_
    rw [skipStep, if_pos (by simp only; omega)]
    exact refused_goError _ _

section
variable {dAtA : List UInt8} (hfit : dAtA.length < 2 ^ 63) {s : SkipState} (h0 : 0 ≤ s.iNdEx)
include hfit h0

theorem skipStep_again {s' : SkipState} (h : skipStep dAtA s = .ok (.again s')) :
    s'.depth ≠ 0 ∧ Moved dAtA s s' := by
  rcases skipStep_moved hfit h0 with ⟨e, he⟩ | ⟨t, hm, ht⟩
  · rw [he] at h
    cases h
  · rw [ht] at h
    rcases skipTurn_cases t with ⟨e, he⟩ | ⟨_, ⟨_, he⟩ | ⟨hd, he⟩⟩ <;> rw [he] at h <;> cases h
    exact ⟨hd, hm⟩

theorem skipStep_done {n : ℤ} (h : skipStep dAtA s = .ok (.done n)) :
    ∃ s' : SkipState, s'.depth = 0 ∧ n = s'.iNdEx ∧ Moved dAtA s s' := by
  rcases skipStep_moved hfit h0 with ⟨e, he⟩ | ⟨t, hm, ht⟩
  · rw [he] at h
    cases h
  · rw [ht] at h
    rcases skipTurn_cases t with ⟨e, he⟩ | ⟨_, ⟨hd, he⟩ | ⟨_, he⟩⟩ <;> rw [he] at h <;> cases h
    exact ⟨t, hd, rfl, hm⟩

theorem skipStep_error {a : Abort} (h : skipStep dAtA s = .error a) : ∃ e, a = .error e := by
  rcases skipStep_moved hfit h0 with ⟨e, he⟩ | ⟨t, hm, ht⟩
  · rw [he] at h
    cases h
    exact ⟨e, rfl⟩
  · rw [ht] at h
    rcases skipTurn_cases t with ⟨e, he⟩ | ⟨_, ⟨_, he⟩ | ⟨_, he⟩⟩ <;> rw [he] at h <;> cases h
    exact ⟨e, rfl⟩

end

theorem skip_eq_iff {dAtA : List UInt8} (hfit : dAtA.length < 2 ^ 63) {r : Res ℤ} :
    skip dAtA = r ↔ Runs (skipStep dAtA) ⟨0, 0⟩ r := by
  refine loop_eq_iff (I := fun s => 0 ≤ s.iNdEx)
    (fun s => ((dAtA.length : ℤ) - s.iNdEx).toNat) ?_ (le_refl _) (by simp only; omega)
  intro s s' h0 hs
  obtain ⟨_, hm⟩ := skipStep_again hfit h0 hs
  have hin := hm.inside
  have hadv := hm.advances
  exact ⟨by omega, by omega⟩

theorem skip_complete {e : Entry} {bs rest : List UInt8} (h : Message [e] bs)
    (hfit : (bs ++ rest).length < 2 ^ 63) : skip (bs ++ rest) = .ok bs.length :=
  (skip_eq_iff hfit).mpr (runs_field hfit h rfl)

/-- what a run that answers has walked over: a token, and the bytes that close what it opened -/
theorem runs_sound {dAtA : List UInt8} (hfit : dAtA.length < 2 ^ 63) {s : SkipState} {n : ℤ}
    (h0 : 0 ≤ s.iNdEx) (h : Runs (skipStep dAtA) s (.ok n)) :
    (dAtA.length : ℤ) < n ∨ ∃ pre ts as rest d, dAtA = pre ++ ts ++ as ++ rest ∧
      s.iNdEx = pre.length ∧ n = (pre ++ ts ++ as).length ∧ Token s.depth d ts ∧ Ends d as := by
  generalize hr : (Except.ok n : Res ℤ) = r at h
  induction h with
  | fails _ => cases hr
  | @done s b hs =>
    cases hr
    obtain ⟨s', hd, rfl, hm⟩ := skipStep_done hfit h0 hs
    rcases hm.token with hout | ⟨pre, ts, rest, hda, hi, hi', htok⟩
    · exact .inl hout
    · rw [hd] at htok
      exact .inr ⟨pre, ts, [], rest, 0, by simpa using hda, hi, by simpa using hi', htok, rfl⟩
  | @again s s' r hs hruns ih =>
    obtain ⟨hd, hm⟩ := skipStep_again hfit h0 hs
    rcases hm.token with hout | ⟨pre, ts, rest, hda, hi, hi', htok⟩
    · -- the index is behind the end of the slice: the next pass fails
      have hfail : skipStep dAtA s' = errUnexpectedEOF := if_pos hout.le
      cases hruns with
      | fails _ => cases hr
      | done hs => rw [hfail] at hs; cases hs
      | again hs _ => rw [hfail] at hs; cases hs
    · have h0' : 0 ≤ s'.iNdEx := h0.trans hm.advances.le
      rcases ih h0' hr with hout | ⟨pre', ts', as, rest', d, hda', hi'', hn, htok', hends⟩
      · exact .inl hout
      · obtain ⟨d', hd0⟩ := Nat.exists_eq_succ_of_ne_zero hd
        rw [hd0] at htok htok'
        have hpre : pre ++ ts = pre' ∧ rest = ts' ++ as ++ rest' := by
          have hlen : (pre ++ ts).length = pre'.length := by omega
          refine List.append_inj (hda.symm.trans ?_) hlen
          rw [hda']
          simp
        obtain ⟨rfl, rfl⟩ := hpre
        exact .inr ⟨pre, ts, ts' ++ as, rest', d' + 1, by simp [hda], hi, by simpa using hn, htok,
          .cons htok' hends⟩

theorem skip_sound {dAtA : List UInt8} (hfit : dAtA.length < 2 ^ 63) {n : ℤ}
    (h : skip dAtA = .ok n) (hn : n ≤ dAtA.length) :
    ∃ e bs rest, dAtA = bs ++ rest ∧ n = bs.length ∧ Message [e] bs := by
  rcases runs_sound hfit (le_refl _) ((skip_eq_iff hfit).mp h) with hout | hin
  · omega
  · obtain ⟨pre, ts, as, rest, d, rfl, hi, hn, htok, hends⟩ := hin
    have hnil : pre = [] := by
      refine List.eq_nil_of_length_eq_zero ?_
      simp only at hi
      omega
    subst hnil
    obtain ⟨e, he⟩ := message_of_token htok hends
    exact ⟨e, ts ++ as, rest, rfl, hn, he⟩

theorem skip_cases {dAtA : List UInt8} (hfit : dAtA.length < 2 ^ 63) :
    Refused (skip dAtA) ∨ ∃ n, 0 ≤ n ∧ n < 2 ^ 63 ∧ skip dAtA = .ok n := by
  have hagain (s s' : SkipState) (h0 : 0 ≤ s.iNdEx) (hs : skipStep dAtA s = .ok (.again s')) :
      0 ≤ s'.iNdEx := h0.trans (skipStep_again hfit h0 hs).2.advances.le
  have hruns : Runs (skipStep dAtA) ⟨0, 0⟩ (skip dAtA) := (skip_eq_iff hfit).mp rfl
  cases hr : skip dAtA with
  | error a =>
    rw [hr] at hruns
    obtain ⟨e, rfl⟩ := hruns.fails_of (Q := fun a => ∃ e, a = .error e) hagain
      (fun s a h0 hs => skipStep_error hfit h0 hs) (le_refl _)
    exact .inl ⟨e, rfl⟩
  | ok n =>
    rw [hr] at hruns
    have hn : 0 ≤ n ∧ n < 2 ^ 63 := by
      refine hruns.done_of (Q := fun n => 0 ≤ n ∧ n < 2 ^ 63) hagain (fun s n h0 hs => ?_) (le_refl _)
      obtain ⟨s', _, rfl, hm⟩ := skipStep_done hfit h0 hs
      exact ⟨h0.trans hm.advances.le, hm.fits⟩
    exact .inr ⟨n, hn.1, hn.2, rfl⟩

end MeChain.Proto
