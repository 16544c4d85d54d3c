import MeChain.CheckIn.Unmarshal
import MeChain.CheckIn.Marshal

/-!
# The messages of the check-in module

The six messages of `x/checkin/types`, with their `Size`, `Marshal` and `Unmarshal` methods: each is
the shared code applied to its own fields.

* `unmarshal_never_panics`     no byte string makes any of the six `Unmarshal` methods panic;
* `skip_exact`                 what `skipTx` answers within the slice is one field, groups included;
* `unmarshal_check_in_iff`     which byte strings are a check-in, and which check-in they are;
* `marshal_check_in_exact`     the methods that encode agree, and which buffers are too small;
* `unmarshal_merge`            round trip, alone and behind other bytes;
* `reencode_shorter`           decoding and encoding again never makes the bytes longer;
* `unmarshal_genesis_iff`      the two messages with a message in them.
-/

namespace MeChain.CheckIn
open Proto Wire

/-! ## the messages without a message field -/

structure MsgCheckIn where
  checkInAddress : List UInt8
  checkInMessage : List UInt8
  checkInTimezone : List UInt8
deriving DecidableEq, Repr

namespace MsgCheckIn

/-- `MsgCheckIn{}` -/
def empty : MsgCheckIn := ⟨[], [], []⟩

def schema : Schema MsgCheckIn where
  name := "MsgCheckIn"
  fields := [
    ⟨1, "CheckInAddress", fun m s => .ok { m with checkInAddress := s }⟩,
    ⟨2, "CheckInMessage", fun m s => .ok { m with checkInMessage := s }⟩,
    ⟨3, "CheckInTimezone", fun m s => .ok { m with checkInTimezone := s }⟩]

def unmarshal (m : MsgCheckIn) (dAtA : List UInt8) : Res MsgCheckIn := schema.unmarshal m dAtA

def blocks (m : MsgCheckIn) (s : Buffer) : Res Buffer := do
  let s ← putString 0x1a m.checkInTimezone s
  let s ← putString 0x12 m.checkInMessage s
  putString 0xa m.checkInAddress s

def marshalToSizedBuffer (m : MsgCheckIn) (dAtA : List UInt8) : Res (List UInt8 × ℤ) :=
  marshalSized m.blocks dAtA

def size (m : MsgCheckIn) : ℤ :=
  addString (addString (addString 0 m.checkInAddress) m.checkInMessage) m.checkInTimezone

def marshal (m : MsgCheckIn) : Res (List UInt8) := marshalBytes m.size m.marshalToSizedBuffer

def marshalTo (m : MsgCheckIn) (dAtA : List UInt8) : Res (List UInt8 × ℤ) :=
  Proto.marshalTo m.size m.marshalToSizedBuffer dAtA

def xxx_Marshal (m : MsgCheckIn) (b : List UInt8) : Res (List UInt8) :=
  xxxMarshal m.marshalToSizedBuffer b

end MsgCheckIn

structure MsgCheckInResponse where
deriving DecidableEq, Repr

def MsgCheckInResponse.schema : Schema MsgCheckInResponse := ⟨"MsgCheckInResponse", []⟩

def MsgCheckInResponse.unmarshal (m : MsgCheckInResponse) (dAtA : List UInt8) :
    Res MsgCheckInResponse := schema.unmarshal m dAtA

def MsgCheckInResponse.size (_ : MsgCheckInResponse) : ℤ := 0

def MsgCheckInResponse.marshalToSizedBuffer (_ : MsgCheckInResponse) (dAtA : List UInt8) :
    Res (List UInt8 × ℤ) := marshalSized (fun s => .ok s) dAtA

def MsgCheckInResponse.marshal (m : MsgCheckInResponse) : Res (List UInt8) :=
  marshalBytes m.size m.marshalToSizedBuffer

structure Params where
deriving DecidableEq, Repr

def Params.schema : Schema Params := ⟨"Params", []⟩

def Params.unmarshal (m : Params) (dAtA : List UInt8) : Res Params := schema.unmarshal m dAtA

def Params.size (_ : Params) : ℤ := 0

def Params.marshalToSizedBuffer (_ : Params) (dAtA : List UInt8) : Res (List UInt8 × ℤ) :=
  marshalSized (fun s => .ok s) dAtA

structure QueryParamsRequest where
deriving DecidableEq, Repr

def QueryParamsRequest.schema : Schema QueryParamsRequest := ⟨"QueryParamsRequest", []⟩

def QueryParamsRequest.unmarshal (m : QueryParamsRequest) (dAtA : List UInt8) :
    Res QueryParamsRequest := schema.unmarshal m dAtA

/-! ## the messages that hold the parameters -/

structure GenesisState where
  params : Params
deriving DecidableEq, Repr

namespace GenesisState

def schema : Schema GenesisState where
  name := "GenesisState"
  fields := [⟨1, "Params", fun m s => do
    let params ← m.params.unmarshal s
    .ok { m with params := params }⟩]

def unmarshal (m : GenesisState) (dAtA : List UInt8) : Res GenesisState := schema.unmarshal m dAtA

def marshalToSizedBuffer (m : GenesisState) (dAtA : List UInt8) : Res (List UInt8 × ℤ) :=
  marshalSized (putMessage 0xa m.params.marshalToSizedBuffer) dAtA

def size (m : GenesisState) : ℤ := addMessage 0 m.params.size

def marshal (m : GenesisState) : Res (List UInt8) := marshalBytes m.size m.marshalToSizedBuffer

end GenesisState

structure QueryParamsResponse where
  params : Params
deriving DecidableEq, Repr

namespace QueryParamsResponse

def schema : Schema QueryParamsResponse where
  name := "QueryParamsResponse"
  fields := [⟨1, "Params", fun m s => do
    let params ← m.params.unmarshal s
    .ok { m with params := params }⟩]

def unmarshal (m : QueryParamsResponse) (dAtA : List UInt8) : Res QueryParamsResponse :=
  schema.unmarshal m dAtA

def marshalToSizedBuffer (m : QueryParamsResponse) (dAtA : List UInt8) : Res (List UInt8 × ℤ) :=
  marshalSized (putMessage 0xa m.params.marshalToSizedBuffer) dAtA

def size (m : QueryParamsResponse) : ℤ := addMessage 0 m.params.size

def marshal (m : QueryParamsResponse) : Res (List UInt8) :=
  marshalBytes m.size m.marshalToSizedBuffer

end QueryParamsResponse

/-! ## no panic -/

theorem stores_check_in : MsgCheckIn.schema.Stores := by
  intro f hf m content _
  simp only [MsgCheckIn.schema, List.mem_cons, List.not_mem_nil, or_false] at hf
  rcases hf with rfl | rfl | rfl <;> rfl

theorem stores_params : Params.schema.Stores := fun _ hf => absurd hf List.not_mem_nil

theorem isPanic_bind_ok {α β : Type} {x : Res α} {g : α → β} (h : isPanic x = false) :
    isPanic (x >>= fun a => (.ok (g a) : Res β)) = false := by
  cases x with
  | ok _ => rfl
  | error a =>
    cases a with
    | error _ => rfl
    | panic _ => cases h

theorem stores_genesis : GenesisState.schema.Stores := by
  intro f hf m content hc
  simp only [GenesisState.schema, List.mem_singleton] at hf
  subst hf
  exact isPanic_bind_ok (Schema.unmarshal_returns stores_params m.params hc)

theorem stores_query_response : QueryParamsResponse.schema.Stores := by
  intro f hf m content hc
  simp only [QueryParamsResponse.schema, List.mem_singleton] at hf
  subst hf
  exact isPanic_bind_ok (Schema.unmarshal_returns stores_params m.params hc)

/-- **No panic.**  Whatever a peer sends, each of the six `Unmarshal` methods returns: a message, or
an error. -/
theorem unmarshal_never_panics (dAtA : List UInt8) (hfit : dAtA.length < 2 ^ 63) :
    (∀ m : MsgCheckIn, isPanic (m.unmarshal dAtA) = false) ∧
    (∀ m : MsgCheckInResponse, isPanic (m.unmarshal dAtA) = false) ∧
    (∀ m : Params, isPanic (m.unmarshal dAtA) = false) ∧
    (∀ m : QueryParamsRequest, isPanic (m.unmarshal dAtA) = false) ∧
    (∀ m : GenesisState, isPanic (m.unmarshal dAtA) = false) ∧
    (∀ m : QueryParamsResponse, isPanic (m.unmarshal dAtA) = false) := by
  refine ⟨fun m => ?_, fun m => ?_, fun m => ?_, fun m => ?_, fun m => ?_, fun m => ?_⟩
  · exact Schema.unmarshal_returns stores_check_in m hfit
  · exact Schema.unmarshal_returns (fun f hf => absurd hf List.not_mem_nil) m hfit
  · exact Schema.unmarshal_returns stores_params m hfit
  · exact Schema.unmarshal_returns (fun f hf => absurd hf List.not_mem_nil) m hfit
  · exact Schema.unmarshal_returns stores_genesis m hfit
  · exact Schema.unmarshal_returns stores_query_response m hfit

theorem unmarshal_never_panics_truncated :
    isPanic (MsgCheckIn.empty.unmarshal [0x0a, 0xff, 0xff, 0xff]) = false :=
  (unmarshal_never_panics [0x0a, 0xff, 0xff, 0xff] (by decide)).1 MsgCheckIn.empty

/-! ### the helpers of each generated file -/

def skipTx (dAtA : List UInt8) : Res ℤ := skip dAtA
def skipGenesis (dAtA : List UInt8) : Res ℤ := skip dAtA
def skipParams (dAtA : List UInt8) : Res ℤ := skip dAtA
def skipQuery (dAtA : List UInt8) : Res ℤ := skip dAtA

def sovTx (x : UInt64) : ℤ := sov x
def sovGenesis (x : UInt64) : ℤ := sov x
def sovParams (x : UInt64) : ℤ := sov x
def sovQuery (x : UInt64) : ℤ := sov x

def encodeVarintTx (dAtA : List UInt8) (offset : ℤ) (v : UInt64) : Res (List UInt8 × ℤ) :=
  encodeVarint dAtA offset v
def encodeVarintGenesis (dAtA : List UInt8) (offset : ℤ) (v : UInt64) : Res (List UInt8 × ℤ) :=
  encodeVarint dAtA offset v
def encodeVarintParams (dAtA : List UInt8) (offset : ℤ) (v : UInt64) : Res (List UInt8 × ℤ) :=
  encodeVarint dAtA offset v
def encodeVarintQuery (dAtA : List UInt8) (offset : ℤ) (v : UInt64) : Res (List UInt8 × ℤ) :=
  encodeVarint dAtA offset v

/-- `encodeVarint` and `sov` of one file agree: what is written is as long as announced -/
def VarintHelpers (encodeVarint : List UInt8 → ℤ → UInt64 → Res (List UInt8 × ℤ)) (sov : UInt64 → ℤ) :
    Prop :=
  ∀ v : UInt64, Writes (fun s => encodeVarint s.1 s.2 v) (Varint.encode v.toNat) ∧
    sov v = (Varint.encode v.toNat).length

theorem varintHelpers : VarintHelpers encodeVarintTx sovTx ∧
    VarintHelpers encodeVarintGenesis sovGenesis ∧ VarintHelpers encodeVarintParams sovParams ∧
    VarintHelpers encodeVarintQuery sovQuery := by
  have h : VarintHelpers encodeVarint sov := fun v => ⟨writes_varint v, sov_eq v⟩
  exact ⟨h, h, h, h⟩

theorem skip_eq_field (dAtA : List UInt8) (hfit : dAtA.length < 2 ^ 63) (n : ℕ)
    (hn : n ≤ dAtA.length) : skip dAtA = .ok n ↔ ∃ e, Message [e] (dAtA.take n) := by
  constructor
  · intro h
    obtain ⟨e, bs, rest, rfl, hlen, he⟩ := skip_sound hfit h (by omega)
    refine ⟨e, ?_⟩
    rw [Nat.cast_inj.mp hlen, List.take_left]
    exact he
  · rintro ⟨e, he⟩
    have hlen : (dAtA.take n).length = n := by
      rw [List.length_take]
      omega
    have hsplit := List.take_append_drop n dAtA
    have h : skip (dAtA.take n ++ dAtA.drop n) = .ok (dAtA.take n).length :=
      skip_complete he (by rwa [hsplit])
    rwa [hsplit, hlen] at h

/-- **`skipTx` and its copies walk over one field.**  An answer that stays within the slice is the
length of a field with all its groups closed, and the field at the front of the slice is what is
answered. -/
theorem skip_exact (dAtA : List UInt8) (hfit : dAtA.length < 2 ^ 63) (n : ℕ) (hn : n ≤ dAtA.length) :
    (skipTx dAtA = .ok n ↔ ∃ e, Message [e] (dAtA.take n)) ∧
    (skipGenesis dAtA = .ok n ↔ ∃ e, Message [e] (dAtA.take n)) ∧
    (skipParams dAtA = .ok n ↔ ∃ e, Message [e] (dAtA.take n)) ∧
    (skipQuery dAtA = .ok n ↔ ∃ e, Message [e] (dAtA.take n)) := by
  have h := skip_eq_field dAtA hfit n hn
  exact ⟨h, h, h, h⟩

/-- a group with a varint in it, and a byte after it -/
theorem skip_exact_group : skipTx [0x23, 0x08, 0x05, 0x24, 0x31] = .ok 4 := by
  have hopen : Varint.Word [0x23] 35 := ⟨35, .last (by decide), by decide, by decide⟩
  have hclose : Varint.Word [0x24] 36 := ⟨36, .last (by decide), by decide, by decide⟩
  have hk : Varint.Word [0x08] 8 := ⟨8, .last (by decide), by decide, by decide⟩
  have hv : Varint.Word [0x05] 5 := ⟨5, .last (by decide), by decide, by decide⟩
  have hbody : Message [⟨8, [0x05]⟩] [0x08, 0x05] := .of_scalar hk (.varint hv)
  exact (skip_exact [0x23, 0x08, 0x05, 0x24, 0x31] (by decide) 4 (by decide)).1.mpr
    ⟨_, .of_group hopen (by decide) hbody hclose (by decide)⟩

/-! ## decoding a check-in -/

namespace MsgCheckIn

/-- the content of the last field with a number, or what was there before -/
def lastContent (num : ℤ) (old : List UInt8) (es : List Entry) : List UInt8 :=
  es.foldl (fun s e => if Schema.fieldNumber e.key = num then e.content else s) old

/-- a field that a check-in may have: its number is valid, and it is length-delimited when it is one of
the three the message knows -/
def Allowed (e : Entry) : Prop :=
  0 < Schema.fieldNumber e.key ∧ (Schema.fieldNumber e.key ≤ 3 → wireType e.key = 2)

/-- a field put in its place -/
def assign (m : MsgCheckIn) (e : Entry) : MsgCheckIn :=
  if Schema.fieldNumber e.key = 1 then { m with checkInAddress := e.content }
  else if Schema.fieldNumber e.key = 2 then { m with checkInMessage := e.content }
  else if Schema.fieldNumber e.key = 3 then { m with checkInTimezone := e.content }
  else m

theorem lookup_none {n : ℤ} (h1 : n ≠ 1) (h2 : n ≠ 2) (h3 : n ≠ 3) : schema.lookup n = none := by
  simp [Schema.lookup, schema, h1.symm, h2.symm, h3.symm]

theorem take_ok {m m' : MsgCheckIn} {e : Entry} :
    schema.take m e = .ok m' ↔ Allowed e ∧ m' = m.assign e := by
  unfold Schema.take Allowed assign
  generalize Schema.fieldNumber e.key = n
  by_cases h0 : n ≤ 0
  · rw [if_pos h0]
    constructor
    · intro h
      cases h
    · rintro ⟨⟨h, _⟩, _⟩
      omega
  · rw [if_neg h0]
    by_cases h4 : 3 < n
    · have h1 : n ≠ 1 := by omega
      have h2 : n ≠ 2 := by omega
      have h3 : n ≠ 3 := by omega
      have hfar : ¬ n ≤ 3 := by omega
      rw [lookup_none h1 h2 h3, if_neg h1, if_neg h2, if_neg h3]
      simp [hfar, lt_of_not_ge h0, eq_comm]
    · have hfound : ∃ f, schema.lookup n = some f ∧ ∀ s, f.store m s = .ok (
          if n = 1 then { m with checkInAddress := s } else if n = 2 then { m with checkInMessage := s }
          else if n = 3 then { m with checkInTimezone := s } else m) := by
        have hn : n = 1 ∨ n = 2 ∨ n = 3 := by omega
        rcases hn with rfl | rfl | rfl
        · exact ⟨_, rfl, fun s => rfl⟩
        · exact ⟨_, rfl, fun s => rfl⟩
        · exact ⟨_, rfl, fun s => rfl⟩
      obtain ⟨f, hf, hstore⟩ := hfound
      rw [hf]
      simp only
      by_cases ht : wireType e.key = 2
      · rw [if_pos ht, hstore, Except.ok.injEq, eq_comm]
        constructor
        · exact fun h => ⟨⟨by omega, fun _ => ht⟩, h⟩
        · exact fun h => h.2
      · rw [if_neg ht]
        constructor
        · intro h
          cases h
        · rintro ⟨⟨_, h⟩, _⟩
          exact absurd (h (by omega)) ht

theorem foldl_assign (es : List Entry) (m : MsgCheckIn) : es.foldl assign m =
    ⟨lastContent 1 m.checkInAddress es, lastContent 2 m.checkInMessage es,
      lastContent 3 m.checkInTimezone es⟩ := by
  induction es generalizing m with
  | nil => rfl
  | cons e es ih =>
    have hassign : m.assign e =
        ⟨if Schema.fieldNumber e.key = 1 then e.content else m.checkInAddress,
          if Schema.fieldNumber e.key = 2 then e.content else m.checkInMessage,
          if Schema.fieldNumber e.key = 3 then e.content else m.checkInTimezone⟩ := by
      obtain ⟨address, message, timezone⟩ := m
      unfold assign
      generalize Schema.fieldNumber e.key = n
      grind
    simp only [List.foldl_cons, ih, hassign, lastContent]

theorem foldlM_take {es : List Entry} {m m' : MsgCheckIn} :
    es.foldlM schema.take m = .ok m' ↔ (∀ e ∈ es, Allowed e) ∧ m' = es.foldl assign m := by
  induction es generalizing m with
  | nil =>
    rw [Fallible.foldlM_nil_ok]
    simp [eq_comm]
  | cons e es ih =>
    rw [Fallible.foldlM_cons_ok, List.forall_mem_cons, List.foldl_cons]
    constructor
    · rintro ⟨t, ht, hes⟩
      obtain ⟨he, ht⟩ := take_ok.mp ht
      obtain ⟨hall, hes⟩ := ih.mp hes
      rw [ht] at hes
      exact ⟨⟨he, hall⟩, hes⟩
    · rintro ⟨⟨he, hall⟩, hes⟩
      exact ⟨m.assign e, take_ok.mpr ⟨he, rfl⟩, ih.mpr ⟨hall, hes⟩⟩

/-- the bytes are fields of a check-in, and each string of the message is the last field with its number,
or what the message held before -/
def Reads (m : MsgCheckIn) (dAtA : List UInt8) (m' : MsgCheckIn) : Prop :=
  ∃ es, Message es dAtA ∧ (∀ e ∈ es, Allowed e) ∧
    m' = ⟨lastContent 1 m.checkInAddress es, lastContent 2 m.checkInMessage es,
      lastContent 3 m.checkInTimezone es⟩

theorem unmarshal_reads {m m' : MsgCheckIn} {dAtA : List UInt8} (hfit : dAtA.length < 2 ^ 63) :
    m.unmarshal dAtA = .ok m' ↔ m.Reads dAtA m' := by
  constructor
  · intro h
    obtain ⟨es, hes, ht⟩ := Schema.unmarshal_sound schema hfit h
    obtain ⟨hall, rfl⟩ := foldlM_take.mp ht
    exact ⟨es, hes, hall, foldl_assign es m⟩
  · rintro ⟨es, hes, hall, rfl⟩
    refine (schema.unmarshal_message hes hfit m).trans (foldlM_take.mpr ⟨hall, ?_⟩)
    exact (foldl_assign es m).symm

/-- **What a check-in is on the wire.**  `Unmarshal` accepts the sequences of fields whose numbers are
valid and whose fields 1 to 3 are length-delimited, whatever else they hold; each string of the message
is then the last field with its number, or what the message held before. -/
theorem unmarshal_check_in_iff (m m' : MsgCheckIn) (dAtA : List UInt8) (hfit : dAtA.length < 2 ^ 63) :
    m.unmarshal dAtA = .ok m' ↔ ∃ es, Message es dAtA ∧ (∀ e ∈ es, Allowed e) ∧
      m' = ⟨lastContent 1 m.checkInAddress es, lastContent 2 m.checkInMessage es,
        lastContent 3 m.checkInTimezone es⟩ :=
  unmarshal_reads hfit

/-- a timezone, an unknown number, a second timezone and an address whose length takes two bytes -/
def mixed : List UInt8 :=
  [0x1a, 0x01, 0x31, 0x20, 0x05, 0x1a, 0x01, 0x32, 0x0a, 0x82, 0x00, 0x6d, 0x65]

theorem message_mixed :
    Message [⟨26, [0x31]⟩, ⟨32, [0x05]⟩, ⟨26, [0x32]⟩, ⟨10, [0x6d, 0x65]⟩] mixed := by
  have hzone : Varint.Word [0x1a] 26 := ⟨26, .last (by decide), by decide, by decide⟩
  have hnum : Varint.Word [0x20] 32 := ⟨32, .last (by decide), by decide, by decide⟩
  have haddr : Varint.Word [0x0a] 10 := ⟨10, .last (by decide), by decide, by decide⟩
  have hone : Varint.Word [0x01] 1 := ⟨1, .last (by decide), by decide, by decide⟩
  have hfive : Varint.Word [0x05] 5 := ⟨5, .last (by decide), by decide, by decide⟩
  have htwo : Varint.Word [0x82, 0x00] 2 :=
    ⟨2, .more (b := 0x82) (by decide) (.last (by decide)), by decide, by decide⟩
  have h1 : Message [⟨26, [0x31]⟩] [0x1a, 0x01, 0x31] :=
    .of_scalar hzone (.bytes hone (by decide) rfl)
  have h2 : Message [⟨32, [0x05]⟩] [0x20, 0x05] := .of_scalar hnum (.varint hfive)
  have h3 : Message [⟨26, [0x32]⟩] [0x1a, 0x01, 0x32] :=
    .of_scalar hzone (.bytes hone (by decide) rfl)
  have h4 : Message [⟨10, [0x6d, 0x65]⟩] [0x0a, 0x82, 0x00, 0x6d, 0x65] :=
    .of_scalar haddr (.bytes htwo (by decide) rfl)
  exact h1.append (h2.append (h3.append h4))

theorem allowed_mixed :
    ∀ e ∈ ([⟨26, [0x31]⟩, ⟨32, [0x05]⟩, ⟨26, [0x32]⟩, ⟨10, [0x6d, 0x65]⟩] : List Entry), Allowed e := by
  unfold Allowed
  decide

theorem unmarshal_check_in_iff_mixed :
    (⟨[], [0x68, 0x69], []⟩ : MsgCheckIn).unmarshal mixed = .ok ⟨[0x6d, 0x65], [0x68, 0x69], [0x32]⟩ :=
  (unmarshal_check_in_iff _ _ mixed (by decide)).mpr ⟨_, message_mixed, allowed_mixed, by decide⟩

/-! ## encoding a check-in -/

/-- the bytes of a check-in, read forwards -/
def encode (m : MsgCheckIn) : List UInt8 :=
  encodeString 0xa m.checkInAddress ++
    (encodeString 0x12 m.checkInMessage ++ encodeString 0x1a m.checkInTimezone)

/-- the field of a string, when it is there -/
def entry (key : ℕ) (content : List UInt8) : List Entry := if content = [] then [] else [⟨key, content⟩]

def entries (m : MsgCheckIn) : List Entry :=
  entry 0xa m.checkInAddress ++ (entry 0x12 m.checkInMessage ++ entry 0x1a m.checkInTimezone)

theorem message_encodeString (tag : UInt8) {content : List UInt8} (hc : content.length < 2 ^ 63)
    (hlt : tag.toNat < 128) (ht : wireType tag.toNat = 2) :
    Message (entry tag.toNat content) (encodeString tag content) := by
  unfold entry encodeString
  by_cases hnil : content = []
  · rw [if_pos hnil, if_pos hnil]
    exact .nil
  · have hk : Varint.Word [tag] tag.toNat :=
      ⟨tag.toNat, .last hlt, by simp, (Nat.mod_eq_of_lt (by omega)).symm⟩
    have hs : Scalar (wireType tag.toNat) content (Varint.encode content.length ++ content) := by
      rw [ht]
      exact .bytes (Varint.word_encode (by omega)) hc rfl
    rw [if_neg hnil, if_neg hnil]
    exact .of_scalar hk hs

theorem length_encode (m : MsgCheckIn) : m.encode.length =
    (encodeString 0xa m.checkInAddress).length + (encodeString 0x12 m.checkInMessage).length +
      (encodeString 0x1a m.checkInTimezone).length := by
  rw [encode, List.length_append, List.length_append, Nat.add_assoc]

theorem length_le_encodeString (tag : UInt8) (content : List UInt8) :
    content.length ≤ (encodeString tag content).length := by
  unfold encodeString encodeField
  by_cases hnil : content = []
  · rw [if_pos hnil, hnil]
  · rw [if_neg hnil, List.length_append, List.length_append]
    omega

section
variable {m : MsgCheckIn} (hm : m.encode.length < 2 ^ 63)
include hm

theorem fields_small : m.checkInAddress.length < 2 ^ 63 ∧ m.checkInMessage.length < 2 ^ 63 ∧
    m.checkInTimezone.length < 2 ^ 63 := by
  have h1 := length_le_encodeString 0xa m.checkInAddress
  have h2 := length_le_encodeString 0x12 m.checkInMessage
  have h3 := length_le_encodeString 0x1a m.checkInTimezone
  rw [length_encode] at hm
  omega

theorem writes_blocks : Writes m.blocks m.encode := by
  obtain ⟨h1, h2, h3⟩ := fields_small hm
  have hw := ((writes_putString 0x1a h3).comp (writes_putString 0x12 h2)).comp (writes_putString 0xa h1)
  rw [encode]
  convert hw using 1
  funext s
  rw [blocks, bind_assoc]

theorem size_eq : m.size = m.encode.length := by
  have hlen := length_encode m
  have h2 := length_split (encodeString 0xa m.checkInAddress) (encodeString 0x12 m.checkInMessage)
  have h1 : addString 0 m.checkInAddress = (encodeString 0xa m.checkInAddress).length :=
    addString_eq 0xa [] m.checkInAddress (by rw [List.nil_append]; omega)
  rw [size, h1, addString_eq 0x12 _ _ (by omega), addString_eq 0x1a _ _ (by rw [List.append_assoc]; exact hm),
    List.append_assoc, encode]

theorem marshal_eq : m.marshal = .ok m.encode := by
  have h := marshalBytes_ok (writes_blocks hm)
  rw [← size_eq hm] at h
  exact h

theorem message_encode : Message m.entries m.encode := by
  obtain ⟨h1, h2, h3⟩ := fields_small hm
  exact (message_encodeString 0xa h1 (by decide) (by decide)).append
    ((message_encodeString 0x12 h2 (by decide) (by decide)).append
      (message_encodeString 0x1a h3 (by decide) (by decide)))

end

/-- **The encoders of a check-in agree.**  `Size` is the length of the encoding, `Marshal` returns the
encoding, and the methods that are given a buffer put it at the end of the buffer (`MarshalTo`: at its
front), leave the rest as it was, and panic exactly when the buffer is too small.  `XXX_Marshal` answers
the front of the buffer it was given, which is the encoding when the buffer has its length. -/
theorem marshal_check_in_exact (m : MsgCheckIn) (hm : m.encode.length < 2 ^ 63) :
    m.size = m.encode.length ∧ m.marshal = .ok m.encode ∧
    (∀ dAtA : List UInt8, m.encode.length ≤ dAtA.length →
      m.marshalToSizedBuffer dAtA =
        .ok (dAtA.take (dAtA.length - m.encode.length) ++ m.encode, (m.encode.length : ℤ)) ∧
      m.marshalTo dAtA = .ok (m.encode ++ dAtA.drop m.encode.length, (m.encode.length : ℤ)) ∧
      m.xxx_Marshal dAtA =
        .ok ((dAtA.take (dAtA.length - m.encode.length) ++ m.encode).take m.encode.length)) ∧
    (∀ dAtA : List UInt8, dAtA.length < m.encode.length →
      isPanic (m.marshalToSizedBuffer dAtA) = true ∧ isPanic (m.marshalTo dAtA) = true ∧
      isPanic (m.xxx_Marshal dAtA) = true) := by
  have hw := writes_blocks hm
  have hsize := size_eq hm
  refine ⟨hsize, marshal_eq hm, fun dAtA hle => ⟨marshalSized_ok hw hle, ?_, xxxMarshal_ok hw hle⟩,
    fun dAtA hlt => ⟨marshalSized_panics hw hlt, ?_, ?_⟩⟩
  · rw [marshalTo, hsize]
    exact marshalTo_ok hw hle
  · have hslice : slice dAtA 0 m.encode.length = goPanic "slice bounds out of range" := by
      rw [slice, if_neg (by omega)]
    rw [marshalTo, hsize, Proto.marshalTo, hslice]
    rfl
  · exact isPanic_bind _ (marshalSized_panics hw hlt)

/-- the address "me", the text "hi" and no timezone -/
def greeting : MsgCheckIn := ⟨[0x6d, 0x65], [0x68, 0x69], []⟩

theorem encode_greeting : greeting.encode = [0x0a, 0x02, 0x6d, 0x65, 0x12, 0x02, 0x68, 0x69] := by
  simp [greeting, encode, encodeString, encodeField, Varint.encode_small]

theorem marshal_check_in_exact_greeting :
    greeting.size = 8 ∧ greeting.marshal = .ok [0x0a, 0x02, 0x6d, 0x65, 0x12, 0x02, 0x68, 0x69] ∧
    greeting.marshalToSizedBuffer [1, 2, 3, 4, 5, 6, 7, 8, 9, 10] =
      .ok ([1, 2, 0x0a, 0x02, 0x6d, 0x65, 0x12, 0x02, 0x68, 0x69], 8) ∧
    greeting.marshalTo [1, 2, 3, 4, 5, 6, 7, 8, 9, 10] =
      .ok ([0x0a, 0x02, 0x6d, 0x65, 0x12, 0x02, 0x68, 0x69, 9, 10], 8) ∧
    greeting.xxx_Marshal [1, 2, 3, 4, 5, 6, 7, 8, 9, 10] =
      .ok [1, 2, 0x0a, 0x02, 0x6d, 0x65, 0x12, 0x02] ∧
    isPanic (greeting.marshalTo [1, 2, 3, 4, 5, 6, 7]) = true := by
  obtain ⟨hsize, hmarshal, hfits, hsmall⟩ := marshal_check_in_exact greeting (by rw [encode_greeting]; decide)
  rw [encode_greeting] at hsize hmarshal hfits hsmall
  obtain ⟨hsized, hto, hxxx⟩ := hfits [1, 2, 3, 4, 5, 6, 7, 8, 9, 10] (by decide)
  exact ⟨hsize, hmarshal, hsized, hto, hxxx, (hsmall [1, 2, 3, 4, 5, 6, 7] (by decide)).2.1⟩

/-! ## round trips -/

/-- the strings of the second message over those of the first -/
def merge (m₁ m₂ : MsgCheckIn) : MsgCheckIn where
  checkInAddress := if m₂.checkInAddress = [] then m₁.checkInAddress else m₂.checkInAddress
  checkInMessage := if m₂.checkInMessage = [] then m₁.checkInMessage else m₂.checkInMessage
  checkInTimezone := if m₂.checkInTimezone = [] then m₁.checkInTimezone else m₂.checkInTimezone

theorem foldl_entry (m : MsgCheckIn) (key : ℕ) (content : List UInt8) :
    (entry key content).foldl assign m = if content = [] then m else m.assign ⟨key, content⟩ := by
  unfold entry
  by_cases hc : content = []
  · rw [if_pos hc, if_pos hc, List.foldl_nil]
  · rw [if_neg hc, if_neg hc, List.foldl_cons, List.foldl_nil]

theorem allowed_entry {key : ℕ} (content : List UInt8) (h0 : 0 < Schema.fieldNumber key)
    (ht : wireType key = 2) : ∀ e ∈ entry key content, Allowed e := by
  intro e he
  unfold entry at he
  split at he
  · cases he
  · obtain rfl := List.mem_singleton.mp he
    exact ⟨h0, fun _ => ht⟩

theorem allowed_entries (m : MsgCheckIn) : ∀ e ∈ m.entries, Allowed e := by
  intro e he
  rcases List.mem_append.mp he with h | h
  · exact allowed_entry _ (by decide) (by decide) e h
  · rcases List.mem_append.mp h with h | h
    · exact allowed_entry _ (by decide) (by decide) e h
    · exact allowed_entry _ (by decide) (by decide) e h

theorem foldl_entries (m₁ m₂ : MsgCheckIn) : m₂.entries.foldl assign m₁ = m₁.merge m₂ := by
  have n1 : Schema.fieldNumber 0xa = 1 := by decide
  have n2 : Schema.fieldNumber 0x12 = 2 := by decide
  have n3 : Schema.fieldNumber 0x1a = 3 := by decide
  have a1 (m : MsgCheckIn) (s : List UInt8) : m.assign ⟨0xa, s⟩ = { m with checkInAddress := s } := by
    rw [assign, if_pos n1]
  have a2 (m : MsgCheckIn) (s : List UInt8) : m.assign ⟨0x12, s⟩ = { m with checkInMessage := s } := by
    rw [assign, if_neg (by rw [n2]; decide), if_pos n2]
  have a3 (m : MsgCheckIn) (s : List UInt8) : m.assign ⟨0x1a, s⟩ = { m with checkInTimezone := s } := by
    rw [assign, if_neg (by rw [n3]; decide), if_neg (by rw [n3]; decide), if_pos n3]
  rw [entries, List.foldl_append, List.foldl_append, foldl_entry, foldl_entry, foldl_entry, a1, a2, a3,
    merge]
  split <;> split <;> split <;> rfl

theorem unmarshal_encode (m₁ : MsgCheckIn) {m₂ : MsgCheckIn} (hm : m₂.encode.length < 2 ^ 63) :
    m₁.unmarshal m₂.encode = .ok (m₁.merge m₂) := by
  refine (schema.unmarshal_message (message_encode hm) hm m₁).trans (foldlM_take.mpr ⟨?_, ?_⟩)
  · exact allowed_entries m₂
  · exact (foldl_entries m₁ m₂).symm

theorem merge_empty (m : MsgCheckIn) : empty.merge m = m := by
  have h (s : List UInt8) : (if s = [] then [] else s) = s := by
    split
    · rename_i hs
      exact hs.symm
    · rfl
  simp only [merge, empty, h]

/-- **Merge.**  Behind bytes that decode to a message, the encoding of a second message replaces the
strings the second message has and leaves the others; behind no bytes it decodes to the second message. -/
theorem unmarshal_merge (m m₁ m₂ : MsgCheckIn) (as : List UInt8) (h : m.unmarshal as = .ok m₁)
    (hfit : (as ++ m₂.encode).length < 2 ^ 63) :
    (m₂.marshal >>= fun bs => m.unmarshal (as ++ bs)) = .ok (m₁.merge m₂) ∧
    (m₂.marshal >>= empty.unmarshal) = .ok m₂ := by
  have hlen := length_split as m₂.encode
  have hm : m₂.encode.length < 2 ^ 63 := by omega
  rw [marshal_eq hm]
  constructor
  · exact (Schema.unmarshal_append schema hfit h).mpr (unmarshal_encode m₁ hm)
  · exact (unmarshal_encode empty hm).trans (congrArg Except.ok (merge_empty m₂))

theorem unmarshal_merge_timezones :
    ((⟨[], [], [0x32]⟩ : MsgCheckIn).marshal >>= fun bs => empty.unmarshal ([0x1a, 0x01, 0x31] ++ bs)) =
      .ok ((⟨[], [], [0x31]⟩ : MsgCheckIn).merge ⟨[], [], [0x32]⟩) ∧
    ((⟨[], [], [0x32]⟩ : MsgCheckIn).marshal >>= empty.unmarshal) = .ok ⟨[], [], [0x32]⟩ := by
  have hone : (⟨[], [], [0x31]⟩ : MsgCheckIn).encode.length < 2 ^ 63 := by
    simp [encode, encodeString, encodeField, Varint.encode_small]
  have hbytes : (⟨[], [], [0x31]⟩ : MsgCheckIn).encode = [0x1a, 0x01, 0x31] := by
    simp [encode, encodeString, encodeField, Varint.encode_small]
  have hfirst := unmarshal_encode empty hone
  rw [hbytes, merge_empty] at hfirst
  exact unmarshal_merge empty ⟨[], [], [0x31]⟩ ⟨[], [], [0x32]⟩ [0x1a, 0x01, 0x31] hfirst
    (by simp [encode, encodeString, encodeField, Varint.encode_small])

/-! ## re-encoding -/

theorem length_encodeString_le (tag : UInt8) {e : Entry} {as : List UInt8} (he : Message [e] as)
    (ht : wireType e.key = 2) : (encodeString tag e.content).length ≤ as.length := by
  obtain ⟨ks, ls, rfl, hk, hl, _⟩ := he.of_bytes ht
  have hkpos := hk.length_pos
  have hlen := hl.length_encode_le
  unfold encodeString encodeField
  by_cases hc : e.content = []
  · rw [if_pos hc]
    exact Nat.zero_le _
  · rw [if_neg hc]
    simp only [List.length_append, List.length_singleton]
    omega

theorem length_assign_le (m : MsgCheckIn) {e : Entry} {as : List UInt8} (he : Message [e] as)
    (ha : Allowed e) : (m.assign e).encode.length ≤ m.encode.length + as.length := by
  have hcost (tag : UInt8) (h : Schema.fieldNumber e.key ≤ 3) :
      (encodeString tag e.content).length ≤ as.length := length_encodeString_le tag he (ha.2 h)
  unfold assign
  rw [length_encode, length_encode]
  by_cases h1 : Schema.fieldNumber e.key = 1
  · have := hcost 0xa (by omega)
    rw [if_pos h1]
    simp only
    omega
  · by_cases h2 : Schema.fieldNumber e.key = 2
    · have := hcost 0x12 (by omega)
      rw [if_neg h1, if_pos h2]
      simp only
      omega
    · by_cases h3 : Schema.fieldNumber e.key = 3
      · have := hcost 0x1a (by omega)
        rw [if_neg h1, if_neg h2, if_pos h3]
        simp only
        omega
      · rw [if_neg h1, if_neg h2, if_neg h3]
        omega

theorem length_foldl_le {es : List Entry} {bs : List UInt8} (m : MsgCheckIn) (hes : Message es bs)
    (hall : ∀ e ∈ es, Allowed e) :
    (es.foldl assign m).encode.length ≤ m.encode.length + bs.length := by
  induction es generalizing m bs with
  | nil => exact Nat.le_add_right _ _
  | cons e es ih =>
    obtain ⟨as, rest, rfl, he, hes⟩ := hes.uncons
    rw [List.forall_mem_cons] at hall
    have hfirst := length_assign_le m he hall.1
    have hrest := ih (m.assign e) hes hall.2
    rw [List.foldl_cons, List.length_append]
    omega

/-- **Re-encoding.**  A check-in that was decoded is encoded in no more bytes than it was read from, and
decoding those gives the same check-in: the encoding is the canonical form of all its spellings. -/
theorem reencode_shorter (m : MsgCheckIn) (dAtA : List UInt8) (hfit : dAtA.length < 2 ^ 63)
    (h : empty.unmarshal dAtA = .ok m) :
    ∃ out, m.marshal = .ok out ∧ out.length ≤ dAtA.length ∧ empty.unmarshal out = .ok m := by
  obtain ⟨es, hes, ht⟩ := Schema.unmarshal_sound schema hfit h
  obtain ⟨hall, hm⟩ := foldlM_take.mp ht
  have hle := length_foldl_le empty hes hall
  have hempty : empty.encode.length = 0 := by decide
  rw [← hm, hempty, Nat.zero_add] at hle
  have hsmall : m.encode.length < 2 ^ 63 := lt_of_le_of_lt hle hfit
  refine ⟨m.encode, marshal_eq hsmall, hle, ?_⟩
  exact (unmarshal_encode empty hsmall).trans (congrArg Except.ok (merge_empty m))

theorem reencode_shorter_mixed :
    ∃ out, (⟨[0x6d, 0x65], [], [0x32]⟩ : MsgCheckIn).marshal = .ok out ∧ out.length ≤ mixed.length ∧
      empty.unmarshal out = .ok ⟨[0x6d, 0x65], [], [0x32]⟩ := by
  have hread : empty.unmarshal mixed = .ok ⟨[0x6d, 0x65], [], [0x32]⟩ :=
    (unmarshal_reads (by decide)).mpr ⟨_, message_mixed, allowed_mixed, by decide⟩
  exact reencode_shorter ⟨[0x6d, 0x65], [], [0x32]⟩ mixed (by decide) hread

end MsgCheckIn

/-! ## messages without fields and messages that hold one -/

/-- the bytes of a sequence of fields with valid numbers, the message that knows no field -/
def Plain (bs : List UInt8) : Prop := ∃ es, Message es bs ∧ ∀ e ∈ es, 0 < Schema.fieldNumber e.key

theorem foldlM_isOk_iff {M : Type} {sch : Schema M} {P : Entry → Prop} {es : List Entry}
    (h : ∀ m, ∀ e ∈ es, (∃ m', sch.take m e = .ok m') ↔ P e) (m : M) :
    (∃ m', es.foldlM sch.take m = .ok m') ↔ ∀ e ∈ es, P e := by
  induction es generalizing m with
  | nil => exact ⟨fun _ e he => absurd he List.not_mem_nil, fun _ => ⟨m, rfl⟩⟩
  | cons e es ih =>
    have hrest (m : M) := ih (fun m e he => h m e (List.mem_cons_of_mem _ he)) m
    rw [List.forall_mem_cons]
    constructor
    · rintro ⟨m', hm'⟩
      obtain ⟨t, ht, hes⟩ := Fallible.foldlM_cons_ok.mp hm'
      exact ⟨(h m e List.mem_cons_self).mp ⟨t, ht⟩, (hrest t).mp ⟨m', hes⟩⟩
    · rintro ⟨he, hes⟩
      obtain ⟨t, ht⟩ := (h m e List.mem_cons_self).mpr he
      obtain ⟨m', hm'⟩ := (hrest t).mpr hes
      exact ⟨m', Fallible.foldlM_cons_ok.mpr ⟨t, ht, hm'⟩⟩

/-- which byte strings a schema accepts, from which fields it takes -/
theorem unmarshal_isOk_iff {M : Type} {sch : Schema M} {P : Entry → Prop}
    (h : ∀ m e, e.content.length < 2 ^ 63 → ((∃ m', sch.take m e = .ok m') ↔ P e)) (m : M)
    {dAtA : List UInt8} (hfit : dAtA.length < 2 ^ 63) :
    (∃ m', sch.unmarshal m dAtA = .ok m') ↔ ∃ es, Message es dAtA ∧ ∀ e ∈ es, P e := by
  have htake {es : List Entry} (hes : Message es dAtA) :
      (∃ m', es.foldlM sch.take m = .ok m') ↔ ∀ e ∈ es, P e :=
    foldlM_isOk_iff (fun m e he => h m e (lt_of_le_of_lt (hes.mem_content_le e he) hfit)) m
  constructor
  · rintro ⟨m', hm'⟩
    obtain ⟨es, hes, ht⟩ := sch.unmarshal_sound hfit hm'
    exact ⟨es, hes, (htake hes).mp ⟨m', ht⟩⟩
  · rintro ⟨es, hes, hall⟩
    rw [sch.unmarshal_message hes hfit]
    exact (htake hes).mpr hall

theorem unmarshal_plain_iff {M : Type} {sch : Schema M} (hsch : sch.fields = []) (m : M)
    {dAtA : List UInt8} (hfit : dAtA.length < 2 ^ 63) :
    (∃ m', sch.unmarshal m dAtA = .ok m') ↔ Plain dAtA := by
  refine unmarshal_isOk_iff (fun m e _ => ?_) m hfit
  have hnone : sch.lookup (Schema.fieldNumber e.key) = none := by
    rw [Schema.lookup, hsch]
    rfl
  unfold Schema.take
  rw [hnone]
  by_cases h0 : Schema.fieldNumber e.key ≤ 0
  · rw [if_pos h0]
    exact ⟨fun ⟨_, h⟩ => (by cases h), fun h => by omega⟩
  · rw [if_neg h0]
    exact ⟨fun _ => by omega, fun _ => ⟨m, rfl⟩⟩

/-- a sequence of fields with valid numbers whose fields numbered 1 are length-delimited and hold a
sequence of fields again -/
def HoldsPlain (bs : List UInt8) : Prop :=
  ∃ es, Message es bs ∧ ∀ e ∈ es, 0 < Schema.fieldNumber e.key ∧
    (Schema.fieldNumber e.key = 1 → wireType e.key = 2 ∧ Plain e.content)

theorem HoldsPlain.append {as bs : List UInt8} (ha : HoldsPlain as) (hb : HoldsPlain bs) :
    HoldsPlain (as ++ bs) := by
  obtain ⟨es, hes, hall⟩ := ha
  obtain ⟨fs, hfs, hall'⟩ := hb
  refine ⟨es ++ fs, hes.append hfs, fun e he => ?_⟩
  rcases List.mem_append.mp he with h | h
  · exact hall e h
  · exact hall' e h

theorem holdsPlain_encoding : HoldsPlain [0xa, 0] := by
  have hk : Varint.Word [0xa] 10 := ⟨10, .last (by decide), by decide, by decide⟩
  have hl : Varint.Word [0] 0 := ⟨0, .last (by decide), by decide, by decide⟩
  refine ⟨[⟨10, []⟩], .of_scalar hk (.bytes hl (by decide) rfl), fun e he => ?_⟩
  obtain rfl := List.mem_singleton.mp he
  exact ⟨by decide, fun _ => ⟨by decide, [], .nil, fun e he => absurd he List.not_mem_nil⟩⟩

theorem unmarshal_holds_iff {M : Type} {sch : Schema M} {name : String}
    {store : M → List UInt8 → Res M} (hsch : sch.fields = [⟨1, name, store⟩])
    (hstore : ∀ m s, s.length < 2 ^ 63 → ((∃ m', store m s = .ok m') ↔ Plain s)) (m : M)
    {dAtA : List UInt8} (hfit : dAtA.length < 2 ^ 63) :
    (∃ m', sch.unmarshal m dAtA = .ok m') ↔ HoldsPlain dAtA := by
  refine unmarshal_isOk_iff (fun m e hc => ?_) m hfit
  unfold Schema.take Schema.lookup
  rw [hsch]
  generalize Schema.fieldNumber e.key = n
  by_cases h0 : n ≤ 0
  · rw [if_pos h0]
    exact ⟨fun ⟨_, h⟩ => (by cases h), fun h => by omega⟩
  · rw [if_neg h0]
    by_cases h1 : n = 1
    · subst h1
      simp only [List.find?_cons_of_pos, decide_true]
      by_cases ht : wireType e.key = 2
      · rw [if_pos ht, hstore m e.content hc]
        exact ⟨fun h => ⟨by omega, fun _ => ⟨ht, h⟩⟩, fun h => (h.2 trivial).2⟩
      · rw [if_neg ht]
        exact ⟨fun ⟨_, h⟩ => (by cases h), fun h => absurd (h.2 trivial).1 ht⟩
    · have hnone : [(⟨1, name, store⟩ : FieldOf M)].find? (fun f => f.num = n) = none := by
        simp [eq_comm, h1]
      rw [hnone]
      exact ⟨fun _ => ⟨by omega, fun h => absurd h h1⟩, fun _ => ⟨m, rfl⟩⟩

theorem bind_isOk_iff {α β : Type} {x : Res α} {g : α → β} :
    (∃ b, (x >>= fun a => (.ok (g a) : Res β)) = .ok b) ↔ ∃ a, x = .ok a := by
  cases x with
  | ok a => exact ⟨fun _ => ⟨a, rfl⟩, fun _ => ⟨g a, rfl⟩⟩
  | error _ => exact ⟨fun ⟨_, h⟩ => (by cases h), fun ⟨_, h⟩ => (by cases h)⟩

theorem marshal_holds : marshalBytes (addMessage 0 0)
    (marshalSized (putMessage 0xa (marshalSized fun s => .ok s))) = .ok [0xa, 0] := by
  have hout : encodeField 0xa [] = [0xa, 0] := by simp [encodeField, Varint.encode_small]
  have hsize : addMessage 0 0 = (encodeField 0xa []).length := by
    rw [hout]
    decide
  rw [hsize, marshalBytes_ok (writes_putMessage writes_none 0xa (by decide)), hout]

/-- **The messages that hold the parameters.**  The genesis state and the answer to a query accept the
same byte strings: fields with valid numbers, those numbered 1 length-delimited and holding, one level
down, fields with valid numbers again.  Behind any of them the encoding of the message is accepted too. -/
theorem unmarshal_genesis_iff (g : GenesisState) (q : QueryParamsResponse) (dAtA : List UInt8)
    (hfit : dAtA.length + 2 < 2 ^ 63) :
    (g.unmarshal dAtA = .ok g ↔ HoldsPlain dAtA) ∧ (q.unmarshal dAtA = .ok q ↔ HoldsPlain dAtA) ∧
    (HoldsPlain dAtA → (g.marshal >>= fun bs => g.unmarshal (dAtA ++ bs)) = .ok g ∧
      (q.marshal >>= fun bs => q.unmarshal (dAtA ++ bs)) = .ok q) := by
  have hparams (p : Params) {s : List UInt8} (hs : s.length < 2 ^ 63) :
      (∃ p', p.unmarshal s = .ok p') ↔ Plain s := unmarshal_plain_iff rfl p hs
  have hg {bs : List UInt8} (hbs : bs.length < 2 ^ 63) :
      (∃ g', GenesisState.schema.unmarshal g bs = .ok g') ↔ HoldsPlain bs :=
    unmarshal_holds_iff rfl (fun m s hs => bind_isOk_iff.trans (hparams m.params hs)) g hbs
  have hq {bs : List UInt8} (hbs : bs.length < 2 ^ 63) :
      (∃ q', QueryParamsResponse.schema.unmarshal q bs = .ok q') ↔ HoldsPlain bs :=
    unmarshal_holds_iff rfl (fun m s hs => bind_isOk_iff.trans (hparams m.params hs)) q hbs
  -- each type has one value, so the message that is decoded is the one that was there
  have hg' {bs : List UInt8} (hbs : bs.length < 2 ^ 63) : g.unmarshal bs = .ok g ↔ HoldsPlain bs := by
    rw [← hg hbs]
    exact ⟨fun h => ⟨g, h⟩, fun ⟨⟨⟨⟩⟩, h⟩ => h⟩
  have hq' {bs : List UInt8} (hbs : bs.length < 2 ^ 63) : q.unmarshal bs = .ok q ↔ HoldsPlain bs := by
    rw [← hq hbs]
    exact ⟨fun h => ⟨q, h⟩, fun ⟨⟨⟨⟩⟩, h⟩ => h⟩
  have hlen := length_split dAtA [0xa, 0]
  have htwo : (dAtA ++ [0xa, 0]).length < 2 ^ 63 := by
    simp only [List.length_cons, List.length_nil] at hlen
    omega
  refine ⟨hg' (by omega), hq' (by omega), fun h => ?_⟩
  have hboth : HoldsPlain (dAtA ++ [0xa, 0]) := h.append holdsPlain_encoding
  have hgm : g.marshal = .ok [0xa, 0] := marshal_holds
  have hqm : q.marshal = .ok [0xa, 0] := marshal_holds
  rw [hgm, hqm]
  exact ⟨(hg' htwo).mpr hboth, (hq' htwo).mpr hboth⟩

theorem unmarshal_genesis_twice :
    (⟨⟨⟩⟩ : GenesisState).unmarshal [0x0a, 0x00, 0x0a, 0x00] = .ok ⟨⟨⟩⟩ ∧
    (⟨⟨⟩⟩ : QueryParamsResponse).unmarshal [0x0a, 0x00, 0x0a, 0x00] = .ok ⟨⟨⟩⟩ ∧
    ((⟨⟨⟩⟩ : GenesisState).marshal >>= fun bs =>
      (⟨⟨⟩⟩ : GenesisState).unmarshal ([0x0a, 0x00, 0x0a, 0x00] ++ bs)) = .ok ⟨⟨⟩⟩ := by
  have htwice : HoldsPlain [0x0a, 0x00, 0x0a, 0x00] := holdsPlain_encoding.append holdsPlain_encoding
  obtain ⟨hg, hq, hboth⟩ := unmarshal_genesis_iff ⟨⟨⟩⟩ ⟨⟨⟩⟩ [0x0a, 0x00, 0x0a, 0x00] (by decide)
  exact ⟨hg.mpr htwice, hq.mpr htwice, (hboth htwice).1⟩

end MeChain.CheckIn
