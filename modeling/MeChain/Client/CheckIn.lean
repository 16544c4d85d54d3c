import MeChain.Client.Codec
import MeChain.CheckIn.Server

/-!
# The check-in messages of the client

The client has its own codec of the check-in messages, generated from the same description as the
chain's.  The two meet on the wire.

* `encodes_as_chain`   the client and the chain encode a check-in in the same bytes;
* `decodes_as_chain`   they read the same check-in from whatever bytes an encoder may write, later
                       fields included;
* `check_in_call`      a call of the client's `CheckIn`, from the properties that were given to the event
                       and back.
-/

namespace MeChain.Client
open Cursor Varint Wire Fallible

/-! ## the messages -/

structure MsgCheckIn where
  checkInAddress : String
  checkInMessage : String
  checkInTimezone : String
deriving DecidableEq, Repr

structure MsgCheckInResponse where
deriving DecidableEq, Repr

namespace MsgCheckIn

def address : Member MsgCheckIn String where
  get := checkInAddress
  set m s := { m with checkInAddress := s }

def message : Member MsgCheckIn String where
  get := checkInMessage
  set m s := { m with checkInMessage := s }

def timezone : Member MsgCheckIn String where
  get := checkInTimezone
  set m s := { m with checkInTimezone := s }

def codec (pb : ProtobufJs) : Codec pb MsgCheckIn where
  createBase := ⟨"", "", ""⟩
  fields := [
    stringField pb 1 10 address,
    stringField pb 2 18 message,
    stringField pb 3 26 timezone]
  distinct := by
    show [1, 2, 3].Nodup
    decide

/-- `DeepPartial<MsgCheckIn>`: properties that may be missing, undefined or null -/
structure DeepPartial where
  checkInAddress : Option String
  checkInMessage : Option String
  checkInTimezone : Option String

def fromPartial (object : DeepPartial) : MsgCheckIn where
  checkInAddress := object.checkInAddress.getD ""
  checkInMessage := object.checkInMessage.getD ""
  checkInTimezone := object.checkInTimezone.getD ""

/-- the check-in on the chain, whose strings are bytes -/
def onChain (m : MsgCheckIn) : CheckIn.MsgCheckIn :=
  ⟨utf8 m.checkInAddress, utf8 m.checkInMessage, utf8 m.checkInTimezone⟩

/-- the strings are short enough to be written -/
def Writable (m : MsgCheckIn) : Prop :=
  Short m.checkInAddress ∧ Short m.checkInMessage ∧ Short m.checkInTimezone

instance (m : MsgCheckIn) : Decidable m.Writable := inferInstanceAs (Decidable (_ ∧ _ ∧ _))

end MsgCheckIn

def MsgCheckInResponse.codec (pb : ProtobufJs) : Codec pb MsgCheckInResponse :=
  ⟨⟨⟩, [], .nil⟩

/-! ## encoding -/

section
variable {pb : ProtobufJs} {frames : pb.Writer → List (List UInt8)} (hpb : Documented pb frames)
include hpb

omit hpb in
theorem stringBytes_eq {tag : ℕ} (htag : tag < 128) (s : String) :
    stringBytes tag s = Proto.encodeString (UInt8.ofNat tag) (utf8 s) := by
  unfold stringBytes fieldBytes Proto.encodeString Proto.encodeField
  by_cases hs : s = ""
  · rw [if_pos hs, if_pos (utf8_eq_nil.mpr hs)]
  · rw [if_neg hs, if_neg (fun h => hs (utf8_eq_nil.mp h)), encode_small htag]
    rfl

theorem MsgCheckIn.writes {m : MsgCheckIn} (hm : m.Writable) :
    Appends pb frames ((MsgCheckIn.codec pb).encode m) m.onChain.encode := by
  have h : Appends pb frames ((MsgCheckIn.codec pb).encode m) (stringBytes 10 m.checkInAddress ++
      (stringBytes 18 m.checkInMessage ++ stringBytes 26 m.checkInTimezone)) :=
    (string_writes hpb (by decide) hm.1).comp
      ((string_writes hpb (by decide) hm.2.1).comp (string_writes hpb (by decide) hm.2.2))
  rw [stringBytes_eq (by decide), stringBytes_eq (by decide), stringBytes_eq (by decide)] at h
  exact h

theorem MsgCheckIn.encodeBytes_eq {m : MsgCheckIn} (hm : m.Writable) :
    (MsgCheckIn.codec pb).encodeBytes m = m.onChain.encode := by
  exact encodeBytes_writes hpb (MsgCheckIn.writes hpb hm)

end

/-- **One encoding.**  The bytes the client sends for a check-in are the bytes the chain's `Marshal`
returns for the same strings. -/
theorem encodes_as_chain {pb : ProtobufJs} {frames : pb.Writer → List (List UInt8)}
    (hpb : Documented pb frames) (m : MsgCheckIn) (hm : m.Writable)
    (hfit : m.onChain.encode.length < 2 ^ 63) :
    m.onChain.marshal = .ok ((MsgCheckIn.codec pb).encodeBytes m) := by
  rw [CheckIn.MsgCheckIn.marshal_eq hfit, MsgCheckIn.encodeBytes_eq hpb hm]

theorem encodes_as_chain_timezone :
    (MsgCheckIn.mk "" "" "1").onChain.marshal =
      .ok ((MsgCheckIn.codec listJs).encodeBytes ⟨"", "", "1"⟩) := by
  refine encodes_as_chain listJs_documented ⟨"", "", "1"⟩ (by decide) ?_
  have hbytes : (MsgCheckIn.mk "" "" "1").onChain = ⟨[], [], [0x31]⟩ := by decide
  rw [hbytes]
  simp [CheckIn.MsgCheckIn.encode, Proto.encodeString, Proto.encodeField, encode_small]

/-! ## decoding -/

/-- a field as an encoder may write it: one of the three strings, or one the message does not know -/
inductive Piece where
  | text (num : ℕ) (s : String)
  | unknown (ks : List UInt8) (tag : ℕ) (payload : List UInt8)

namespace Piece

def Conforming : Piece → Prop
  | text num s => (1 ≤ num ∧ num ≤ 3) ∧ Short s
  | unknown ks tag payload => 3 < tag / 8 ∧ Uint32 ks tag ∧ Skippable (tag % 8) payload

def bytes : Piece → List UInt8
  | text num s => encode (8 * num + 2) ++ delimited (utf8 s)
  | unknown ks _ payload => ks ++ payload

/-- what the field leaves in the message -/
def put (m : MsgCheckIn) : Piece → MsgCheckIn
  | text 1 s => { m with checkInAddress := s }
  | text 2 s => { m with checkInMessage := s }
  | text 3 s => { m with checkInTimezone := s }
  | text _ _ => m
  | unknown _ _ _ => m

theorem bytes_ne_nil {p : Piece} (hp : p.Conforming) : p.bytes ≠ [] := by
  cases p with
  | text num s => simp [bytes, ne_nil_encode]
  | unknown ks tag payload => simp [bytes, hp.2.1.1.ne_nil]

theorem reads {pb : ProtobufJs} {frames : pb.Writer → List (List UInt8)} (hpb : Documented pb frames)
    {p : Piece} (hp : p.Conforming) (m : MsgCheckIn) :
    Reads ((MsgCheckIn.codec pb).decodeField m) p.bytes (.ok (p.put m)) := by
  cases p with
  | text num s =>
    obtain ⟨hnum, hs⟩ := hp
    have hread (i num tag : ℕ) (x : Member MsgCheckIn String) (htag : tag < 2 ^ 32 ∧ tag / 8 = num)
        (hx : (MsgCheckIn.codec pb).fields[i]? = some (stringField pb num tag x)) :
        Reads ((MsgCheckIn.codec pb).decodeField m) (encode tag ++ delimited (utf8 s))
          (.ok (x.set m s)) :=
      reads_known hpb hx htag ((hpb.readString s hs).map (x.set m))
    have hcases : num = 1 ∨ num = 2 ∨ num = 3 := by omega
    rcases hcases with rfl | rfl | rfl
    · exact hread 0 1 10 MsgCheckIn.address (by decide) rfl
    · exact hread 1 2 18 MsgCheckIn.message (by decide) rfl
    · exact hread 2 3 26 MsgCheckIn.timezone (by decide) rfl
  | unknown ks tag payload =>
    obtain ⟨hnum, htag, hskip⟩ := hp
    refine reads_unknown hpb htag (fun f hf => ?_) hskip m
    simp only [MsgCheckIn.codec, List.mem_cons, List.not_mem_nil, or_false] at hf
    rcases hf with rfl | rfl | rfl
    · show 1 ≠ _
      omega
    · show 2 ≠ _
      omega
    · show 3 ≠ _
      omega

theorem fieldNumber_of_small {tag : ℕ} (h : tag < 2 ^ 32) : Proto.Schema.fieldNumber tag = (tag / 8 : ℕ) := by
  unfold Proto.Schema.fieldNumber Proto.int32
  rw [Int.bmod_eq_of_le] <;> omega

theorem word_of_uint32 {ks : List UInt8} {tag : ℕ} (h : Uint32 ks tag) : Word ks tag :=
  ⟨tag, h.1, by have := h.2.2; omega, (Nat.mod_eq_of_lt (by have := h.2.1; omega)).symm⟩

/-- the grammar of the payload of a type: a scalar, or the fields of a group up to its end -/
def Payload (t : ℕ) (payload : List UInt8) : Prop :=
  (∃ content, Scalar t content payload) ∨
    t = 3 ∧ ∃ inner body cs close, payload = body ++ cs ∧ Message inner body ∧ Word cs close ∧
      wireType close = 4

theorem Payload.message {ks payload : List UInt8} {tag : ℕ} (hk : Word ks tag)
    (h : Payload (tag % 8) payload) : ∃ content, Message [⟨tag, content⟩] (ks ++ payload) := by
  rcases h with ⟨content, hs⟩ | ⟨ht, inner, body, cs, close, rfl, hin, hc, hclose⟩
  · exact ⟨content, .of_scalar hk hs⟩
  · rw [← List.append_assoc]
    exact ⟨body, .of_group hk ht hin hc hclose⟩

theorem payload_of_skippable {t : ℕ} {payload : List UInt8} (h : Skippable t payload) :
    Payload t payload := by
  induction h with
  | @varint bs v hv hlen => exact .inl ⟨_, .varint ⟨v, hv, hlen, rfl⟩⟩
  | fixed64 hb => exact .inl ⟨_, .fixed64 hb⟩
  | bytes hl =>
    have hlen := hl.2.1
    exact .inl ⟨_, .bytes (word_of_uint32 hl) (by omega) rfl⟩
  | @endGroup ks tag hk htag =>
    exact .inr ⟨rfl, [], [], ks, tag, rfl, .nil, word_of_uint32 hk, htag⟩
  | @inGroup ks payload rest tag hk _ _ ihp ihr =>
    obtain ⟨content, hfield⟩ := ihp.message (word_of_uint32 hk)
    rcases ihr with ⟨content', hs⟩ | ⟨_, inner, body, cs, close, rfl, hin, hc, hclose⟩
    · cases hs
    · refine .inr ⟨rfl, _, ks ++ payload ++ body, cs, close, ?_, hfield.append hin, hc, hclose⟩
      simp only [List.append_assoc]
  | fixed32 hb => exact .inl ⟨_, .fixed32 hb⟩

theorem unmarshal {p : Piece} (hp : p.Conforming) (hfit : p.bytes.length < 2 ^ 63) (m : MsgCheckIn) :
    m.onChain.unmarshal p.bytes = .ok (p.put m).onChain := by
  have hone {e : Entry} (he : Message [e] p.bytes) (hallow : CheckIn.MsgCheckIn.Allowed e)
      (hput : m.onChain.assign e = (p.put m).onChain) :
      m.onChain.unmarshal p.bytes = .ok (p.put m).onChain := by
    refine (Proto.Schema.unmarshal_message _ he hfit _).trans ?_
    refine CheckIn.MsgCheckIn.foldlM_take.mpr ⟨fun e' he' => ?_, ?_⟩
    · obtain rfl := List.mem_singleton.mp he'
      exact hallow
    · rw [List.foldl_cons, List.foldl_nil]
      exact hput.symm
  cases p with
  | text num s =>
    obtain ⟨hnum, hs⟩ := hp
    have hkey : Word (encode (8 * num + 2)) (8 * num + 2) := word_encode (by omega)
    have hlen : (utf8 s).length < 2 ^ 32 := hs
    have hscalar : Scalar (wireType (8 * num + 2)) (utf8 s) (delimited (utf8 s)) := by
      have ht : (8 * num + 2) % 8 = 2 := by omega
      rw [wireType, ht]
      exact .bytes (word_encode (by omega)) (by omega) rfl
    have hfield : Proto.Schema.fieldNumber (8 * num + 2) = num := by
      rw [fieldNumber_of_small (by omega)]
      omega
    refine hone (.of_scalar hkey hscalar) ?_ ?_
    · refine ⟨?_, fun _ => ?_⟩
      · simp only [hfield]
        omega
      · show (8 * num + 2) % 8 = 2
        omega
    · unfold CheckIn.MsgCheckIn.assign
      simp only [hfield]
      have hcases : num = 1 ∨ num = 2 ∨ num = 3 := by omega
      rcases hcases with rfl | rfl | rfl
      · rfl
      · rfl
      · rfl
  | unknown ks tag payload =>
    obtain ⟨hnum, htag, hskip⟩ := hp
    obtain ⟨content, hmessage⟩ := (payload_of_skippable hskip).message (word_of_uint32 htag)
    have hfield := fieldNumber_of_small htag.2.1
    refine hone hmessage ?_ ?_
    · refine ⟨?_, fun h => ?_⟩
      · simp only [hfield]
        omega
      · simp only [hfield] at h
        omega
    · unfold CheckIn.MsgCheckIn.assign
      simp only [hfield]
      rw [if_neg (by omega), if_neg (by omega), if_neg (by omega)]
      rfl

end Piece

theorem chain_pieces {pb : ProtobufJs} {frames : pb.Writer → List (List UInt8)}
    (hpb : Documented pb frames) {ps : List Piece} (hps : ∀ p ∈ ps, p.Conforming) (m : MsgCheckIn) :
    Chain (MsgCheckIn.codec pb).decodeField m (ps.flatMap Piece.bytes)
      (.ok (ps.foldl (fun m p => p.put m) m)) := by
  induction ps generalizing m with
  | nil => exact .nil
  | cons p ps ih =>
    rw [List.forall_mem_cons] at hps
    rw [List.flatMap_cons, List.foldl_cons]
    exact .again (Piece.bytes_ne_nil hps.1) (Piece.reads hpb hps.1 m) (ih hps.2 (p.put m))

theorem unmarshal_pieces {ps : List Piece} (hps : ∀ p ∈ ps, p.Conforming)
    (hfit : (ps.flatMap Piece.bytes).length < 2 ^ 63) (m : MsgCheckIn) :
    m.onChain.unmarshal (ps.flatMap Piece.bytes) = .ok (ps.foldl (fun m p => p.put m) m).onChain := by
  induction ps generalizing m with
  | nil =>
    have hempty : CheckIn.MsgCheckIn.empty.encode.length < 2 ^ 63 := by decide
    exact CheckIn.MsgCheckIn.unmarshal_encode m.onChain hempty
  | cons p ps ih =>
    rw [List.forall_mem_cons] at hps
    rw [List.flatMap_cons] at hfit ⊢
    have hlen := Proto.length_split p.bytes (ps.flatMap Piece.bytes)
    refine (Proto.Schema.unmarshal_append _ hfit (Piece.unmarshal hps.1 (by omega) m)).mpr ?_
    exact ih hps.2 (by omega) (p.put m)

/-- **One meaning.**  Whatever an encoder of a check-in may write, the fields in any order, some more
than once, and others that the message does not know, groups among them, the client and the chain read
the same strings: of each the last one. -/
theorem decodes_as_chain {pb : ProtobufJs} {frames : pb.Writer → List (List UInt8)}
    (hpb : Documented pb frames) (ps : List Piece) (hps : ∀ p ∈ ps, p.Conforming)
    (hfit : (ps.flatMap Piece.bytes).length < 2 ^ 63) :
    ∃ m : MsgCheckIn, (MsgCheckIn.codec pb).decodeBytes (ps.flatMap Piece.bytes) = .ok m ∧
      CheckIn.MsgCheckIn.empty.unmarshal (ps.flatMap Piece.bytes) = .ok m.onChain ∧
      m = ps.foldl (fun m p => p.put m) ⟨"", "", ""⟩ :=
  ⟨_, decodeBytes_chain (chain_pieces hpb hps ⟨"", "", ""⟩),
    unmarshal_pieces hps hfit ⟨"", "", ""⟩, rfl⟩

/-- the text, a group with the number 5 in two bytes inside, the text again, and an unknown number -/
def spelledPieces : List Piece :=
  [.text 2 "a", .unknown [0x23] 35 [0x08, 0x85, 0x00, 0x24], .text 2 "b", .unknown [0xa0, 0x00] 32 [0x05]]

theorem spelledPieces_conforming : ∀ p ∈ spelledPieces, p.Conforming := by
  have hfive : Spells [0x85, 0x00] 5 := .more (b := 0x85) (by decide) (.last (by decide))
  have hlong : Spells [0xa0, 0x00] 32 := .more (b := 0xa0) (by decide) (.last (by decide))
  have hclose : Uint32 [0x24] 36 := ⟨.last (by decide), by decide, by decide⟩
  have hkey : Uint32 [0x08] 8 := ⟨.last (by decide), by decide, by decide⟩
  have hgroup : Skippable 3 [0x08, 0x85, 0x00, 0x24] :=
    .inGroup hkey (.varint hfive (by decide)) (.endGroup hclose (by decide))
  intro p hp
  simp only [spelledPieces, List.mem_cons, List.not_mem_nil, or_false] at hp
  rcases hp with rfl | rfl | rfl | rfl
  · exact ⟨by decide, by decide⟩
  · exact ⟨by decide, ⟨.last (by decide), by decide, by decide⟩, hgroup⟩
  · exact ⟨by decide, by decide⟩
  · exact ⟨by decide, ⟨hlong, by decide, by decide⟩, .varint (.last (by decide)) (by decide)⟩

theorem decodes_as_chain_last : ∃ m : MsgCheckIn,
    (MsgCheckIn.codec listJs).decodeBytes (spelledPieces.flatMap Piece.bytes) = .ok m ∧
    CheckIn.MsgCheckIn.empty.unmarshal (spelledPieces.flatMap Piece.bytes) = .ok m.onChain ∧
    m = ⟨"", "b", ""⟩ := by
  refine decodes_as_chain listJs_documented _ spelledPieces_conforming ?_
  have ha : (utf8 "a").length = 1 := by decide
  have hb : (utf8 "b").length = 1 := by decide
  simp [spelledPieces, Piece.bytes, delimited, encode_small, ha, hb]

/-! ## a call -/

/-- `Rpc`: the answer to a request, and the state of the other side after it -/
abbrev Rpc (S : Type) := String → String → List UInt8 → S → Js (List UInt8) × S

/-- `MsgClientImpl.CheckIn` -/
def checkIn {S : Type} (pb : ProtobufJs) (rpc : Rpc S) (request : MsgCheckIn) (s : S) :
    Js MsgCheckInResponse × S :=
  let (answer, s) := rpc "mechain.checkin.Msg" "CheckIn" ((MsgCheckIn.codec pb).encodeBytes request) s
  (answer >>= (MsgCheckInResponse.codec pb).decodeBytes, s)

/-- What the transport is relied on to do, on an other side whose events are `events s`: a request for
the method reaches its handler, and the handler's answer comes back with the events it emitted; an error
comes back as its text, and its request has emitted nothing. -/
structure Routes {S Addr : Type} (rpc : Rpc S) (bech32 : CheckIn.Bech32 Addr)
    (events : S → List CheckIn.Event) : Prop where
  answered : ∀ data s response log, CheckIn.request bech32 data (events s) = .ok (response, log) →
    ∃ out s', response.marshal = .ok out ∧
      rpc "mechain.checkin.Msg" "CheckIn" data s = (.ok out, s') ∧ events s' = log
  refused : ∀ data s err, CheckIn.request bech32 data (events s) = .error (.error err) →
    ∃ s', rpc "mechain.checkin.Msg" "CheckIn" data s = (.error err.msg, s') ∧ events s' = events s

theorem marshal_response : (⟨⟩ : CheckIn.MsgCheckInResponse).marshal = .ok [] :=
  Proto.marshalBytes_ok Proto.writes_none

section
variable {S Addr : Type} {rpc : Rpc S} {bech32 : CheckIn.Bech32 Addr}
  {events : S → List CheckIn.Event} {pb : ProtobufJs} {frames : pb.Writer → List (List UInt8)}

/-- the check-in that the client was given is one the chain accepts -/
def Acceptable (bech32 : CheckIn.Bech32 Addr) (object : MsgCheckIn.DeepPartial) : Prop :=
  object.checkInMessage = some "ME, My Way!" ∧
    ∃ addr, bech32.accAddressFromBech32 (utf8 (object.checkInAddress.getD "")) = .ok addr

theorem acceptable_iff {object : MsgCheckIn.DeepPartial} : Acceptable bech32 object ↔
    (MsgCheckIn.fromPartial object).onChain.validateBasic bech32 = .ok () := by
  have htext : (MsgCheckIn.fromPartial object).onChain.checkInMessage = utf8 "ME, My Way!" ↔
      object.checkInMessage = some "ME, My Way!" := by
    show utf8 (object.checkInMessage.getD "") = utf8 "ME, My Way!" ↔ _
    rw [utf8_inj]
    cases object.checkInMessage with
    | none => exact ⟨fun h => absurd h (by decide), fun h => by cases h⟩
    | some text => simp
  rw [CheckIn.validateBasic_ok, htext]
  exact and_comm

/-- **From the client to the event and back.**  With the text and an address that parses, a call of the
client's `CheckIn` returns the empty response and the chain has one event more, with the strings the
client was given; otherwise the call fails with the error of `ValidateBasic` and the chain has none. -/
theorem check_in_call (hpb : Documented pb frames) (hrpc : Routes rpc bech32 events)
    (object : MsgCheckIn.DeepPartial) (s : S) (hm : (MsgCheckIn.fromPartial object).Writable)
    (hfit : (MsgCheckIn.fromPartial object).onChain.encode.length < 2 ^ 63) :
    (Acceptable bech32 object → ∃ s', checkIn pb rpc (MsgCheckIn.fromPartial object) s = (.ok ⟨⟩, s') ∧
      events s' = events s ++ [⟨"check_in", [("check_in_message", utf8 "ME, My Way!"),
        ("check_in_timezone", utf8 (object.checkInTimezone.getD "")),
        ("check_in_address", utf8 (object.checkInAddress.getD ""))]⟩]) ∧
    (¬ Acceptable bech32 object → ∃ err s',
      (MsgCheckIn.fromPartial object).onChain.validateBasic bech32 = .error (.error err) ∧
      checkIn pb rpc (MsgCheckIn.fromPartial object) s = (.error err.msg, s') ∧
      events s' = events s) := by
  have hrequest := CheckIn.request_marshal bech32 hfit (events s)
  rw [CheckIn.MsgCheckIn.marshal_eq hfit, ok_bind, ← MsgCheckIn.encodeBytes_eq hpb hm] at hrequest
  constructor
  · intro h
    rw [acceptable_iff.mp h] at hrequest
    obtain ⟨out, s', hout, hs', hlog⟩ := hrpc.answered _ _ _ _ hrequest
    rw [marshal_response] at hout
    cases hout
    have hresponse : (MsgCheckInResponse.codec pb).decodeBytes [] = .ok ⟨⟩ := decodeBytes_chain .nil
    have hmessage : (MsgCheckIn.fromPartial object).onChain.checkInMessage = utf8 "ME, My Way!" :=
      ((CheckIn.validateBasic_ok bech32).mp (acceptable_iff.mp h)).2
    refine ⟨s', ?_, ?_⟩
    · rw [checkIn, hs']
      exact congrArg (·, s') hresponse
    · rw [hlog, CheckIn.MsgCheckIn.event, hmessage]
      rfl
  · intro h
    rw [acceptable_iff] at h
    cases hvalid : (MsgCheckIn.fromPartial object).onChain.validateBasic bech32 with
    | ok _ => exact absurd hvalid h
    | error a =>
      cases a with
      | panic _ =>
        have hno := CheckIn.validateBasic_returns bech32 (MsgCheckIn.fromPartial object).onChain
        rw [hvalid] at hno
        cases hno
      | error err =>
        rw [hvalid] at hrequest
        obtain ⟨s', hs', hlog⟩ := hrpc.refused _ _ _ hrequest
        refine ⟨err, s', rfl, ?_, hlog⟩
        rw [checkIn, hs']
        rfl

end

/-- a transport that hands every request for the method to its handler, and keeps the events -/
def direct {Addr : Type} (bech32 : CheckIn.Bech32 Addr) : Rpc (List CheckIn.Event) :=
  fun service method data events =>
    if service = "mechain.checkin.Msg" ∧ method = "CheckIn" then
      match CheckIn.request bech32 data events with
      | .ok (_, log) => (.ok [], log)
      | .error (.error err) => (.error err.msg, events)
      | .error (.panic msg) => (.error msg, events)
    else (.error "unknown service or method", events)

theorem direct_routes {Addr : Type} (bech32 : CheckIn.Bech32 Addr) :
    Routes (direct bech32) bech32 (fun events => events) where
  answered data events response log h := by
    refine ⟨[], log, marshal_response, ?_, rfl⟩
    rw [direct, if_pos ⟨rfl, rfl⟩, h]
  refused data events err h := by
    refine ⟨events, ?_, rfl⟩
    rw [direct, if_pos ⟨rfl, rfl⟩, h]

/-- a call with the text and one without it -/
theorem check_in_call_twice :
    checkIn listJs (direct CheckIn.spelled)
      (MsgCheckIn.fromPartial ⟨some "me1", some "ME, My Way!", some "UTC"⟩) [] =
      (.ok ⟨⟩, [⟨"check_in", [("check_in_message", utf8 "ME, My Way!"),
        ("check_in_timezone", utf8 "UTC"), ("check_in_address", utf8 "me1")]⟩]) ∧
    ∃ err, checkIn listJs (direct CheckIn.spelled)
      (MsgCheckIn.fromPartial ⟨some "me1", some "hi", none⟩) [] = (.error err, []) := by
  have hme : utf8 "me1" = [0x6d, 0x65, 0x31] := by decide
  have htext : utf8 "ME, My Way!" =
      [0x4d, 0x45, 0x2c, 0x20, 0x4d, 0x79, 0x20, 0x57, 0x61, 0x79, 0x21] := by decide
  have hzone : utf8 "UTC" = [0x55, 0x54, 0x43] := by decide
  have hhi : utf8 "hi" = [0x68, 0x69] := by decide
  have hnone : utf8 "" = [] := by decide
  constructor
  · obtain ⟨s', hs', hlog⟩ := (check_in_call listJs_documented (direct_routes CheckIn.spelled)
      ⟨some "me1", some "ME, My Way!", some "UTC"⟩ [] (by decide) (by
        simp [MsgCheckIn.fromPartial, MsgCheckIn.onChain, CheckIn.MsgCheckIn.encode,
          Proto.encodeString, Proto.encodeField, encode_small, hme, htext, hzone])).1
      ⟨rfl, ⟨utf8 "me1", by decide⟩, by decide⟩
    rw [hs', hlog]
    rfl
  · obtain ⟨err, s', _, hs', hlog⟩ := (check_in_call listJs_documented (direct_routes CheckIn.spelled)
      ⟨some "me1", some "hi", none⟩ [] (by decide) (by
        simp [MsgCheckIn.fromPartial, MsgCheckIn.onChain, CheckIn.MsgCheckIn.encode,
          Proto.encodeString, Proto.encodeField, encode_small, hme, hhi, hnone])).2
      (fun h => by simpa using h.1)
    exact ⟨err.msg, by rw [hs', hlog]⟩

end MeChain.Client
