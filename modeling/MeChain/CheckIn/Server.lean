import Mathlib.Data.List.ReduceOption
import MeChain.CheckIn.Messages

/-!
# The check-in service

A check-in is built by the command line, travels as bytes, and is handled by the message server of the
module, whose only effect is an event.

* `validateBasic`, `getSigners`   the checks of a check-in, and who has to sign it;
* `msgCheckInHandler`   the generated handler: decoding, the interceptor, the server;
* `request`             the handler behind the interceptor that validates, the way the router calls it;
* `request_cases`       a request is accepted, or it is refused with an error and leaves no event;
* `requests_log`        what any sequence of requests adds to the events;
* `check_in_command`    what is typed on the command line is what the event says.

Strings are their bytes: those of a message that was decoded need not be UTF-8.
-/

namespace MeChain.CheckIn
open Proto Wire Fallible

/-- `sdk.AccAddressFromBech32` and `AccAddress.String`, on the bytes of a string -/
structure Bech32 (Addr : Type) where
  accAddressFromBech32 : List UInt8 → Except Error Addr
  str : Addr → List UInt8
  fromBech32_str : ∀ a, accAddressFromBech32 (str a) = .ok a

/-! ## the checks -/

section
variable {Addr : Type} (bech32 : Bech32 Addr)

/-- `ErrCheckInMessage` -/
def errCheckInMessage : Error := ⟨.other, "invalid check in message, please input 'ME, My Way!'"⟩

/-- `sdkerrors.ErrInvalidAddress` -/
def errInvalidAddress : Error := ⟨.invalidAddress, "invalid address"⟩

namespace MsgCheckIn

def getSigners (msg : MsgCheckIn) : Res (List Addr) :=
  match bech32.accAddressFromBech32 msg.checkInAddress with
  | .error err => goPanic err.msg
  | .ok creator => .ok [creator]

/-- The second description formats the `err` of the address, which is nil there. -/
def validateBasic (msg : MsgCheckIn) : Res Unit :=
  match bech32.accAddressFromBech32 msg.checkInAddress with
  | .error err => wrap ("invalid check in address (" ++ err.msg ++ ")") (.error (.error errInvalidAddress))
  | .ok _ =>
    if msg.checkInMessage ≠ utf8 "ME, My Way!" then
      wrap "invalid check in message (%!s(<nil>))" (.error (.error errCheckInMessage))
    else .ok ()

end MsgCheckIn

/-! ## the server -/

structure Event where
  type : String
  attributes : List (String × List UInt8)
deriving DecidableEq, Repr

/-- the event of a check-in -/
def MsgCheckIn.event (msg : MsgCheckIn) : Event :=
  ⟨"check_in", [("check_in_message", msg.checkInMessage), ("check_in_timezone", msg.checkInTimezone),
    ("check_in_address", msg.checkInAddress)]⟩

/-- a method of the server, on the events emitted so far -/
abbrev Method := MsgCheckIn → List Event → Res (MsgCheckInResponse × List Event)

/-- `msgServer.CheckIn` -/
def checkIn : Method := fun msg events => .ok (⟨⟩, events ++ [msg.event])

/-- `_Msg_CheckIn_Handler` -/
def msgCheckInHandler (srv : Method) (dec : MsgCheckIn → Res MsgCheckIn)
    (interceptor : Option (String → Method → Method)) (events : List Event) :
    Res (MsgCheckInResponse × List Event) := do
  let msg ← dec MsgCheckIn.empty
  match interceptor with
  | none => srv msg events
  | some interceptor => interceptor "/mechain.checkin.Msg/CheckIn" srv msg events

/-- the interceptor of the message router: `ValidateBasic` before the handler -/
def validating (_fullMethod : String) (handler : Method) : Method := fun msg events => do
  msg.validateBasic bech32
  handler msg events

/-- one request, given as the bytes of its message -/
def request (dAtA : List UInt8) (events : List Event) : Res (MsgCheckInResponse × List Event) :=
  msgCheckInHandler checkIn (fun msg => msg.unmarshal dAtA) (some (validating bech32)) events

/-- one request after another; one that fails leaves the events as they were -/
def requests (events : List Event) (reqs : List (List UInt8)) : List Event :=
  reqs.foldl (fun events dAtA =>
    match request bech32 dAtA events with
    | .ok r => r.2
    | .error _ => events) events

/-- `CmdCheckIn`: the message that is handed to the transaction, for `--from` and the two arguments -/
def cmdCheckIn (fromAddress : Addr) (argCheckInMessage argCheckInTimezone : List UInt8) :
    Res MsgCheckIn := do
  let msg : MsgCheckIn := ⟨bech32.str fromAddress, argCheckInMessage, argCheckInTimezone⟩
  msg.validateBasic bech32
  .ok msg

/-! ## one request -/

theorem validateBasic_ok {msg : MsgCheckIn} : msg.validateBasic bech32 = .ok () ↔
    (∃ addr, bech32.accAddressFromBech32 msg.checkInAddress = .ok addr) ∧
      msg.checkInMessage = utf8 "ME, My Way!" := by
  unfold MsgCheckIn.validateBasic
  cases hacc : bech32.accAddressFromBech32 msg.checkInAddress with
  | error err =>
    constructor
    · intro h
      cases wrap_ok.mp h
    · rintro ⟨⟨_, h⟩, _⟩
      cases h
  | ok addr =>
    by_cases hmsg : msg.checkInMessage = utf8 "ME, My Way!"
    · simp [hmsg]
    · simp only [hmsg, ne_eq, not_false_eq_true, if_true, and_false, iff_false]
      intro h
      cases wrap_ok.mp h

theorem validateBasic_returns (msg : MsgCheckIn) : isPanic (msg.validateBasic bech32) = false := by
  unfold MsgCheckIn.validateBasic
  split
  · rfl
  · split
    · rfl
    · rfl

/-- the bytes of a check-in that the chain accepts: their fields are those of a check-in, the last field
2 holds the text, and the last field 1 an address -/
structure Accepted (dAtA : List UInt8) (msg : MsgCheckIn) : Prop where
  reads : MsgCheckIn.Reads MsgCheckIn.empty dAtA msg
  text : msg.checkInMessage = utf8 "ME, My Way!"
  address : ∃ addr, bech32.accAddressFromBech32 msg.checkInAddress = .ok addr

variable {bech32} {dAtA : List UInt8}

theorem Accepted.unique (hfit : dAtA.length < 2 ^ 63) {msg msg' : MsgCheckIn}
    (h : Accepted bech32 dAtA msg) (h' : Accepted bech32 dAtA msg') : msg = msg' := by
  have hm : MsgCheckIn.empty.unmarshal dAtA = .ok msg := (MsgCheckIn.unmarshal_reads hfit).mpr h.reads
  have hm' : MsgCheckIn.empty.unmarshal dAtA = .ok msg' := (MsgCheckIn.unmarshal_reads hfit).mpr h'.reads
  rw [hm] at hm'
  exact Except.ok.inj hm'

/-- A request is accepted and adds its event, or it is refused with an error, whatever the events are. -/
theorem request_cases (bech32 : Bech32 Addr) (hfit : dAtA.length < 2 ^ 63) :
    (∃ msg, Accepted bech32 dAtA msg ∧
      ∀ events, request bech32 dAtA events = .ok (⟨⟩, events ++ [msg.event])) ∨
    (∀ msg, ¬ Accepted bech32 dAtA msg) ∧
      ∃ err, ∀ events, request bech32 dAtA events = .error (.error err) := by
  have hrequest (events : List Event) : request bech32 dAtA events =
      (MsgCheckIn.empty.unmarshal dAtA >>= fun msg =>
        msg.validateBasic bech32 >>= fun _ => checkIn msg events) := rfl
  simp only [hrequest]
  cases hdec : MsgCheckIn.empty.unmarshal dAtA with
  | error a =>
    refine .inr ⟨fun msg h => ?_, ?_⟩
    · rw [(MsgCheckIn.unmarshal_reads hfit).mpr h.reads] at hdec
      cases hdec
    · cases a with
      | error err => exact ⟨err, fun _ => rfl⟩
      | panic _ =>
        have hno : isPanic (MsgCheckIn.empty.unmarshal dAtA) = false :=
          Schema.unmarshal_returns stores_check_in MsgCheckIn.empty hfit
        rw [hdec] at hno
        cases hno
  | ok msg =>
    have hreads := (MsgCheckIn.unmarshal_reads hfit).mp hdec
    simp only [ok_bind]
    cases hvalid : msg.validateBasic bech32 with
    | ok _ =>
      obtain ⟨haddr, htext⟩ := (validateBasic_ok bech32).mp hvalid
      exact .inl ⟨msg, ⟨hreads, htext, haddr⟩, fun _ => rfl⟩
    | error a =>
      refine .inr ⟨fun msg' h => ?_, ?_⟩
      · have hm' : MsgCheckIn.empty.unmarshal dAtA = .ok msg' :=
          (MsgCheckIn.unmarshal_reads hfit).mpr h.reads
        rw [hdec] at hm'
        obtain rfl := Except.ok.inj hm'
        rw [(validateBasic_ok bech32).mpr ⟨h.address, h.text⟩] at hvalid
        cases hvalid
      · cases a with
        | error err => exact ⟨err, fun _ => rfl⟩
        | panic _ =>
          have hno := validateBasic_returns bech32 msg
          rw [hvalid] at hno
          cases hno

theorem request_returns (hfit : dAtA.length < 2 ^ 63) (events : List Event) :
    isPanic (request bech32 dAtA events) = false := by
  rcases request_cases bech32 hfit with ⟨_, _, h⟩ | ⟨_, _, h⟩
  · rw [h]
    rfl
  · rw [h]
    rfl

/-! ## sequences of requests -/

/-- what each request of a sequence was: a check-in that was accepted, or nothing -/
def Outcomes (bech32 : Bech32 Addr) : List (List UInt8) → List (Option MsgCheckIn) → Prop :=
  List.Forall₂ fun dAtA outcome =>
    match outcome with
    | some msg => Accepted bech32 dAtA msg
    | none => ∀ msg, ¬ Accepted bech32 dAtA msg

theorem requests_cons (events : List Event) (dAtA : List UInt8) (reqs : List (List UInt8)) :
    requests bech32 events (dAtA :: reqs) = requests bech32
      (match request bech32 dAtA events with
        | .ok r => r.2
        | .error _ => events) reqs := rfl

theorem requests_log (bech32 : Bech32 Addr) {reqs : List (List UInt8)}
    (hfit : ∀ dAtA ∈ reqs, dAtA.length < 2 ^ 63) :
    ∃ outcomes, Outcomes bech32 reqs outcomes ∧
      ∀ events, requests bech32 events reqs = events ++ outcomes.reduceOption.map MsgCheckIn.event := by
  induction reqs with
  | nil => exact ⟨[], .nil, fun events => (List.append_nil events).symm⟩
  | cons dAtA reqs ih =>
    rw [List.forall_mem_cons] at hfit
    obtain ⟨outcomes, hout, hlog⟩ := ih hfit.2
    rcases request_cases bech32 hfit.1 with ⟨msg, hmsg, hok⟩ | ⟨hnone, err, herr⟩
    · refine ⟨some msg :: outcomes, .cons hmsg hout, fun events => ?_⟩
      rw [requests_cons, hok, hlog, List.reduceOption_cons_of_some, List.map_cons, List.append_assoc]
      rfl
    · refine ⟨none :: outcomes, .cons hnone hout, fun events => ?_⟩
      rw [requests_cons, herr, hlog, List.reduceOption_cons_of_none]

theorem Outcomes.accepted {reqs : List (List UInt8)} {outcomes : List (Option MsgCheckIn)}
    (h : Outcomes bech32 reqs outcomes) {msg : MsgCheckIn} (hmsg : msg ∈ outcomes.reduceOption) :
    ∃ dAtA ∈ reqs, Accepted bech32 dAtA msg := by
  induction h with
  | nil => cases hmsg
  | @cons dAtA outcome reqs outcomes hhead _ ih =>
    cases outcome with
    | none =>
      rw [List.reduceOption_cons_of_none] at hmsg
      obtain ⟨d, hd, hacc⟩ := ih hmsg
      exact ⟨d, List.mem_cons_of_mem _ hd, hacc⟩
    | some m =>
      rw [List.reduceOption_cons_of_some, List.mem_cons] at hmsg
      rcases hmsg with rfl | hmsg
      · exact ⟨dAtA, List.mem_cons_self, hhead⟩
      · obtain ⟨d, hd, hacc⟩ := ih hmsg
        exact ⟨d, List.mem_cons_of_mem _ hd, hacc⟩

theorem getSigners_ok {msg : MsgCheckIn} {addr : Addr}
    (h : bech32.accAddressFromBech32 msg.checkInAddress = .ok addr) :
    msg.getSigners bech32 = .ok [addr] := by
  rw [MsgCheckIn.getSigners, h]

/-- **What a sequence of requests leaves behind.**  Whatever the bytes are, each request returns; the
events grow by those of the accepted check-ins, in the order of the requests, and by nothing else.  What
a request adds depends on its own bytes only, and every check-in in the events has the text and the
signature of its address. -/
theorem check_in_requests (bech32 : Bech32 Addr) (reqs : List (List UInt8))
    (hfit : ∀ dAtA ∈ reqs, dAtA.length < 2 ^ 63) :
    (∀ dAtA ∈ reqs, ∀ events, isPanic (request bech32 dAtA events) = false) ∧
    ∃ outcomes, Outcomes bech32 reqs outcomes ∧
      (∀ events, requests bech32 events reqs =
        events ++ outcomes.reduceOption.map MsgCheckIn.event) ∧
      ∀ msg ∈ outcomes.reduceOption, msg.checkInMessage = utf8 "ME, My Way!" ∧
        ∃ addr, msg.getSigners bech32 = .ok [addr] := by
  refine ⟨fun dAtA hd events => request_returns (hfit dAtA hd) events, ?_⟩
  obtain ⟨outcomes, hout, hlog⟩ := requests_log bech32 hfit
  refine ⟨outcomes, hout, hlog, fun msg hmsg => ?_⟩
  obtain ⟨dAtA, _, hacc⟩ := hout.accepted hmsg
  obtain ⟨addr, haddr⟩ := hacc.address
  exact ⟨hacc.text, addr, getSigners_ok haddr⟩

/-! ## the command -/

/-- the bytes of a check-in are handled the way the check-in itself is -/
theorem request_marshal (bech32 : Bech32 Addr) {msg : MsgCheckIn}
    (hfit : msg.encode.length < 2 ^ 63) (events : List Event) :
    (msg.marshal >>= fun dAtA => request bech32 dAtA events) =
      msg.validateBasic bech32 >>= fun _ => checkIn msg events := by
  have hread : MsgCheckIn.empty.unmarshal msg.encode = .ok msg :=
    (MsgCheckIn.unmarshal_encode MsgCheckIn.empty hfit).trans
      (congrArg Except.ok (MsgCheckIn.merge_empty msg))
  rw [MsgCheckIn.marshal_eq hfit, ok_bind]
  show (MsgCheckIn.empty.unmarshal msg.encode >>= fun msg =>
    msg.validateBasic bech32 >>= fun _ => checkIn msg events) = _
  rw [hread, ok_bind]

/-- **From the command line to the event.**  The command and the chain agree on every check-in, their
errors included: with the text the event carries the sender and both arguments and the sender has to
sign; with any other text both refuse. -/
theorem check_in_command (bech32 : Bech32 Addr) (fromAddress : Addr) (text timezone : List UInt8)
    (events : List Event)
    (hfit : (MsgCheckIn.mk (bech32.str fromAddress) text timezone).encode.length < 2 ^ 63) :
    ((MsgCheckIn.mk (bech32.str fromAddress) text timezone).marshal >>= fun dAtA =>
        request bech32 dAtA events) =
      (cmdCheckIn bech32 fromAddress text timezone >>= fun msg => checkIn msg events) ∧
    (text = utf8 "ME, My Way!" → ∃ msg, cmdCheckIn bech32 fromAddress text timezone = .ok msg ∧
      msg.getSigners bech32 = .ok [fromAddress] ∧
      checkIn msg events = .ok (⟨⟩, events ++ [⟨"check_in", [("check_in_message", text),
        ("check_in_timezone", timezone), ("check_in_address", bech32.str fromAddress)]⟩])) ∧
    (text ≠ utf8 "ME, My Way!" → cmdCheckIn bech32 fromAddress text timezone = goError .other
      ("invalid check in message (%!s(<nil>)): " ++
        "invalid check in message, please input 'ME, My Way!'")) := by
  have haddr : bech32.accAddressFromBech32 (bech32.str fromAddress) = .ok fromAddress :=
    bech32.fromBech32_str fromAddress
  refine ⟨?_, fun htext => ?_, fun htext => ?_⟩
  · rw [request_marshal bech32 hfit, cmdCheckIn, bind_assoc]
    rfl
  · have hvalid : (MsgCheckIn.mk (bech32.str fromAddress) text timezone).validateBasic bech32 = .ok () :=
      (validateBasic_ok bech32).mpr ⟨⟨fromAddress, haddr⟩, htext⟩
    refine ⟨⟨bech32.str fromAddress, text, timezone⟩, ?_, getSigners_ok haddr, rfl⟩
    rw [cmdCheckIn, hvalid, ok_bind]
  · rw [cmdCheckIn, MsgCheckIn.validateBasic, haddr]
    simp only [ne_eq, htext, not_false_eq_true, if_true]
    rfl

end

/-- addresses as their spelling, never empty -/
def spelled : Bech32 { s : List UInt8 // s ≠ [] } where
  accAddressFromBech32 s :=
    if h : s ≠ [] then .ok ⟨s, h⟩ else .error ⟨.other, "empty address string is not allowed"⟩
  str addr := addr.1
  fromBech32_str addr := dif_pos addr.2

/-- the bytes of a check-in that is accepted -/
def greeting : MsgCheckIn := ⟨[0x6d, 0x65, 0x31], utf8 "ME, My Way!", [0x55, 0x54, 0x43]⟩

theorem encode_greeting : greeting.encode = [0x0a, 0x03, 0x6d, 0x65, 0x31, 0x12, 0x0b, 0x4d, 0x45, 0x2c,
    0x20, 0x4d, 0x79, 0x20, 0x57, 0x61, 0x79, 0x21, 0x1a, 0x03, 0x55, 0x54, 0x43] := by
  have htext : utf8 "ME, My Way!" = [0x4d, 0x45, 0x2c, 0x20, 0x4d, 0x79, 0x20, 0x57, 0x61, 0x79, 0x21] := by
    decide
  simp [greeting, htext, MsgCheckIn.encode, encodeString, encodeField, Varint.encode_small]

theorem greeting_accepted : Accepted spelled greeting.encode greeting := by
  have hfit : greeting.encode.length < 2 ^ 63 := by
    rw [encode_greeting]
    decide
  refine ⟨(MsgCheckIn.unmarshal_reads hfit).mp ?_, rfl, ⟨[0x6d, 0x65, 0x31], by decide⟩, by decide⟩
  exact (MsgCheckIn.unmarshal_encode MsgCheckIn.empty hfit).trans
    (congrArg Except.ok (MsgCheckIn.merge_empty greeting))

theorem check_in_requests_greeting :
    requests spelled [] [[0xff], greeting.encode, []] = [greeting.event] := by
  have hfit : greeting.encode.length < 2 ^ 63 := by
    rw [encode_greeting]
    decide
  have hall : ∀ dAtA ∈ [[0xff], greeting.encode, []], dAtA.length < 2 ^ 63 := by
    intro dAtA h
    simp only [List.mem_cons, List.not_mem_nil, or_false] at h
    rcases h with rfl | rfl | rfl
    · decide
    · exact hfit
    · decide
  obtain ⟨outcomes, hout, hlog, htext⟩ := (check_in_requests spelled _ hall).2
  rw [hlog []]
  obtain ⟨o1, rest1, h1, hrest1, rfl⟩ := List.forall₂_cons_left_iff.mp hout
  obtain ⟨o2, rest2, h2, hrest2, rfl⟩ := List.forall₂_cons_left_iff.mp hrest1
  obtain ⟨o3, rest3, h3, hrest3, rfl⟩ := List.forall₂_cons_left_iff.mp hrest2
  obtain rfl := List.forall₂_nil_left_iff.mp hrest3
  cases o1 with
  | some msg =>
    have hread := (MsgCheckIn.unmarshal_reads (by decide)).mpr h1.reads
    have hbad : (MsgCheckIn.empty.unmarshal [0xff]).toOption = none := by decide
    rw [hread] at hbad
    cases hbad
  | none =>
    cases o3 with
    | some msg =>
      have hread : MsgCheckIn.empty.unmarshal [] = .ok msg :=
        (MsgCheckIn.unmarshal_reads (by decide)).mpr h3.reads
      cases hread
      exact absurd h3.text (by decide)
    | none =>
      cases o2 with
      | none => exact absurd greeting_accepted (h2 greeting)
      | some msg =>
        rw [Accepted.unique hfit h2 greeting_accepted]
        rfl

theorem check_in_command_greeting :
    ((MsgCheckIn.mk [0x6d, 0x65, 0x31] (utf8 "ME, My Way!") [0x55, 0x54, 0x43]).marshal >>= fun dAtA =>
      request spelled dAtA []) = .ok (⟨⟩, [greeting.event]) ∧
    cmdCheckIn spelled ⟨[0x6d, 0x65, 0x31], by decide⟩ [0x68, 0x69] [] = goError .other
      ("invalid check in message (%!s(<nil>)): " ++
        "invalid check in message, please input 'ME, My Way!'") := by
  have hfit : greeting.encode.length < 2 ^ 63 := by
    rw [encode_greeting]
    decide
  obtain ⟨hboth, haccepts, _⟩ := check_in_command spelled ⟨[0x6d, 0x65, 0x31], by decide⟩
    (utf8 "ME, My Way!") [0x55, 0x54, 0x43] [] hfit
  obtain ⟨msg, hcmd, _, hevent⟩ := haccepts rfl
  refine ⟨?_, (check_in_command spelled ⟨[0x6d, 0x65, 0x31], by decide⟩ [0x68, 0x69] [] [] ?_).2.2
    (by decide)⟩
  · rw [hcmd] at hboth
    exact hboth.trans hevent
  · simp [MsgCheckIn.encode, encodeString, encodeField, spelled, Varint.encode_small]

end MeChain.CheckIn
