import MeChain.Client.Codec
import MeChain.Lib.Fallible

/-!
# The staking messages of the client

Messages of the staking module as the client has them: a page of delegations, which nests three deep,
and the messages that move a delegation.  For each, `wire` is its encoding in the terms of the format and `seen`
what the client makes of those bytes; the two differ where a 64-bit integer is not a number.

* `delegations_page`     a page of delegations: what is decoded, which pages are refused, and that a page
                         of numbers comes back as it was written;
* `staking_round_trip`   the same for the messages that are sent.
-/

namespace MeChain.Client
open Cursor Varint Fallible

/-! ## coins and pages -/

structure Coin where
  denom : String
  amount : String
deriving DecidableEq, Repr

structure PageResponse where
  nextKey : List UInt8
  total : ℤ
deriving DecidableEq, Repr

namespace Coin

def codec (pb : ProtobufJs) : Codec pb Coin where
  createBase := ⟨"", ""⟩
  fields := [
    stringField pb 1 10 { get := denom, set := fun m s => { m with denom := s } },
    stringField pb 2 18 { get := amount, set := fun m s => { m with amount := s } }]
  distinct := by
    show [1, 2].Nodup
    decide

def wire (m : Coin) : List UInt8 := stringBytes 10 m.denom ++ stringBytes 18 m.amount

/-- the strings, and what they are encoded in, are short enough for their lengths to be written -/
structure Fits (m : Coin) : Prop where
  denom : Short m.denom
  amount : Short m.amount
  length : m.wire.length < 2 ^ 32

end Coin

namespace PageResponse

def codec (pb : ProtobufJs) : Codec pb PageResponse where
  createBase := ⟨[], 0⟩
  fields := [
    bytesField pb 1 10 { get := nextKey, set := fun m s => { m with nextKey := s } },
    uint64Field pb 2 16 { get := total, set := fun m n => { m with total := n } }]
  distinct := by
    show [1, 2].Nodup
    decide

def wire (m : PageResponse) : List UInt8 :=
  fieldBytes 10 [] delimited m.nextKey ++ numberBytes 16 m.total

structure Fits (m : PageResponse) : Prop where
  nextKey : m.nextKey.length < 2 ^ 32
  total : 0 ≤ m.total ∧ m.total < 2 ^ 64
  length : m.wire.length < 2 ^ 32

def seen (m : PageResponse) : Js PageResponse := do
  let total ← longToNumber m.total
  .ok { m with total := total }

end PageResponse

/-! ## delegations -/

structure Delegation where
  delegatorAddress : String
  validatorAddress : String
  shares : String
  startHeight : ℤ
  amount : String
  unmovable : String
  unMeidAmount : String
deriving DecidableEq, Repr

namespace Delegation

def codec (pb : ProtobufJs) : Codec pb Delegation where
  createBase := ⟨"", "", "", 0, "", "", ""⟩
  fields := [
    stringField pb 1 10 { get := delegatorAddress, set := fun m s => { m with delegatorAddress := s } },
    stringField pb 2 18 { get := validatorAddress, set := fun m s => { m with validatorAddress := s } },
    stringField pb 3 26 { get := shares, set := fun m s => { m with shares := s } },
    int64Field pb 4 32 { get := startHeight, set := fun m n => { m with startHeight := n } },
    stringField pb 5 42 { get := amount, set := fun m s => { m with amount := s } },
    stringField pb 6 50 { get := unmovable, set := fun m s => { m with unmovable := s } },
    stringField pb 7 58 { get := unMeidAmount, set := fun m s => { m with unMeidAmount := s } }]
  distinct := by
    show [1, 2, 3, 4, 5, 6, 7].Nodup
    decide

def wire (m : Delegation) : List UInt8 :=
  stringBytes 10 m.delegatorAddress ++ (stringBytes 18 m.validatorAddress ++
    (stringBytes 26 m.shares ++ (numberBytes 32 m.startHeight ++ (stringBytes 42 m.amount ++
      (stringBytes 50 m.unmovable ++ stringBytes 58 m.unMeidAmount)))))

structure Fits (m : Delegation) : Prop where
  delegatorAddress : Short m.delegatorAddress
  validatorAddress : Short m.validatorAddress
  shares : Short m.shares
  startHeight : -2 ^ 63 ≤ m.startHeight ∧ m.startHeight < 2 ^ 63
  amount : Short m.amount
  unmovable : Short m.unmovable
  unMeidAmount : Short m.unMeidAmount
  length : m.wire.length < 2 ^ 32

def seen (m : Delegation) : Js Delegation := do
  let startHeight ← longToNumber m.startHeight
  .ok { m with startHeight := startHeight }

end Delegation

structure DelegationResponse where
  delegation : Option Delegation
  balance : Option Coin
deriving DecidableEq, Repr

namespace DelegationResponse

def codec (pb : ProtobufJs) : Codec pb DelegationResponse where
  createBase := ⟨none, none⟩
  fields := [
    messageField 1 10 { get := delegation, set := fun m v => { m with delegation := v } }
      (Delegation.codec pb),
    messageField 2 18 { get := balance, set := fun m v => { m with balance := v } } (Coin.codec pb)]
  distinct := by
    show [1, 2].Nodup
    decide

def wire (m : DelegationResponse) : List UInt8 :=
  messageBytes 10 Delegation.wire m.delegation ++ messageBytes 18 Coin.wire m.balance

structure Fits (m : DelegationResponse) : Prop where
  delegation : ∀ v ∈ m.delegation, v.Fits
  balance : ∀ v ∈ m.balance, v.Fits
  length : m.wire.length < 2 ^ 32

def seen (m : DelegationResponse) : Js DelegationResponse := do
  let delegation ← m.delegation.mapM Delegation.seen
  .ok { m with delegation := delegation }

end DelegationResponse

structure QueryDelegatorDelegationsResponse where
  delegationResponses : List DelegationResponse
  pagination : Option PageResponse
deriving DecidableEq, Repr

namespace QueryDelegatorDelegationsResponse

def codec (pb : ProtobufJs) : Codec pb QueryDelegatorDelegationsResponse where
  createBase := ⟨[], none⟩
  fields := [
    messagesField 1 10 { get := delegationResponses, set := fun m v => { m with delegationResponses := v } }
      (DelegationResponse.codec pb),
    messageField 2 18 { get := pagination, set := fun m v => { m with pagination := v } }
      (PageResponse.codec pb)]
  distinct := by
    show [1, 2].Nodup
    decide

def wire (m : QueryDelegatorDelegationsResponse) : List UInt8 :=
  repeatedBytes 10 (fun v => delimited v.wire) m.delegationResponses ++
    messageBytes 18 PageResponse.wire m.pagination

structure Fits (m : QueryDelegatorDelegationsResponse) : Prop where
  delegationResponses : ∀ v ∈ m.delegationResponses, v.Fits
  pagination : ∀ v ∈ m.pagination, v.Fits

def seen (m : QueryDelegatorDelegationsResponse) : Js QueryDelegatorDelegationsResponse := do
  let delegationResponses ← m.delegationResponses.mapM DelegationResponse.seen
  let pagination ← m.pagination.mapM PageResponse.seen
  .ok ⟨delegationResponses, pagination⟩

/-- the integers of a page: the heights of its delegations and the total of the page -/
def Numbers (P : ℤ → Prop) (m : QueryDelegatorDelegationsResponse) : Prop :=
  (∀ v ∈ m.delegationResponses, ∀ d ∈ v.delegation, P d.startHeight) ∧ ∀ p ∈ m.pagination, P p.total

end QueryDelegatorDelegationsResponse

/-! ## what is decoded -/

section
variable {pb : ProtobufJs} {frames : pb.Writer → List (List UInt8)} (hpb : Documented pb frames)
include hpb

theorem Coin.chain {m : Coin} (hm : m.Fits) :
    Chain (Coin.codec pb).decodeField (Coin.codec pb).createBase m.wire (.ok m) := by
  refine Chain.append (string_reads hpb (codec pb) 0 rfl (by decide) rfl hm.denom) ?_
  exact string_reads hpb (codec pb) 1 rfl (by decide) rfl hm.amount

theorem Coin.writes {m : Coin} (hm : m.Fits) : Appends pb frames ((Coin.codec pb).encode m) m.wire :=
  (string_writes hpb (by decide) hm.denom).comp (string_writes hpb (by decide) hm.amount)

theorem PageResponse.chain {m : PageResponse} (hm : m.Fits) :
    Chain (PageResponse.codec pb).decodeField (PageResponse.codec pb).createBase m.wire m.seen := by
  have htotal : Chain (PageResponse.codec pb).decodeField ⟨m.nextKey, 0⟩ (numberBytes 16 m.total)
      ((longToNumber m.total).map fun n => ⟨m.nextKey, n⟩) :=
    uint64_reads hpb (codec pb) 1 rfl (by decide) rfl hm.total
  exact Chain.append (bytes_reads hpb (codec pb) 0 rfl (by decide) rfl hm.nextKey) htotal

theorem PageResponse.writes {m : PageResponse} (hm : m.Fits) (hsafe : Safe m.total) :
    Appends pb frames ((PageResponse.codec pb).encode m) m.wire :=
  (bytes_writes hpb (by decide) hm.nextKey).comp (uint64_writes hpb (by decide) hsafe hm.total.1)

theorem Delegation.chain {m : Delegation} (hm : m.Fits) :
    Chain (Delegation.codec pb).decodeField (Delegation.codec pb).createBase m.wire m.seen := by
  have hheight : Chain (Delegation.codec pb).decodeField
      ⟨m.delegatorAddress, m.validatorAddress, m.shares, 0, "", "", ""⟩ (numberBytes 32 m.startHeight)
      ((longToNumber m.startHeight).map fun n =>
        ⟨m.delegatorAddress, m.validatorAddress, m.shares, n, "", "", ""⟩) :=
    int64_reads hpb (codec pb) 3 rfl (by decide) rfl hm.startHeight
  refine Chain.append (string_reads hpb (codec pb) 0 rfl (by decide) rfl hm.delegatorAddress) ?_
  refine Chain.append (string_reads hpb (codec pb) 1 rfl (by decide) rfl hm.validatorAddress) ?_
  refine Chain.append (string_reads hpb (codec pb) 2 rfl (by decide) rfl hm.shares) ?_
  -- what stands behind the height is read only when the height is a number
  refine hheight.bind_map fun n _ => ?_
  refine Chain.append (string_reads hpb (codec pb) 4 rfl (by decide) rfl hm.amount) ?_
  refine Chain.append (string_reads hpb (codec pb) 5 rfl (by decide) rfl hm.unmovable) ?_
  exact string_reads hpb (codec pb) 6 rfl (by decide) rfl hm.unMeidAmount

theorem Delegation.writes {m : Delegation} (hm : m.Fits) (hsafe : Safe m.startHeight) :
    Appends pb frames ((Delegation.codec pb).encode m) m.wire :=
  (string_writes hpb (by decide) hm.delegatorAddress).comp
    ((string_writes hpb (by decide) hm.validatorAddress).comp
      ((string_writes hpb (by decide) hm.shares).comp ((int64_writes hpb (by decide) hsafe).comp
        ((string_writes hpb (by decide) hm.amount).comp
          ((string_writes hpb (by decide) hm.unmovable).comp
            (string_writes hpb (by decide) hm.unMeidAmount))))))

theorem DelegationResponse.chain {m : DelegationResponse} (hm : m.Fits) :
    Chain (DelegationResponse.codec pb).decodeField (DelegationResponse.codec pb).createBase m.wire
      m.seen := by
  have hdelegation : Chain (DelegationResponse.codec pb).decodeField ⟨none, none⟩
      (messageBytes 10 Delegation.wire m.delegation)
      ((m.delegation.mapM Delegation.seen).map fun v => ⟨v, none⟩) :=
    message_reads hpb (codec pb) 0 rfl (by decide) rfl fun v hv =>
      ⟨Delegation.chain hpb (hm.delegation v hv), (hm.delegation v hv).length⟩
  refine hdelegation.bind_map fun v _ => ?_
  exact message_reads_ok hpb (codec pb) 1 rfl (by decide) rfl fun w hw =>
    ⟨Coin.chain hpb (hm.balance w hw), (hm.balance w hw).length⟩

theorem DelegationResponse.writes {m : DelegationResponse} (hm : m.Fits)
    (hsafe : ∀ v ∈ m.delegation, Safe v.startHeight) :
    Appends pb frames ((DelegationResponse.codec pb).encode m) m.wire :=
  (message_writes hpb (by decide) fun v hv =>
    ⟨Delegation.writes hpb (hm.delegation v hv) (hsafe v hv), (hm.delegation v hv).length⟩).comp
  (message_writes hpb (by decide) fun v hv =>
    ⟨Coin.writes hpb (hm.balance v hv), (hm.balance v hv).length⟩)

namespace QueryDelegatorDelegationsResponse

theorem chain {m : QueryDelegatorDelegationsResponse} (hm : m.Fits) :
    Chain (codec pb).decodeField (codec pb).createBase m.wire m.seen := by
  have hresponses : Chain (codec pb).decodeField ⟨[], none⟩
      (repeatedBytes 10 (fun v => delimited v.wire) m.delegationResponses)
      ((m.delegationResponses.mapM DelegationResponse.seen).map fun vs => ⟨vs, none⟩) :=
    messages_reads hpb (codec pb) 0 rfl (by decide) _ fun v hv =>
      ⟨DelegationResponse.chain hpb (hm.delegationResponses v hv), (hm.delegationResponses v hv).length⟩
  refine hresponses.bind_map fun vs _ => ?_
  have hpagination : Chain (codec pb).decodeField ⟨vs, none⟩
      (messageBytes 18 PageResponse.wire m.pagination)
      ((m.pagination.mapM PageResponse.seen).map fun v => ⟨vs, v⟩) :=
    message_reads hpb (codec pb) 1 rfl (by decide) rfl fun v hv =>
      ⟨PageResponse.chain hpb (hm.pagination v hv), (hm.pagination v hv).length⟩
  exact hpagination

theorem writes {m : QueryDelegatorDelegationsResponse} (hm : m.Fits) (hsafe : m.Numbers Safe) :
    Appends pb frames ((codec pb).encode m) m.wire :=
  (messages_writes hpb (by decide) fun v hv =>
    ⟨DelegationResponse.writes hpb (hm.delegationResponses v hv) (hsafe.1 v hv),
      (hm.delegationResponses v hv).length⟩).comp
  (message_writes hpb (by decide) fun v hv =>
    ⟨PageResponse.writes hpb (hm.pagination v hv) (hsafe.2 v hv), (hm.pagination v hv).length⟩)

end QueryDelegatorDelegationsResponse

end

/-! ## which pages are decoded -/

theorem longToNumber_isOk_iff {n : ℤ} : (∃ v, longToNumber n = .ok v) ↔ n ≤ maxSafeInteger := by
  unfold longToNumber
  by_cases h : maxSafeInteger < n
  · rw [if_pos h]
    exact ⟨fun ⟨_, hv⟩ => (by cases hv), fun hle => absurd h (not_lt.mpr hle)⟩
  · rw [if_neg h]
    exact ⟨fun _ => not_lt.mp h, fun _ => ⟨_, rfl⟩⟩

theorem isOk_bind_iff {α β : Type} {x : Js α} {f : α → β} :
    (∃ b, (x >>= fun a => (.ok (f a) : Js β)) = .ok b) ↔ ∃ a, x = .ok a := by
  constructor
  · rintro ⟨b, hb⟩
    obtain ⟨a, ha, _⟩ := bind_eq_ok.mp hb
    exact ⟨a, ha⟩
  · rintro ⟨a, ha⟩
    exact ⟨f a, bind_eq_ok.mpr ⟨a, ha, rfl⟩⟩

theorem option_mapM_isOk_iff {α β : Type} {g : α → Js β} {x : Option α} :
    (∃ y, x.mapM g = .ok y) ↔ ∀ a ∈ x, ∃ b, g a = .ok b := by
  cases x with
  | none => exact ⟨fun _ a ha => (by cases ha), fun _ => ⟨none, rfl⟩⟩
  | some a =>
    have hsome : (some a).mapM g = (g a >>= fun b => .ok (some b)) := rfl
    rw [hsome, isOk_bind_iff]
    exact ⟨fun h b hb => (by cases hb; exact h), fun h => h a rfl⟩

theorem list_mapM_isOk_iff {α β : Type} {g : α → Js β} {l : List α} :
    (∃ r, l.mapM g = .ok r) ↔ ∀ a ∈ l, ∃ b, g a = .ok b := by
  constructor
  · rintro ⟨r, hr⟩ a ha
    exact mapM_ok_mem hr ha
  · exact mapM_total

theorem DelegationResponse.seen_isOk_iff {m : DelegationResponse} :
    (∃ v, m.seen = .ok v) ↔ ∀ d ∈ m.delegation, d.startHeight ≤ maxSafeInteger := by
  refine isOk_bind_iff.trans (option_mapM_isOk_iff.trans ?_)
  refine forall_congr' fun d => forall_congr' fun _ => ?_
  exact isOk_bind_iff.trans longToNumber_isOk_iff

namespace QueryDelegatorDelegationsResponse

theorem seen_isOk_iff {m : QueryDelegatorDelegationsResponse} :
    (∃ v, m.seen = .ok v) ↔ m.Numbers (· ≤ maxSafeInteger) := by
  have hresponses : (∃ vs, m.delegationResponses.mapM DelegationResponse.seen = .ok vs) ↔
      ∀ v ∈ m.delegationResponses, ∀ d ∈ v.delegation, d.startHeight ≤ maxSafeInteger :=
    list_mapM_isOk_iff.trans
      (forall_congr' fun _ => forall_congr' fun _ => DelegationResponse.seen_isOk_iff)
  have hpagination : (∃ v, m.pagination.mapM PageResponse.seen = .ok v) ↔
      ∀ p ∈ m.pagination, p.total ≤ maxSafeInteger :=
    option_mapM_isOk_iff.trans (forall_congr' fun _ => forall_congr' fun _ =>
      isOk_bind_iff.trans longToNumber_isOk_iff)
  rw [Numbers, ← hresponses, ← hpagination]
  constructor
  · rintro ⟨v, hv⟩
    obtain ⟨vs, hvs, hrest⟩ := bind_eq_ok.mp hv
    obtain ⟨p, hp, _⟩ := bind_eq_ok.mp hrest
    exact ⟨⟨vs, hvs⟩, p, hp⟩
  · rintro ⟨⟨vs, hvs⟩, p, hp⟩
    exact ⟨⟨vs, p⟩, bind_eq_ok.mpr ⟨vs, hvs, bind_eq_ok.mpr ⟨p, hp, rfl⟩⟩⟩

/-- the numbers of a page do not change what is seen of it -/
theorem seen_of_safe {m : QueryDelegatorDelegationsResponse} (h : m.Numbers Safe) : m.seen = .ok m := by
  have hdelegation (d : Delegation) (hd : Safe d.startHeight) : d.seen = .ok d := by
    rw [Delegation.seen, longToNumber_safe hd, ok_bind]
  have hpage (p : PageResponse) (hp : Safe p.total) : p.seen = .ok p := by
    rw [PageResponse.seen, longToNumber_safe hp, ok_bind]
  have hresponse (v : DelegationResponse) (hv : v ∈ m.delegationResponses) : v.seen = .ok v := by
    have hnumbers := h.1 v hv
    obtain ⟨delegation, balance⟩ := v
    cases delegation with
    | none => rfl
    | some d =>
      have hsome : (⟨some d, balance⟩ : DelegationResponse).seen =
          (d.seen >>= fun d => .ok (some d)) >>= fun d => .ok ⟨d, balance⟩ := rfl
      rw [hsome, hdelegation d (hnumbers d rfl), ok_bind, ok_bind]
  have hresponses := mapM_of (v := id) hresponse
  have hpagination : m.pagination.mapM PageResponse.seen = .ok m.pagination := by
    have hnumbers := h.2
    cases hp : m.pagination with
    | none => rfl
    | some p =>
      have hsome : (some p).mapM PageResponse.seen = (p.seen >>= fun p => .ok (some p)) := rfl
      rw [hsome, hpage p (hnumbers p hp), ok_bind]
  rw [List.map_id] at hresponses
  rw [seen, hresponses, ok_bind, hpagination, ok_bind]

end QueryDelegatorDelegationsResponse

/-- **A page of delegations.**  What the client makes of the bytes of a page whose integers have 64 bits:
the page with its integers rounded to numbers.  It refuses the page, as a whole, exactly when one of the integers is
larger than the largest safe one; and a page of safe integers is encoded in these bytes and comes back
as it was. -/
theorem delegations_page {pb : ProtobufJs} {frames : pb.Writer → List (List UInt8)}
    (hpb : Documented pb frames) (m : QueryDelegatorDelegationsResponse) (hm : m.Fits) :
    (QueryDelegatorDelegationsResponse.codec pb).decodeBytes m.wire = m.seen ∧
    ((∃ v, (QueryDelegatorDelegationsResponse.codec pb).decodeBytes m.wire = .ok v) ↔
      m.Numbers (· ≤ maxSafeInteger)) ∧
    (m.Numbers Safe → (QueryDelegatorDelegationsResponse.codec pb).encodeBytes m = m.wire ∧
      (QueryDelegatorDelegationsResponse.codec pb).decodeBytes m.wire = .ok m) := by
  have hdecode : (QueryDelegatorDelegationsResponse.codec pb).decodeBytes m.wire = m.seen :=
    decodeBytes_chain (QueryDelegatorDelegationsResponse.chain hpb hm)
  refine ⟨hdecode, ?_, fun hsafe => ⟨?_, ?_⟩⟩
  · rw [hdecode]
    exact QueryDelegatorDelegationsResponse.seen_isOk_iff
  · exact encodeBytes_writes hpb (QueryDelegatorDelegationsResponse.writes hpb hm hsafe)
  · rw [hdecode, QueryDelegatorDelegationsResponse.seen_of_safe hsafe]

/-- a height beyond the safe integers -/
theorem delegations_page_height :
    ¬ ∃ v, (QueryDelegatorDelegationsResponse.codec listJs).decodeBytes
      (QueryDelegatorDelegationsResponse.wire
        ⟨[⟨some ⟨"", "", "", 2 ^ 53, "", "", ""⟩, none⟩], none⟩) = .ok v := by
  have hword : word (2 ^ 53) < 2 ^ 64 := word_lt _
  have hheight : (numberBytes 32 (2 ^ 53)).length ≤ 11 := by
    have hlen := (length_encode_le_iff (word (2 ^ 53)) 9).mpr (by omega)
    have htag := (length_encode_le_iff 32 0).mpr (by norm_num)
    rw [numberBytes, fieldBytes, if_neg (by decide), List.length_append]
    omega
  have hwire : (Delegation.wire ⟨"", "", "", 2 ^ 53, "", "", ""⟩).length ≤ 11 := by
    simpa [Delegation.wire, stringBytes, fieldBytes] using hheight
  have hdelegation : (⟨"", "", "", 2 ^ 53, "", "", ""⟩ : Delegation).Fits := by
    refine ⟨by decide, by decide, by decide, by decide, by decide, by decide, by decide, ?_⟩
    omega
  have hresponse : (⟨some ⟨"", "", "", 2 ^ 53, "", "", ""⟩, none⟩ : DelegationResponse).Fits := by
    refine ⟨fun v hv => ?_, fun v hv => (by cases hv), ?_⟩
    · cases hv
      exact hdelegation
    · have hcount := (length_encode_le_iff
        (Delegation.wire ⟨"", "", "", 2 ^ 53, "", "", ""⟩).length 9).mpr (by omega)
      have htag := (length_encode_le_iff 10 0).mpr (by norm_num)
      simp only [DelegationResponse.wire, messageBytes, fieldBytes, delimited, Option.elim,
        reduceCtorEq, if_false, if_true, List.length_append, List.append_nil]
      omega
  have hfits : (⟨[⟨some ⟨"", "", "", 2 ^ 53, "", "", ""⟩, none⟩], none⟩ :
      QueryDelegatorDelegationsResponse).Fits := by
    refine ⟨fun v hv => ?_, fun v hv => (by cases hv)⟩
    obtain rfl := List.mem_singleton.mp hv
    exact hresponse
  rw [(delegations_page listJs_documented _ hfits).2.1]
  intro h
  exact absurd (h.1 _ (List.mem_singleton_self _) _ rfl) (by decide)

/-! ## the messages that are sent -/

structure SVPair where
  stakerAddress : String
  validatorAddress : String
deriving DecidableEq, Repr

structure SVPairs where
  pairs : List SVPair
deriving DecidableEq, Repr

structure ValAddresses where
  addresses : List String
deriving DecidableEq, Repr

structure MsgStake where
  stakerAddress : String
  validatorAddress : String
  amount : Option Coin
deriving DecidableEq, Repr

structure MsgUndelegate where
  delegatorAddress : String
  validatorAddress : String
  amount : Option Coin
  isMeid : Bool
deriving DecidableEq, Repr

structure MsgCancelUnbondingDelegation where
  delegatorAddress : String
  validatorAddress : String
  amount : Option Coin
  creationHeight : ℤ
deriving DecidableEq, Repr

section
variable (pb : ProtobufJs)

def SVPair.codec : Codec pb SVPair where
  createBase := ⟨"", ""⟩
  fields := [
    stringField pb 1 10 { get := stakerAddress, set := fun m s => { m with stakerAddress := s } },
    stringField pb 2 18 { get := validatorAddress, set := fun m s => { m with validatorAddress := s } }]
  distinct := by
    show [1, 2].Nodup
    decide

def SVPairs.codec : Codec pb SVPairs where
  createBase := ⟨[]⟩
  fields := [messagesField 1 10 { get := pairs, set := fun m v => { m with pairs := v } } (SVPair.codec pb)]
  distinct := by
    show [1].Nodup
    decide

def ValAddresses.codec : Codec pb ValAddresses where
  createBase := ⟨[]⟩
  fields := [repeatedField 1 10 { get := addresses, set := fun m v => { m with addresses := v } }
    pb.string pb.readString]
  distinct := by
    show [1].Nodup
    decide

def MsgStake.codec : Codec pb MsgStake where
  createBase := ⟨"", "", none⟩
  fields := [
    stringField pb 1 10 { get := stakerAddress, set := fun m s => { m with stakerAddress := s } },
    stringField pb 2 18 { get := validatorAddress, set := fun m s => { m with validatorAddress := s } },
    messageField 3 26 { get := amount, set := fun m v => { m with amount := v } } (Coin.codec pb)]
  distinct := by
    show [1, 2, 3].Nodup
    decide

def MsgUndelegate.codec : Codec pb MsgUndelegate where
  createBase := ⟨"", "", none, false⟩
  fields := [
    stringField pb 1 10 { get := delegatorAddress, set := fun m s => { m with delegatorAddress := s } },
    stringField pb 2 18 { get := validatorAddress, set := fun m s => { m with validatorAddress := s } },
    messageField 3 26 { get := amount, set := fun m v => { m with amount := v } } (Coin.codec pb),
    boolField pb 4 32 { get := isMeid, set := fun m b => { m with isMeid := b } }]
  distinct := by
    show [1, 2, 3, 4].Nodup
    decide

def MsgCancelUnbondingDelegation.codec : Codec pb MsgCancelUnbondingDelegation where
  createBase := ⟨"", "", none, 0⟩
  fields := [
    stringField pb 1 10 { get := delegatorAddress, set := fun m s => { m with delegatorAddress := s } },
    stringField pb 2 18 { get := validatorAddress, set := fun m s => { m with validatorAddress := s } },
    messageField 3 26 { get := amount, set := fun m v => { m with amount := v } } (Coin.codec pb),
    int64Field pb 4 32 { get := creationHeight, set := fun m n => { m with creationHeight := n } }]
  distinct := by
    show [1, 2, 3, 4].Nodup
    decide

end

def SVPair.wire (m : SVPair) : List UInt8 :=
  stringBytes 10 m.stakerAddress ++ stringBytes 18 m.validatorAddress

structure SVPair.Fits (m : SVPair) : Prop where
  stakerAddress : Short m.stakerAddress
  validatorAddress : Short m.validatorAddress
  length : m.wire.length < 2 ^ 32

section
variable {pb : ProtobufJs} {frames : pb.Writer → List (List UInt8)} {M : Type} {c : Codec pb M} {m : M}

/-- a message that its own bytes are read as comes back from the array it is written to -/
theorem round_trip (hpb : Documented pb frames) {bs : List UInt8}
    (hw : Appends pb frames (c.encode m) bs) (hr : Chain c.decodeField c.createBase bs (.ok m)) :
    c.decodeBytes (c.encodeBytes m) = .ok m := by
  rw [encodeBytes_writes hpb hw]
  exact decodeBytes_chain hr

end

section
variable {pb : ProtobufJs} {frames : pb.Writer → List (List UInt8)} (hpb : Documented pb frames)
include hpb

theorem SVPair.chain {m : SVPair} (hm : m.Fits) :
    Chain (SVPair.codec pb).decodeField (SVPair.codec pb).createBase m.wire (.ok m) := by
  refine Chain.append (string_reads hpb (codec pb) 0 rfl (by decide) rfl hm.stakerAddress) ?_
  exact string_reads hpb (codec pb) 1 rfl (by decide) rfl hm.validatorAddress

theorem SVPair.writes {m : SVPair} (hm : m.Fits) :
    Appends pb frames ((SVPair.codec pb).encode m) m.wire :=
  (string_writes hpb (by decide) hm.stakerAddress).comp (string_writes hpb (by decide) hm.validatorAddress)

theorem SVPairs.round_trip {m : SVPairs} (hm : ∀ v ∈ m.pairs, v.Fits) :
    (SVPairs.codec pb).decodeBytes ((SVPairs.codec pb).encodeBytes m) = .ok m := by
  refine Client.round_trip hpb (messages_writes hpb (by decide) fun v hv =>
    ⟨SVPair.writes hpb (hm v hv), (hm v hv).length⟩) ?_
  exact repeated_reads_ok hpb (c := codec pb) 0 rfl (by decide)
    (fun v hv => reads_message hpb (SVPair.chain hpb (hm v hv)) (hm v hv).length) (codec pb).createBase

theorem ValAddresses.round_trip {m : ValAddresses} (hm : ∀ s ∈ m.addresses, Short s) :
    (ValAddresses.codec pb).decodeBytes ((ValAddresses.codec pb).encodeBytes m) = .ok m := by
  refine Client.round_trip hpb (repeated_writes hpb (by decide) fun s hs => hpb.string s (hm s hs)) ?_
  exact repeated_reads_ok hpb (c := codec pb) 0 rfl (by decide) (fun s hs => hpb.readString s (hm s hs))
    (codec pb).createBase

theorem MsgStake.round_trip {m : MsgStake} (hstaker : Short m.stakerAddress)
    (hvalidator : Short m.validatorAddress) (hamount : ∀ v ∈ m.amount, v.Fits) :
    (MsgStake.codec pb).decodeBytes ((MsgStake.codec pb).encodeBytes m) = .ok m := by
  refine Client.round_trip hpb ((string_writes hpb (by decide) hstaker).comp
    ((string_writes hpb (by decide) hvalidator).comp (message_writes hpb (by decide) fun v hv =>
      ⟨Coin.writes hpb (hamount v hv), (hamount v hv).length⟩))) ?_
  refine Chain.append (string_reads hpb (codec pb) 0 rfl (by decide) rfl hstaker) ?_
  refine Chain.append (string_reads hpb (codec pb) 1 rfl (by decide) rfl hvalidator) ?_
  exact message_reads_ok hpb (codec pb) 2 rfl (by decide) rfl fun v hv =>
    ⟨Coin.chain hpb (hamount v hv), (hamount v hv).length⟩

theorem MsgUndelegate.round_trip {m : MsgUndelegate} (hdelegator : Short m.delegatorAddress)
    (hvalidator : Short m.validatorAddress) (hamount : ∀ v ∈ m.amount, v.Fits) :
    (MsgUndelegate.codec pb).decodeBytes ((MsgUndelegate.codec pb).encodeBytes m) = .ok m := by
  refine Client.round_trip hpb ((string_writes hpb (by decide) hdelegator).comp
    ((string_writes hpb (by decide) hvalidator).comp ((message_writes hpb (by decide) fun v hv =>
      ⟨Coin.writes hpb (hamount v hv), (hamount v hv).length⟩).comp (bool_writes hpb (by decide))))) ?_
  refine Chain.append (string_reads hpb (codec pb) 0 rfl (by decide) rfl hdelegator) ?_
  refine Chain.append (string_reads hpb (codec pb) 1 rfl (by decide) rfl hvalidator) ?_
  refine Chain.append (message_reads_ok hpb (codec pb) 2 rfl (by decide) rfl fun v hv =>
    ⟨Coin.chain hpb (hamount v hv), (hamount v hv).length⟩) ?_
  exact bool_reads hpb (codec pb) 3 rfl (by decide) rfl m.isMeid

theorem MsgCancelUnbondingDelegation.round_trip {m : MsgCancelUnbondingDelegation}
    (hdelegator : Short m.delegatorAddress) (hvalidator : Short m.validatorAddress)
    (hamount : ∀ v ∈ m.amount, v.Fits) (hheight : Safe m.creationHeight) :
    (MsgCancelUnbondingDelegation.codec pb).decodeBytes
      ((MsgCancelUnbondingDelegation.codec pb).encodeBytes m) = .ok m := by
  have hrange : -2 ^ 63 ≤ m.creationHeight ∧ m.creationHeight < 2 ^ 63 := by
    unfold Safe maxSafeInteger at hheight
    omega
  refine Client.round_trip hpb ((string_writes hpb (by decide) hdelegator).comp
    ((string_writes hpb (by decide) hvalidator).comp ((message_writes hpb (by decide) fun v hv =>
      ⟨Coin.writes hpb (hamount v hv), (hamount v hv).length⟩).comp
        (int64_writes hpb (by decide) hheight)))) ?_
  refine Chain.append (string_reads hpb (codec pb) 0 rfl (by decide) rfl hdelegator) ?_
  refine Chain.append (string_reads hpb (codec pb) 1 rfl (by decide) rfl hvalidator) ?_
  refine Chain.append (message_reads_ok hpb (codec pb) 2 rfl (by decide) rfl fun v hv =>
    ⟨Coin.chain hpb (hamount v hv), (hamount v hv).length⟩) ?_
  have hread : Chain (codec pb).decodeField ⟨m.delegatorAddress, m.validatorAddress, m.amount, 0⟩
      (numberBytes 32 m.creationHeight) ((longToNumber m.creationHeight).map fun n =>
        ⟨m.delegatorAddress, m.validatorAddress, m.amount, n⟩) :=
    int64_reads hpb (codec pb) 3 rfl (by decide) rfl hrange
  rw [longToNumber_safe hheight] at hread
  exact hread

end

/-- **Round trips of the staking messages.**  Lists of strings and of messages, coins in a message, flags
and heights: what is written is read back, when the lengths fit and the height is a safe integer. -/
theorem staking_round_trip {pb : ProtobufJs} {frames : pb.Writer → List (List UInt8)}
    (hpb : Documented pb frames) :
    (∀ m : ValAddresses, (∀ s ∈ m.addresses, Short s) →
      (ValAddresses.codec pb).decodeBytes ((ValAddresses.codec pb).encodeBytes m) = .ok m) ∧
    (∀ m : SVPairs, (∀ v ∈ m.pairs, v.Fits) →
      (SVPairs.codec pb).decodeBytes ((SVPairs.codec pb).encodeBytes m) = .ok m) ∧
    (∀ m : MsgStake, Short m.stakerAddress → Short m.validatorAddress → (∀ v ∈ m.amount, v.Fits) →
      (MsgStake.codec pb).decodeBytes ((MsgStake.codec pb).encodeBytes m) = .ok m) ∧
    (∀ m : MsgUndelegate, Short m.delegatorAddress → Short m.validatorAddress →
      (∀ v ∈ m.amount, v.Fits) →
      (MsgUndelegate.codec pb).decodeBytes ((MsgUndelegate.codec pb).encodeBytes m) = .ok m) ∧
    (∀ m : MsgCancelUnbondingDelegation, Short m.delegatorAddress → Short m.validatorAddress →
      (∀ v ∈ m.amount, v.Fits) → Safe m.creationHeight →
      (MsgCancelUnbondingDelegation.codec pb).decodeBytes
        ((MsgCancelUnbondingDelegation.codec pb).encodeBytes m) = .ok m) :=
  ⟨fun _ => ValAddresses.round_trip hpb, fun _ => SVPairs.round_trip hpb,
    fun _ => MsgStake.round_trip hpb, fun _ => MsgUndelegate.round_trip hpb,
    fun _ => MsgCancelUnbondingDelegation.round_trip hpb⟩

theorem staking_round_trip_meid :
    (MsgUndelegate.codec listJs).decodeBytes ((MsgUndelegate.codec listJs).encodeBytes
      ⟨"me1a", "mevaloper1b", none, true⟩) = .ok ⟨"me1a", "mevaloper1b", none, true⟩ :=
  (staking_round_trip listJs_documented).2.2.2.1 _ (by decide) (by decide) fun v hv => (by cases hv)

end MeChain.Client
