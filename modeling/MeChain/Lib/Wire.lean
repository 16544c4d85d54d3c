import MeChain.Lib.Varint

/-!
# The wire format of protocol buffers

A message is a sequence of fields.  A field begins with a key, a varint whose three lowest bits say
how the field goes on; a group is opened and closed by keys and holds a message of its own.

* `Entry`     a field as the reader of a message sees it: its key and its content;
* `Message`   the bytes of a sequence of fields, the grammar of the format;
* `Token`     what a reader that only counts open groups takes in one step;
* `Ends`      the bytes that close all the groups still open;
* `Ends.cons`, `message_of_token`  from the steps of such a reader back to the grammar.
-/

namespace Wire
open Varint

/-- the wire type of a key -/
abbrev wireType (key : Nat) : Nat := key % 8

/-- the payload of a field of a wire type without nesting, and its content -/
inductive Scalar : Nat → List UInt8 → List UInt8 → Prop
  | varint {bs : List UInt8} {v : Nat} : Word bs v → Scalar 0 bs bs
  | fixed64 {bs : List UInt8} : bs.length = 8 → Scalar 1 bs bs
  | bytes {ls content : List UInt8} {n : Nat} : Word ls n → n < 2 ^ 63 → content.length = n →
      Scalar 2 content (ls ++ content)
  | fixed32 {bs : List UInt8} : bs.length = 4 → Scalar 5 bs bs

structure Entry where
  key : Nat
  content : List UInt8
deriving DecidableEq, Repr

inductive Message : List Entry → List UInt8 → Prop
  | nil : Message [] []
  | scalar {ks content ps bs : List UInt8} {key : Nat} {es : List Entry} : Word ks key →
      Scalar (wireType key) content ps → Message es bs →
      Message (⟨key, content⟩ :: es) (ks ++ ps ++ bs)
  | group {ks body cs bs : List UInt8} {key close : Nat} {inner es : List Entry} : Word ks key →
      wireType key = 3 → Message inner body → Word cs close → wireType close = 4 →
      Message es bs → Message (⟨key, body⟩ :: es) (ks ++ body ++ cs ++ bs)

theorem Message.append {es fs : List Entry} {as bs : List UInt8} (ha : Message es as)
    (hb : Message fs bs) : Message (es ++ fs) (as ++ bs) := by
  induction ha with
  | nil => exact hb
  | scalar hk hs _ ih =>
    rw [List.append_assoc, List.cons_append]
    exact .scalar hk hs ih
  | group hk ht hin hc ht' _ _ ih =>
    rw [List.append_assoc, List.cons_append]
    exact .group hk ht hin hc ht' ih

theorem Message.of_scalar {ks content ps : List UInt8} {key : Nat} (hk : Word ks key)
    (hs : Scalar (wireType key) content ps) : Message [⟨key, content⟩] (ks ++ ps) := by
  simpa using Message.scalar hk hs .nil

theorem Message.of_group {ks body cs : List UInt8} {key close : Nat} {inner : List Entry}
    (hk : Word ks key) (ht : wireType key = 3) (hin : Message inner body) (hc : Word cs close)
    (ht' : wireType close = 4) : Message [⟨key, body⟩] (ks ++ body ++ cs) := by
  simpa using Message.group hk ht hin hc ht' .nil

theorem Message.uncons {e : Entry} {es : List Entry} {bs : List UInt8} (h : Message (e :: es) bs) :
    ∃ as rest, bs = as ++ rest ∧ Message [e] as ∧ Message es rest := by
  cases h with
  | scalar hk hs hr => exact ⟨_, _, rfl, .of_scalar hk hs, hr⟩
  | group hk ht hin hc ht' hr => exact ⟨_, _, rfl, .of_group hk ht hin hc ht', hr⟩

theorem Message.key {e : Entry} {bs : List UInt8} (h : Message [e] bs) :
    ∃ ks rest, bs = ks ++ rest ∧ Word ks e.key := by
  cases h with
  | scalar hk _ _ => exact ⟨_, _, List.append_assoc _ _ _, hk⟩
  | group hk _ _ _ _ _ => exact ⟨_, _, by rw [List.append_assoc, List.append_assoc], hk⟩

theorem Message.length_pos {e : Entry} {bs : List UInt8} (h : Message [e] bs) : 0 < bs.length := by
  obtain ⟨ks, rest, rfl, hk⟩ := h.key
  have hp := hk.length_pos
  rw [List.length_append]
  omega

theorem Scalar.content_le {t : Nat} {content ps : List UInt8} (h : Scalar t content ps) :
    content.length ≤ ps.length := by
  cases h with
  | bytes _ _ _ =>
    rw [List.length_append]
    omega
  | varint _ => exact le_refl _
  | fixed64 _ => exact le_refl _
  | fixed32 _ => exact le_refl _

theorem Message.content_le {e : Entry} {bs : List UInt8} (h : Message [e] bs) :
    e.content.length ≤ bs.length := by
  cases h with
  | scalar _ hs _ =>
    have hc := hs.content_le
    simp only [List.length_append]
    omega
  | group _ _ _ _ _ _ =>
    simp only [List.length_append]
    omega

theorem Message.mem_content_le {es : List Entry} {bs : List UInt8} (h : Message es bs) :
    ∀ e ∈ es, e.content.length ≤ bs.length := by
  induction es generalizing bs with
  | nil => exact fun e he => absurd he List.not_mem_nil
  | cons f es ih =>
    obtain ⟨as, rest, rfl, hf, hes⟩ := h.uncons
    rw [List.forall_mem_cons, List.length_append]
    have hfirst := hf.content_le
    refine ⟨by omega, fun e he => ?_⟩
    have := ih hes e he
    omega

/-- a length-delimited field: key, length, content -/
theorem Message.of_bytes {e : Entry} {bs : List UInt8} (h : Message [e] bs)
    (ht : wireType e.key = 2) :
    ∃ ks ls, bs = ks ++ ls ++ e.content ∧ Word ks e.key ∧ Word ls e.content.length ∧
      e.content.length < 2 ^ 63 := by
  cases h with
  | scalar hk hs hr =>
    cases hr
    simp only at ht
    rw [ht] at hs
    cases hs with
    | bytes hl hn hc =>
      subst hc
      exact ⟨_, _, by rw [List.append_nil, List.append_assoc], hk, hl, hn⟩
  | group hk ht' _ _ _ _ =>
    simp only at ht
    omega

/-! ## a reader that counts open groups -/

/-- one step of the reader, with the number of open groups before and after -/
inductive Token : Nat → Nat → List UInt8 → Prop
  | scalar {d : Nat} {ks content ps : List UInt8} {key : Nat} : Word ks key →
      Scalar (wireType key) content ps → Token d d (ks ++ ps)
  | opens {d : Nat} {ks : List UInt8} {key : Nat} : Word ks key → wireType key = 3 →
      Token d (d + 1) ks
  | closes {d : Nat} {ks : List UInt8} {key : Nat} : Word ks key → wireType key = 4 →
      Token (d + 1) d ks

theorem Token.length_pos {d d' : Nat} {bs : List UInt8} (h : Token d d' bs) : 0 < bs.length := by
  cases h with
  | scalar hk _ =>
    have hp := hk.length_pos
    rw [List.length_append]
    omega
  | opens hk _ => exact hk.length_pos
  | closes hk _ => exact hk.length_pos

/-- the bytes that close `d` open groups: of each group what it still holds and its closing key -/
def Ends : Nat → List UInt8 → Prop
  | 0, bs => bs = []
  | d + 1, bs => ∃ es body cs close rest, bs = body ++ cs ++ rest ∧ Message es body ∧
      Word cs close ∧ wireType close = 4 ∧ Ends d rest

theorem Ends.cons {d d' : Nat} {ts bs : List UInt8} (ht : Token (d + 1) d' ts)
    (h : Ends d' bs) : Ends (d + 1) (ts ++ bs) := by
  cases ht with
  | scalar hk hs =>
    obtain ⟨es, body, cs, close, rest, rfl, hm, hc, hclose, hr⟩ := h
    exact ⟨_, _, cs, close, rest, by simp only [List.append_assoc], .scalar hk hs hm, hc, hclose, hr⟩
  | opens hk ht =>
    obtain ⟨es, body, cs, close, rest, rfl, hm, hc, hclose, hr⟩ := h
    obtain ⟨fs, body', cs', close', rest', rfl, hm', hc', hclose', hr'⟩ := hr
    exact ⟨_, _, cs', close', rest', by simp only [List.append_assoc],
      .group hk ht hm hc hclose hm', hc', hclose', hr'⟩
  | closes hk ht => exact ⟨[], [], ts, _, bs, rfl, .nil, hk, ht, h⟩

/-- From outside all groups a token and what closes the groups it opened are one field. -/
theorem message_of_token {d : Nat} {ts bs : List UInt8} (ht : Token 0 d ts) (h : Ends d bs) :
    ∃ e, Message [e] (ts ++ bs) := by
  cases ht with
  | scalar hk hs =>
    cases h
    rw [List.append_nil]
    exact ⟨_, .of_scalar hk hs⟩
  | opens hk ht =>
    obtain ⟨es, body, cs, close, rest, rfl, hm, hc, hclose, rfl⟩ := h
    have hf := Message.of_group hk ht hm hc hclose
    exact ⟨_, by simpa using hf⟩

end Wire
