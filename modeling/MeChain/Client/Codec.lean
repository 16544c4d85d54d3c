import MeChain.Client.ProtobufJs
import MeChain.Lib.Fallible

/-!
# The generated codecs of the client

For every message the client has an `encode` with one block for each field and a `decode` whose loop
has one `case` for each field.  `Field` is such a block with its `case`, `Codec` the fields of a message.

* `scalarField`, `repeatedField`   the two shapes a block has, `writeMessage` and `readMessage` what
                                   stands in them for a field that is a message;
* `fieldBytes`, `repeatedBytes`    the bytes of a block, in the terms of the format alone;
* `reads_known`, `reads_unknown`   one pass of the loop of `decode`;
* `scalar_writes`, `scalar_reads`  what a block writes and what the loop makes of it, with the same for
                                   each kind of value;
* `decodeBytes_chain`, `encodeBytes_writes`  from the blocks to whole messages.
-/

namespace MeChain.Client
open Cursor Varint

/-- a property of a message, read and assigned -/
structure Member (M α : Type) where
  get : M → α
  set : M → α → M
  get_set : ∀ m a, get (set m a) = a := by intros; rfl
  set_get : ∀ m, set m (get m) = m := by intros; rfl
  set_set : ∀ m a b, set (set m a) b = set m b := by intros; rfl

structure Field (pb : ProtobufJs) (M : Type) where
  num : ℕ
  encode : M → pb.Writer → pb.Writer
  decode : M → Reading M

structure Codec (pb : ProtobufJs) (M : Type) where
  createBase : M
  fields : List (Field pb M)
  distinct : (fields.map (·.num)).Nodup

variable {pb : ProtobufJs} {M N α : Type}

namespace Codec
variable (c : Codec pb M)

def encode (message : M) (writer : pb.Writer) : pb.Writer :=
  c.fields.foldl (fun writer f => f.encode message writer) writer

/-- `encode(message).finish()` -/
def encodeBytes (message : M) : List UInt8 := pb.finish (c.encode message pb.create)

/-- one pass of the loop of `decode` -/
def decodeField (message : M) : Reading M := do
  let tag ← pb.readUint32
  match c.fields.find? (·.num = tag >>> 3) with
  | some f => f.decode message
  | none => do
    pb.skipType (tag &&& 7)
    pure message

/-- `decode(reader, length)` -/
def decode (length : Option ℕ) : Reading M := fun reader =>
  let stop := match length with
    | none => reader.buf.length
    | some length => reader.pos + length
  readUpTo "no progress" stop c.decodeField c.createBase reader

/-- `decode(input)` for an array -/
def decodeBytes (input : List UInt8) : Js M := do
  let r ← (c.decode none).run ⟨input, 0⟩
  .ok r.1

end Codec

/-! ## the blocks -/

/-- a block behind `if (message.x !== default)`, and the `case` that assigns -/
def scalarField [DecidableEq α] (num tag : ℕ) (x : Member M α) (default : α)
    (write : α → pb.Writer → pb.Writer) (read : Reading α) : Field pb M where
  num := num
  encode message writer :=
    if x.get message ≠ default then write (x.get message) (pb.uint32 tag writer) else writer
  decode message := do
    let v ← read
    pure (x.set message v)

/-- a block `for (const v of message.x)`, and the `case` that pushes -/
def repeatedField (num tag : ℕ) (x : Member M (List α)) (write : α → pb.Writer → pb.Writer)
    (read : Reading α) : Field pb M where
  num := num
  encode message writer :=
    (x.get message).foldl (fun writer v => write v (pb.uint32 tag writer)) writer
  decode message := do
    let v ← read
    pure (x.set message (x.get message ++ [v]))

/-- `longToNumber(reader.int64())` -/
def readInt64Number (pb : ProtobufJs) : Reading ℤ := do
  let long ← pb.readInt64
  longToNumber long

/-- `longToNumber(reader.uint64())` -/
def readUint64Number (pb : ProtobufJs) : Reading ℤ := do
  let long ← pb.readUint64
  longToNumber long

/-- `X.encode(v, writer.fork()).ldelim()` -/
def writeMessage (c : Codec pb N) (v : N) (writer : pb.Writer) : pb.Writer :=
  pb.ldelim (c.encode v (pb.fork writer))

/-- `X.decode(reader, reader.uint32())` -/
def readMessage (c : Codec pb N) : Reading N := do
  let length ← pb.readUint32
  c.decode (some length)

/-- the same for a property that may be undefined; the block is behind `!== undefined` -/
def writeSome (c : Codec pb N) : Option N → pb.Writer → pb.Writer
  | some v, writer => writeMessage c v writer
  | none, writer => writer

def readSome (c : Codec pb N) : Reading (Option N) := do
  let v ← readMessage c
  pure (some v)

theorem find?_num {fields : List (Field pb M)} (h : (fields.map (·.num)).Nodup) {f : Field pb M}
    (hf : f ∈ fields) : fields.find? (·.num = f.num) = some f := by
  induction fields with
  | nil => cases hf
  | cons g fields ih =>
    rw [List.map_cons, List.nodup_cons] at h
    rcases List.mem_cons.mp hf with rfl | hf
    · rw [List.find?_cons_of_pos (by simp)]
    · have hne : g.num ≠ f.num := fun he => h.1 (he ▸ List.mem_map_of_mem hf)
      rw [List.find?_cons_of_neg (by simpa using hne)]
      exact ih h.2 hf

theorem ne_nil_encode (n : ℕ) : encode n ≠ [] := (spells_encode n).ne_nil

section
variable (pb)

abbrev stringField (num tag : ℕ) (x : Member M String) : Field pb M :=
  scalarField num tag x "" pb.string pb.readString

abbrev bytesField (num tag : ℕ) (x : Member M (List UInt8)) : Field pb M :=
  scalarField num tag x [] pb.bytes pb.readBytes

abbrev boolField (num tag : ℕ) (x : Member M Bool) : Field pb M :=
  scalarField num tag x false pb.bool pb.readBool

abbrev int64Field (num tag : ℕ) (x : Member M ℤ) : Field pb M :=
  scalarField num tag x 0 pb.int64 (readInt64Number pb)

abbrev uint64Field (num tag : ℕ) (x : Member M ℤ) : Field pb M :=
  scalarField num tag x 0 pb.uint64 (readUint64Number pb)

end

abbrev messageField [DecidableEq N] (num tag : ℕ) (x : Member M (Option N)) (c : Codec pb N) :
    Field pb M :=
  scalarField num tag x none (writeSome c) (readSome c)

abbrev messagesField (num tag : ℕ) (x : Member M (List N)) (c : Codec pb N) : Field pb M :=
  repeatedField num tag x (writeMessage c) (readMessage c)

/-! ## the bytes of a block -/

/-- a field of the format, left out when it has its default -/
def fieldBytes [DecidableEq α] (tag : ℕ) (default : α) (payload : α → List UInt8) (v : α) : List UInt8 :=
  if v = default then [] else encode tag ++ payload v

/-- a field of the format that stands once for each element -/
def repeatedBytes (tag : ℕ) (payload : α → List UInt8) (vs : List α) : List UInt8 :=
  vs.flatMap fun v => encode tag ++ payload v

def stringBytes (tag : ℕ) (s : String) : List UInt8 := fieldBytes tag "" (fun s => delimited (utf8 s)) s

def numberBytes (tag : ℕ) (n : ℤ) : List UInt8 := fieldBytes tag 0 (fun n => encode (word n)) n

def messageBytes [DecidableEq N] (tag : ℕ) (wire : N → List UInt8) (v : Option N) : List UInt8 :=
  fieldBytes tag none (fun v => delimited (v.elim [] wire)) v

/-- a string whose length a varint of 32 bits can say -/
def Short (s : String) : Prop := (utf8 s).length < 2 ^ 32

instance (s : String) : Decidable (Short s) := inferInstanceAs (Decidable (_ < _))

section
variable {frames : pb.Writer → List (List UInt8)} {c : Codec pb M}

theorem longToNumber_zero : longToNumber 0 = .ok 0 := longToNumber_safe (by decide)

theorem long_reads {act : Reading ℤ} {bs : List UInt8} {n : ℤ} (h : Reads act bs (.ok n)) :
    Reads (do let long ← act; longToNumber long : Reading ℤ) bs (longToNumber n) := by
  have hpure (r : Js ℤ) : Reads (r : Reading ℤ) [] r := by
    intro pre post
    cases r with
    | ok a => rfl
    | error e => rfl
  rw [← List.append_nil bs]
  exact h.bind (hpure (longToNumber n))

/-! ## one pass -/

section
variable (hpb : Documented pb frames)
include hpb

theorem reads_pass {ks : List UInt8} {tag : ℕ} (htag : Uint32 ks tag) {dst : M} {payload : List UInt8}
    {r : Js M} (h : Reads (match c.fields.find? (·.num = tag / 8) with
      | some f => f.decode dst
      | none => do
        pb.skipType (tag % 8)
        pure dst) payload r) :
    Reads (c.decodeField dst) (ks ++ payload) r := by
  have hnum : tag >>> 3 = tag / 8 := Nat.shiftRight_eq_div_pow tag 3
  have htype : tag &&& 7 = tag % 8 := Nat.and_two_pow_sub_one_eq_mod tag 3
  rw [← hnum, ← htype] at h
  exact (hpb.readUint32 ks tag htag).bind h

theorem reads_known {i : ℕ} {f : Field pb M} (hf : c.fields[i]? = some f) {tag : ℕ}
    (htag : tag < 2 ^ 32 ∧ tag / 8 = f.num) {dst : M} {payload : List UInt8} {r : Js M}
    (h : Reads (f.decode dst) payload r) : Reads (c.decodeField dst) (encode tag ++ payload) r := by
  refine reads_pass hpb (uint32_encode htag.1) ?_
  have hfind : c.fields.find? (·.num = tag / 8) = some f := by
    rw [htag.2]
    exact find?_num c.distinct (List.mem_of_getElem? hf)
  rw [hfind]
  exact h

theorem reads_unknown {ks : List UInt8} {tag : ℕ} (htag : Uint32 ks tag) (hnone : ∀ f ∈ c.fields, f.num ≠ tag / 8)
    {payload : List UInt8} (h : Skippable (tag % 8) payload) (dst : M) :
    Reads (c.decodeField dst) (ks ++ payload) (.ok dst) := by
  refine reads_pass hpb htag ?_
  have hfind : c.fields.find? (·.num = tag / 8) = none := by
    rw [List.find?_eq_none]
    exact fun f hf => by simpa using hnone f hf
  rw [hfind]
  exact (hpb.skipType _ _ h).map fun _ => dst

/-! ## what a block writes -/

theorem scalar_writes [DecidableEq α] {num tag : ℕ} {x : Member M α} {default : α}
    {write : α → pb.Writer → pb.Writer} {read : Reading α} {payload : α → List UInt8} {m : M}
    (htag : tag < 2 ^ 32)
    (h : x.get m ≠ default → Appends pb frames (write (x.get m)) (payload (x.get m))) :
    Appends pb frames ((scalarField num tag x default write read).encode m)
      (fieldBytes tag default payload (x.get m)) := by
  unfold fieldBytes scalarField
  by_cases hm : x.get m = default
  · simp only [hm, ne_eq, not_true_eq_false, if_false, if_true]
    exact .id
  · simp only [hm, ne_eq, not_false_eq_true, if_true, if_false]
    exact (hpb.uint32 tag htag).comp (h hm)

theorem repeated_writes {tag : ℕ} {write : α → pb.Writer → pb.Writer} {payload : α → List UInt8}
    (htag : tag < 2 ^ 32) {vs : List α} (h : ∀ v ∈ vs, Appends pb frames (write v) (payload v)) :
    Appends pb frames (fun writer => vs.foldl (fun writer v => write v (pb.uint32 tag writer)) writer)
      (repeatedBytes tag payload vs) := by
  induction vs with
  | nil => exact .id
  | cons v vs ih =>
    rw [List.forall_mem_cons] at h
    rw [repeatedBytes, List.flatMap_cons]
    exact ((hpb.uint32 tag htag).comp h.1).comp (ih h.2)

/-! ## what the loop makes of a block -/

/-- A scalar is assigned, or the message keeps its default, or the loop fails as the value does. -/
theorem scalar_reads [DecidableEq α] {i num tag : ℕ} {x : Member M α} {default : α}
    {write : α → pb.Writer → pb.Writer} {read : Reading α} {payload : α → List UInt8}
    (hf : c.fields[i]? = some (scalarField num tag x default write read))
    (htag : tag < 2 ^ 32 ∧ tag / 8 = num) {dst : M} (hdst : x.get dst = default) {v : α} {r : Js α}
    (hr : v = default → r = .ok default) (h : v ≠ default → Reads read (payload v) r) :
    Chain c.decodeField dst (fieldBytes tag default payload v) (r.map (x.set dst)) := by
  unfold fieldBytes
  by_cases hv : v = default
  · have hkeep : r.map (x.set dst) = .ok dst := by
      rw [hr hv, ← hdst]
      exact congrArg Except.ok (x.set_get dst)
    rw [if_pos hv, hkeep]
    exact .nil
  · rw [if_neg hv]
    refine .one (by simp [ne_nil_encode]) (reads_known hpb hf htag ?_)
    exact (h hv).map (x.set dst)

/-- The elements are pushed one by one, up to the first that fails. -/
theorem repeated_reads {i num tag : ℕ} {x : Member M (List α)} {write : α → pb.Writer → pb.Writer}
    {read : Reading α} {payload : α → List UInt8}
    (hf : c.fields[i]? = some (repeatedField num tag x write read))
    (htag : tag < 2 ^ 32 ∧ tag / 8 = num) {r : α → Js α} {vs : List α}
    (h : ∀ v ∈ vs, Reads read (payload v) (r v)) (dst : M) :
    Chain c.decodeField dst (repeatedBytes tag payload vs)
      ((vs.mapM r).map fun ws => x.set dst (x.get dst ++ ws)) := by
  induction vs generalizing dst with
  | nil =>
    have hnone : x.set dst (x.get dst ++ []) = dst := by rw [List.append_nil, x.set_get]
    show Chain _ _ _ (Except.ok (x.set dst (x.get dst ++ [])))
    rw [hnone]
    exact .nil
  | cons v vs ih =>
    rw [List.forall_mem_cons] at h
    have hfirst : Chain c.decodeField dst (encode tag ++ payload v)
        ((r v).map fun w => x.set dst (x.get dst ++ [w])) :=
      .one (by simp [ne_nil_encode]) (reads_known hpb hf htag (h.1.map _))
    rw [repeatedBytes, List.flatMap_cons, List.mapM_cons]
    cases hv : r v with
    | error e =>
      rw [hv] at hfirst
      exact hfirst.bind (k := fun s => .ok s) fun s' hs' => by cases hs'
    | ok w =>
      rw [hv] at hfirst
      have hrest := ih h.2 (x.set dst (x.get dst ++ [w]))
      simp only [x.get_set, x.set_set, List.append_assoc, List.singleton_append] at hrest
      have hboth := Chain.append hfirst hrest
      rw [repeatedBytes] at hboth
      cases hvs : vs.mapM r with
      | ok ws =>
        rw [hvs] at hboth
        exact hboth
      | error e =>
        rw [hvs] at hboth
        exact hboth

theorem repeated_reads_ok {num tag : ℕ} {x : Member M (List α)} {write : α → pb.Writer → pb.Writer}
    {read : Reading α} {payload : α → List UInt8} (i : ℕ)
    (hf : c.fields[i]? = some (repeatedField num tag x write read))
    (htag : tag < 2 ^ 32 ∧ tag / 8 = num) {vs : List α}
    (h : ∀ v ∈ vs, Reads read (payload v) (.ok v)) (dst : M) :
    Chain c.decodeField dst (repeatedBytes tag payload vs) (.ok (x.set dst (x.get dst ++ vs))) := by
  have hread := repeated_reads hpb hf htag (r := fun v => .ok v) h dst
  have hall : vs.mapM (fun v => (.ok v : Js α)) = .ok (vs.map id) := Fallible.mapM_of fun _ _ => rfl
  rw [hall, List.map_id] at hread
  exact hread

/-! ## values -/

theorem string_writes {num tag : ℕ} {x : Member M String} {m : M} (htag : tag < 2 ^ 32)
    (hs : Short (x.get m)) :
    Appends pb frames ((stringField pb num tag x).encode m) (stringBytes tag (x.get m)) :=
  scalar_writes hpb htag fun _ => hpb.string _ hs

theorem string_reads (c : Codec pb M) {num tag : ℕ} {x : Member M String} (i : ℕ)
    (hf : c.fields[i]? = some (stringField pb num tag x)) (htag : tag < 2 ^ 32 ∧ tag / 8 = num)
    {dst : M} (hdst : x.get dst = "") {s : String} (hs : Short s) :
    Chain c.decodeField dst (stringBytes tag s) (.ok (x.set dst s)) :=
  scalar_reads hpb hf htag hdst (r := .ok s) (congrArg _) fun _ => hpb.readString s hs

theorem bytes_writes {num tag : ℕ} {x : Member M (List UInt8)} {m : M} (htag : tag < 2 ^ 32)
    (hbs : (x.get m).length < 2 ^ 32) :
    Appends pb frames ((bytesField pb num tag x).encode m) (fieldBytes tag [] delimited (x.get m)) :=
  scalar_writes hpb htag fun _ => hpb.bytes _ hbs

theorem bytes_reads (c : Codec pb M) {num tag : ℕ} {x : Member M (List UInt8)} (i : ℕ)
    (hf : c.fields[i]? = some (bytesField pb num tag x)) (htag : tag < 2 ^ 32 ∧ tag / 8 = num)
    {dst : M} (hdst : x.get dst = []) {bs : List UInt8} (hbs : bs.length < 2 ^ 32) :
    Chain c.decodeField dst (fieldBytes tag [] delimited bs) (.ok (x.set dst bs)) :=
  scalar_reads hpb hf htag hdst (r := .ok bs) (congrArg _) fun _ => hpb.readBytes bs hbs

theorem bool_writes {num tag : ℕ} {x : Member M Bool} {m : M} (htag : tag < 2 ^ 32) :
    Appends pb frames ((boolField pb num tag x).encode m)
      (fieldBytes tag false (fun b => [if b then 1 else 0]) (x.get m)) :=
  scalar_writes hpb htag fun _ => hpb.bool _

theorem bool_reads (c : Codec pb M) {num tag : ℕ} {x : Member M Bool} (i : ℕ)
    (hf : c.fields[i]? = some (boolField pb num tag x)) (htag : tag < 2 ^ 32 ∧ tag / 8 = num)
    {dst : M} (hdst : x.get dst = false) (b : Bool) :
    Chain c.decodeField dst (fieldBytes tag false (fun b => [if b then 1 else 0]) b)
      (.ok (x.set dst b)) :=
  scalar_reads hpb hf htag hdst (r := .ok b) (congrArg _) fun _ => hpb.readBool b

theorem int64_writes {num tag : ℕ} {x : Member M ℤ} {m : M} (htag : tag < 2 ^ 32)
    (hn : Safe (x.get m)) :
    Appends pb frames ((int64Field pb num tag x).encode m) (numberBytes tag (x.get m)) :=
  scalar_writes hpb htag fun _ => hpb.int64 _ hn

theorem int64_reads (c : Codec pb M) {num tag : ℕ} {x : Member M ℤ} (i : ℕ)
    (hf : c.fields[i]? = some (int64Field pb num tag x)) (htag : tag < 2 ^ 32 ∧ tag / 8 = num)
    {dst : M} (hdst : x.get dst = 0) {n : ℤ} (hn : -2 ^ 63 ≤ n ∧ n < 2 ^ 63) :
    Chain c.decodeField dst (numberBytes tag n) ((longToNumber n).map (x.set dst)) := by
  refine scalar_reads hpb hf htag hdst (fun h0 => ?_) fun _ => ?_
  · rw [h0]
    exact longToNumber_zero
  · have hr := hpb.readInt64 (word n) (word_lt n)
    rw [bmod_word hn] at hr
    exact long_reads hr

theorem uint64_writes {num tag : ℕ} {x : Member M ℤ} {m : M} (htag : tag < 2 ^ 32)
    (hn : Safe (x.get m)) (h0 : 0 ≤ x.get m) :
    Appends pb frames ((uint64Field pb num tag x).encode m) (numberBytes tag (x.get m)) :=
  scalar_writes hpb htag fun _ => hpb.uint64 _ hn h0

theorem uint64_reads (c : Codec pb M) {num tag : ℕ} {x : Member M ℤ} (i : ℕ)
    (hf : c.fields[i]? = some (uint64Field pb num tag x)) (htag : tag < 2 ^ 32 ∧ tag / 8 = num)
    {dst : M} (hdst : x.get dst = 0) {n : ℤ} (hn : 0 ≤ n ∧ n < 2 ^ 64) :
    Chain c.decodeField dst (numberBytes tag n) ((longToNumber n).map (x.set dst)) := by
  refine scalar_reads hpb hf htag hdst (fun h0 => ?_) fun _ => ?_
  · rw [h0]
    exact longToNumber_zero
  · have hword : ((word n : ℕ) : ℤ) = n := by
      unfold word
      omega
    have hr := hpb.readUint64 (word n) (word_lt n)
    rw [hword] at hr
    exact long_reads hr

/-! ## messages in messages -/

theorem reads_message {c : Codec pb N} {bs : List UInt8} {r : Js N}
    (h : Chain c.decodeField c.createBase bs r) (hlen : bs.length < 2 ^ 32) :
    Reads (readMessage c) (delimited bs) r :=
  (hpb.readUint32 _ _ (uint32_encode hlen)).bind fun pre post => h.reads "no progress" pre post

theorem message_writes [DecidableEq N] {num tag : ℕ} {x : Member M (Option N)} {m : M}
    {c : Codec pb N} {wire : N → List UInt8} (htag : tag < 2 ^ 32)
    (h : ∀ v ∈ x.get m, Appends pb frames (c.encode v) (wire v) ∧ (wire v).length < 2 ^ 32) :
    Appends pb frames ((messageField num tag x c).encode m) (messageBytes tag wire (x.get m)) := by
  refine scalar_writes hpb htag fun hm => ?_
  obtain ⟨v, hv⟩ := Option.ne_none_iff_exists'.mp hm
  obtain ⟨hw, hlen⟩ := h v hv
  rw [hv]
  exact hpb.nested hw hlen

/-- a message that is there fails as a whole when its own loop fails -/
theorem message_reads [DecidableEq N] (c : Codec pb M) {num tag : ℕ} {x : Member M (Option N)} {c' : Codec pb N}
    {wire : N → List UInt8} (i : ℕ) (hf : c.fields[i]? = some (messageField num tag x c'))
    (htag : tag < 2 ^ 32 ∧ tag / 8 = num) {dst : M} (hdst : x.get dst = none) {v : Option N}
    {r : N → Js N} (h : ∀ n ∈ v, Chain c'.decodeField c'.createBase (wire n) (r n) ∧
      (wire n).length < 2 ^ 32) :
    Chain c.decodeField dst (messageBytes tag wire v) ((v.mapM r).map (x.set dst)) := by
  refine scalar_reads hpb hf htag hdst (fun hv => ?_) fun hv => ?_
  · rw [hv]
    rfl
  · obtain ⟨n, rfl⟩ := Option.ne_none_iff_exists'.mp hv
    obtain ⟨hchain, hlen⟩ := h n rfl
    exact (reads_message hpb hchain hlen).map some

theorem message_reads_ok [DecidableEq N] (c : Codec pb M) {num tag : ℕ} {x : Member M (Option N)}
    {c' : Codec pb N} {wire : N → List UInt8} (i : ℕ)
    (hf : c.fields[i]? = some (messageField num tag x c')) (htag : tag < 2 ^ 32 ∧ tag / 8 = num)
    {dst : M} (hdst : x.get dst = none) {v : Option N}
    (h : ∀ n ∈ v, Chain c'.decodeField c'.createBase (wire n) (.ok n) ∧ (wire n).length < 2 ^ 32) :
    Chain c.decodeField dst (messageBytes tag wire v) (.ok (x.set dst v)) := by
  have hread := message_reads hpb c i hf htag hdst (r := fun n => .ok n) h
  cases v with
  | none => exact hread
  | some n => exact hread

theorem messages_writes {num tag : ℕ} {x : Member M (List N)} {m : M} {c : Codec pb N}
    {wire : N → List UInt8} (htag : tag < 2 ^ 32)
    (h : ∀ v ∈ x.get m, Appends pb frames (c.encode v) (wire v) ∧ (wire v).length < 2 ^ 32) :
    Appends pb frames ((messagesField num tag x c).encode m)
      (repeatedBytes tag (fun v => delimited (wire v)) (x.get m)) :=
  repeated_writes hpb htag fun v hv => hpb.nested (h v hv).1 (h v hv).2

theorem messages_reads (c : Codec pb M) {num tag : ℕ} {x : Member M (List N)} {c' : Codec pb N}
    {wire : N → List UInt8} (i : ℕ) (hf : c.fields[i]? = some (messagesField num tag x c'))
    (htag : tag < 2 ^ 32 ∧ tag / 8 = num) (dst : M) {vs : List N} {r : N → Js N}
    (h : ∀ n ∈ vs, Chain c'.decodeField c'.createBase (wire n) (r n) ∧ (wire n).length < 2 ^ 32) :
    Chain c.decodeField dst (repeatedBytes tag (fun v => delimited (wire v)) vs)
      ((vs.mapM r).map fun ws => x.set dst (x.get dst ++ ws)) :=
  repeated_reads hpb hf htag (fun n hn => reads_message hpb (h n hn).1 (h n hn).2) dst

end

/-! ## whole messages -/

/-- what a chain of passes makes of an array -/
theorem decodeBytes_chain {bs : List UInt8} {r : Js M} (h : Chain c.decodeField c.createBase bs r) :
    c.decodeBytes bs = r := by
  have hreads := h.reads "no progress" [] []
  simp only [List.nil_append, List.append_nil, List.length_nil, Nat.zero_add] at hreads
  show ((readUpTo "no progress" bs.length c.decodeField c.createBase).run ⟨bs, 0⟩ >>= fun r => .ok r.1) = r
  rw [hreads]
  cases r with
  | ok a => rfl
  | error e => rfl

theorem encodeBytes_writes (hpb : Documented pb frames) {m : M} {bs : List UInt8}
    (h : Appends pb frames (c.encode m) bs) : c.encodeBytes m = bs := by
  have hw := h pb.create [] [] hpb.create
  rw [List.nil_append] at hw
  exact hpb.finish _ _ hw

end

end MeChain.Client
