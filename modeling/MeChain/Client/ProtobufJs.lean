import MeChain.Lib.Cursor
import MeChain.Lib.Varint
import MeChain.Sdk

/-!
# protobufjs

The client writes and reads its messages with a package, here a parameter: `ProtobufJs` has the
methods the generated code calls, and `Documented` says what they do with the numbers, strings and
bytes the wire format knows.

* `Documented`     a writer appends the encoding of a value, a reader takes it off again;
* `longToNumber`   the conversion of 64-bit integers, which refuses what a number cannot hold;
* `listJs`         a package on lists that does what is documented.

A number is an integer here.  A writer is observed through its frames: what was written so far in the
innermost `fork`, then what had been written around it.
-/

namespace MeChain.Client
open Cursor Varint

/-- the outcome of client code: a value, or what was thrown -/
abbrev Js := Except String

abbrev Reading (α : Type) := Cursor.Reading String UInt8 α

structure ProtobufJs where
  Writer : Type
  create : Writer
  uint32 : ℕ → Writer → Writer
  string : String → Writer → Writer
  bytes : List UInt8 → Writer → Writer
  int64 : ℤ → Writer → Writer
  uint64 : ℤ → Writer → Writer
  bool : Bool → Writer → Writer
  fork : Writer → Writer
  ldelim : Writer → Writer
  finish : Writer → List UInt8
  readUint32 : Reading ℕ
  readString : Reading String
  readBytes : Reading (List UInt8)
  readInt64 : Reading ℤ
  readUint64 : Reading ℤ
  readBool : Reading Bool
  skipType : ℕ → Reading Unit

/-! ## numbers -/

/-- `Number.MAX_SAFE_INTEGER` -/
def maxSafeInteger : ℤ := 2 ^ 53 - 1

/-- `Long.toNumber`: of more than 53 bits the highest 53 stay, rounded to nearest, ties to even -/
def toNumber (long : ℤ) : ℤ :=
  let lost := long.natAbs.size - 53
  let high := long.natAbs / 2 ^ lost
  let low := long.natAbs % 2 ^ lost
  let up := 2 ^ lost < 2 * low ∨ 2 ^ lost = 2 * low ∧ high % 2 = 1
  long.sign * ((if up then high + 1 else high) * 2 ^ lost : ℕ)

def longToNumber (long : ℤ) : Js ℤ :=
  if maxSafeInteger < long then .error "Value is larger than Number.MAX_SAFE_INTEGER"
  else .ok (toNumber long)

/-- an integer that a number holds without loss -/
def Safe (n : ℤ) : Prop := -maxSafeInteger ≤ n ∧ n ≤ maxSafeInteger

instance (n : ℤ) : Decidable (Safe n) := inferInstanceAs (Decidable (_ ∧ _))

theorem toNumber_safe {n : ℤ} (h : Safe n) : toNumber n = n := by
  unfold Safe maxSafeInteger at h
  have hsize : n.natAbs.size ≤ 53 := by
    rw [Nat.size_le]
    omega
  have hlost : n.natAbs.size - 53 = 0 := by omega
  simp [toNumber, hlost, Nat.mod_one, Int.sign_mul_abs]

theorem longToNumber_safe {n : ℤ} (h : Safe n) : longToNumber n = .ok n := by
  rw [longToNumber, if_neg (by unfold Safe at h; omega), toNumber_safe h]

/-- the 64 bits of an integer, two's complement -/
def word (n : ℤ) : ℕ := (n % 2 ^ 64).toNat

theorem word_lt (n : ℤ) : word n < 2 ^ 64 := by
  unfold word
  omega

theorem bmod_word {n : ℤ} (h : -2 ^ 63 ≤ n ∧ n < 2 ^ 63) : ((word n : ℕ) : ℤ).bmod (2 ^ 64) = n := by
  have hn : ((word n : ℕ) : ℤ) = n % ((2 ^ 64 : ℕ) : ℤ) := by
    unfold word
    omega
  rw [hn, Int.emod_bmod, Int.bmod_eq_of_le] <;> omega

/-! ## what is documented -/

/-- A number of 32 bits in at most five bytes: a longer spelling `uint32` takes for one of ten bytes. -/
def Uint32 (bs : List UInt8) (v : ℕ) : Prop := Spells bs v ∧ v < 2 ^ 32 ∧ bs.length ≤ 5

theorem uint32_encode {v : ℕ} (h : v < 2 ^ 32) : Uint32 (encode v) v :=
  ⟨spells_encode v, h, (length_encode_le_iff v 4).mpr (by omega)⟩

/-- the payload of a field that `skipType` passes over; that of a group is its fields and the end tag -/
inductive Skippable : ℕ → List UInt8 → Prop
  | varint {bs : List UInt8} {v : ℕ} : Spells bs v → bs.length ≤ 10 → Skippable 0 bs
  | fixed64 {bs : List UInt8} : bs.length = 8 → Skippable 1 bs
  | bytes {ls bs : List UInt8} : Uint32 ls bs.length → Skippable 2 (ls ++ bs)
  | endGroup {ks : List UInt8} {tag : ℕ} : Uint32 ks tag → tag % 8 = 4 → Skippable 3 ks
  | inGroup {ks payload rest : List UInt8} {tag : ℕ} : Uint32 ks tag → Skippable (tag % 8) payload →
      Skippable 3 rest → Skippable 3 (ks ++ (payload ++ rest))
  | fixed32 {bs : List UInt8} : bs.length = 4 → Skippable 5 bs

theorem Skippable.not_end {payload : List UInt8} : ¬ Skippable 4 payload := by
  rintro ⟨⟩

/-- bytes behind their length -/
def delimited (bs : List UInt8) : List UInt8 := encode bs.length ++ bs

section
variable (pb : ProtobufJs) (frames : pb.Writer → List (List UInt8))

/-- what a method adds to the innermost frame -/
def Appends (method : pb.Writer → pb.Writer) (bs : List UInt8) : Prop :=
  ∀ writer top rest, frames writer = top :: rest → frames (method writer) = (top ++ bs) :: rest

structure Documented : Prop where
  create : frames pb.create = [[]]
  uint32 : ∀ v < 2 ^ 32, Appends pb frames (pb.uint32 v) (encode v)
  string : ∀ s, (utf8 s).length < 2 ^ 32 → Appends pb frames (pb.string s) (delimited (utf8 s))
  bytes : ∀ bs, bs.length < 2 ^ 32 → Appends pb frames (pb.bytes bs) (delimited bs)
  int64 : ∀ n, Safe n → Appends pb frames (pb.int64 n) (encode (word n))
  uint64 : ∀ n, Safe n → 0 ≤ n → Appends pb frames (pb.uint64 n) (encode (word n))
  bool : ∀ b, Appends pb frames (pb.bool b) [if b then 1 else 0]
  fork : ∀ writer, frames (pb.fork writer) = [] :: frames writer
  ldelim : ∀ writer inner top rest, frames writer = inner :: top :: rest → inner.length < 2 ^ 32 →
    frames (pb.ldelim writer) = (top ++ delimited inner) :: rest
  finish : ∀ writer top, frames writer = [top] → pb.finish writer = top
  readUint32 : ∀ bs v, Uint32 bs v → Reads pb.readUint32 bs (.ok v)
  readString : ∀ s, (utf8 s).length < 2 ^ 32 → Reads pb.readString (delimited (utf8 s)) (.ok s)
  readBytes : ∀ bs, bs.length < 2 ^ 32 → Reads pb.readBytes (delimited bs) (.ok bs)
  readInt64 : ∀ v < 2 ^ 64, Reads pb.readInt64 (encode v) (.ok ((v : ℤ).bmod (2 ^ 64)))
  readUint64 : ∀ v < 2 ^ 64, Reads pb.readUint64 (encode v) (.ok (v : ℤ))
  readBool : ∀ b : Bool, Reads pb.readBool [if b then 1 else 0] (.ok b)
  skipType : ∀ t bs, Skippable t bs → Reads (pb.skipType t) bs (.ok ())

variable {pb frames}

theorem Appends.comp {f g : pb.Writer → pb.Writer} {as bs : List UInt8} (hf : Appends pb frames f as)
    (hg : Appends pb frames g bs) : Appends pb frames (fun writer => g (f writer)) (as ++ bs) := by
  intro writer top rest h
  rw [hg _ _ _ (hf _ _ _ h), List.append_assoc]

theorem Appends.id : Appends pb frames (fun writer => writer) [] := by
  intro writer top rest h
  rw [h, List.append_nil]

/-- a message between `fork` and `ldelim` is written behind its length -/
theorem Documented.nested (hpb : Documented pb frames) {method : pb.Writer → pb.Writer}
    {bs : List UInt8} (hm : Appends pb frames method bs) (hlen : bs.length < 2 ^ 32) :
    Appends pb frames (fun writer => pb.ldelim (method (pb.fork writer))) (delimited bs) := by
  intro writer top rest h
  have hinner := hm (pb.fork writer) [] (top :: rest) (by rw [hpb.fork, h])
  rw [List.nil_append] at hinner
  exact hpb.ldelim _ _ _ _ hinner hlen

end

/-! ## a package on lists -/

namespace listJs

abbrev Writer := List (List UInt8)

def append (bs : List UInt8) : Writer → Writer
  | [] => [bs]
  | top :: rest => (top ++ bs) :: rest

/-- an action that looks at what lies ahead: the value at the front and the bytes it takes -/
def ahead {α : Type} (f : List UInt8 → Option (α × ℕ)) : Reading α := fun reader =>
  match f (reader.buf.drop reader.pos) with
  | some (a, n) => .ok (a, ⟨reader.buf, reader.pos + n⟩)
  | none => .error "index out of range"

def skipBytes (n : ℕ) (bs : List UInt8) : Option (Unit × ℕ) := if bs.length < n then none else some ((), n)

def takeDelimited (bs : List UInt8) : Option (List UInt8 × ℕ) := do
  let (n, k) ← decode bs
  if (bs.drop k).length < n then none else some ((bs.drop k).take n, k + n)

theorem reads_ahead {α : Type} {f : List UInt8 → Option (α × ℕ)} {bs : List UInt8} {a : α}
    (h : ∀ post, f (bs ++ post) = some (a, bs.length)) : Reads (ahead f) bs (.ok a) := by
  intro pre post
  show ahead f ⟨pre ++ (bs ++ post), pre.length⟩ = _
  rw [ahead, List.drop_left, h]
  rfl

theorem decode_encode (v : ℕ) (post : List UInt8) :
    decode (encode v ++ post) = some (v, (encode v).length) := (spells_encode v).decode_append post

theorem takeDelimited_append (bs post : List UInt8) :
    takeDelimited (delimited bs ++ post) = some (bs, (delimited bs).length) := by
  unfold takeDelimited delimited
  rw [List.append_assoc, decode_encode]
  simp

def takeString (bs : List UInt8) : Option (String × ℕ) := do
  let (s, n) ← takeDelimited bs
  let text ← String.fromUTF8? ⟨s.toArray⟩
  some (text, n)

theorem takeString_append (s : String) (post : List UInt8) :
    takeString (delimited (utf8 s) ++ post) = some (s, (delimited (utf8 s)).length) := by
  have htext : String.fromUTF8? ⟨(utf8 s).toArray⟩ = some s := by
    rw [utf8, Array.toArray_toList]
    exact dif_pos s.isValidUTF8
  unfold takeString
  rw [takeDelimited_append]
  show (String.fromUTF8? ⟨(utf8 s).toArray⟩ >>= fun text => some (text, _)) = _
  rw [htext]
  rfl

theorem skipBytes_append (bs post : List UInt8) :
    skipBytes bs.length (bs ++ post) = some ((), bs.length) := by
  rw [skipBytes, if_neg (by simp)]

theorem reads_decode {α : Type} (v : ℕ) (g : ℕ → α) :
    Reads (ahead fun bs => (decode bs).map fun r => (g r.1, r.2)) (encode v) (.ok (g v)) := by
  refine reads_ahead fun post => ?_
  rw [decode_encode]
  rfl

/-- the length of a payload; `fuel` bounds how deep groups are -/
def skipped : ℕ → ℕ → List UInt8 → Option ℕ
  | 0, _, _ => none
  | _ + 1, 0, bs => (decode bs).map Prod.snd
  | _ + 1, 1, bs => (skipBytes 8 bs).map Prod.snd
  | _ + 1, 2, bs => (takeDelimited bs).map Prod.snd
  | fuel + 1, 3, bs => do
    let (tag, k) ← decode bs
    if tag % 8 = 4 then some k
    else do
      let n ← skipped fuel (tag % 8) (bs.drop k)
      let m ← skipped fuel 3 (bs.drop (k + n))
      some (k + (n + m))
  | _ + 1, 5, bs => (skipBytes 4 bs).map Prod.snd
  | _, _, _ => none

theorem skipped_group {fuel k tag n m : ℕ} {bs : List UInt8} (hk : decode bs = some (tag, k))
    (htag : tag % 8 ≠ 4) (hn : skipped fuel (tag % 8) (bs.drop k) = some n)
    (hm : skipped fuel 3 (bs.drop (k + n)) = some m) :
    skipped (fuel + 1) 3 bs = some (k + (n + m)) := by
  simp [skipped, hk, htag, hn, hm]

theorem skipped_append {t : ℕ} {bs : List UInt8} (h : Skippable t bs) (post : List UInt8) {fuel : ℕ}
    (hfuel : bs.length < fuel) : skipped fuel t (bs ++ post) = some bs.length := by
  induction h generalizing post fuel with
  | varint hv _ =>
    obtain ⟨fuel, rfl⟩ := Nat.exists_eq_add_one_of_ne_zero (Nat.ne_zero_of_lt hfuel)
    rw [skipped, hv.decode_append]
    rfl
  | fixed64 hb =>
    obtain ⟨fuel, rfl⟩ := Nat.exists_eq_add_one_of_ne_zero (Nat.ne_zero_of_lt hfuel)
    rw [skipped, ← hb, skipBytes_append]
    rfl
  | @bytes ls bs hl =>
    obtain ⟨fuel, rfl⟩ := Nat.exists_eq_add_one_of_ne_zero (Nat.ne_zero_of_lt hfuel)
    rw [skipped, takeDelimited, List.append_assoc, hl.1.decode_append]
    simp
  | endGroup hk htag =>
    obtain ⟨fuel, rfl⟩ := Nat.exists_eq_add_one_of_ne_zero (Nat.ne_zero_of_lt hfuel)
    simp [skipped, hk.1.decode_append, htag]
  | @inGroup ks payload rest tag hk hp _ ihp ihr =>
    obtain ⟨fuel, rfl⟩ := Nat.exists_eq_add_one_of_ne_zero (Nat.ne_zero_of_lt hfuel)
    have hpos := hk.1.length_pos
    rw [List.length_append, List.length_append] at hfuel ⊢
    have htag : tag % 8 ≠ 4 := by
      intro he
      rw [he] at hp
      exact hp.not_end
    have hsplit : ks ++ (payload ++ rest) ++ post = ks ++ (payload ++ (rest ++ post)) := by
      simp only [List.append_assoc]
    have hkey : decode (ks ++ (payload ++ rest) ++ post) = some (tag, ks.length) := by
      rw [hsplit, hk.1.decode_append]
    refine skipped_group hkey htag ?_ ?_
    · rw [hsplit, List.drop_left]
      exact ihp (rest ++ post) (by omega)
    · rw [hsplit, ← List.append_assoc, ← List.length_append, List.drop_left]
      exact ihr post (by omega)
  | fixed32 hb =>
    obtain ⟨fuel, rfl⟩ := Nat.exists_eq_add_one_of_ne_zero (Nat.ne_zero_of_lt hfuel)
    rw [skipped, ← hb, skipBytes_append]
    rfl

theorem appends (bs : List UInt8) (writer : Writer) (top : List UInt8) (rest : List (List UInt8))
    (h : writer = top :: rest) : append bs writer = (top ++ bs) :: rest := by
  rw [h, append]

end listJs

open listJs in
def listJs : ProtobufJs where
  Writer := listJs.Writer
  create := [[]]
  uint32 v := append (encode v)
  string s := append (delimited (utf8 s))
  bytes bs := append (delimited bs)
  int64 n := append (encode (word n))
  uint64 n := append (encode (word n))
  bool b := append [if b then 1 else 0]
  fork writer := [] :: writer
  ldelim
    | inner :: top :: rest => (top ++ delimited inner) :: rest
    | writer => writer
  finish
    | top :: _ => top
    | [] => []
  readUint32 := ahead decode
  readString := ahead takeString
  readBytes := ahead takeDelimited
  readInt64 := ahead fun bs => (decode bs).map fun r => ((r.1 : ℤ).bmod (2 ^ 64), r.2)
  readUint64 := ahead fun bs => (decode bs).map fun r => ((r.1 : ℤ), r.2)
  readBool := ahead fun bs => (decode bs).map fun r => (decide (r.1 ≠ 0), r.2)
  skipType t := ahead fun bs => (skipped (bs.length + 1) t bs).map fun n => ((), n)

open listJs in
theorem listJs_documented : Documented listJs (fun writer => writer) where
  create := rfl
  uint32 _ _ := appends _
  string _ _ := appends _
  bytes _ _ := appends _
  int64 _ _ := appends _
  uint64 _ _ _ := appends _
  bool _ := appends _
  fork _ := rfl
  ldelim writer inner top rest h _ := by
    subst h
    rfl
  finish writer top h := by
    subst h
    rfl
  readUint32 bs v h := reads_ahead fun post => h.1.decode_append post
  readString s _ := reads_ahead fun post => takeString_append s post
  readBytes bs _ := reads_ahead fun post => takeDelimited_append bs post
  readInt64 v _ := reads_decode v fun v => (v : ℤ).bmod (2 ^ 64)
  readUint64 v _ := reads_decode v fun v => (v : ℤ)
  readBool b := by
    cases b with
    | false =>
      have h := reads_decode 0 fun v => decide (v ≠ 0)
      rwa [encode_small (by decide)] at h
    | true =>
      have h := reads_decode 1 fun v => decide (v ≠ 0)
      rwa [encode_small (by decide)] at h
  skipType t bs h := by
    show Reads (ahead fun bs => (skipped (bs.length + 1) t bs).map fun n => ((), n)) bs (.ok ())
    refine reads_ahead fun post => ?_
    rw [skipped_append h post (by rw [List.length_append]; omega)]
    rfl

end MeChain.Client
