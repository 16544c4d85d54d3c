import Mathlib.Data.String.Basic

/-!
# IPv4 addresses in dotted notation

* `IPv4`, `value`      four bytes, and the number of 32 bits they are;
* `ubtoa`, `str`       the decimal form of a byte and the dotted form of an address;
* `dtoi`, `parseIPv4`  reading them;
* `parseIPv4_chars`    what was written is read back, so the dotted form determines the address.
-/

/-- an address, by its bytes -/
structure IPv4 where
  p0 : UInt8
  p1 : UInt8
  p2 : UInt8
  p3 : UInt8
deriving DecidableEq, Repr

namespace IPv4

/-- the address as a number of 32 bits -/
def value (a : IPv4) : Nat :=
  a.p0.toNat * 2 ^ 24 + a.p1.toNat * 2 ^ 16 + a.p2.toNat * 2 ^ 8 + a.p3.toNat

theorem value_mod (a : IPv4) : a.value % 256 = a.p3.toNat := by
  have hlt := a.p3.toNat_lt
  unfold value
  omega

/-! ## writing -/

def digit (k : Nat) : Char := Char.ofNat (48 + k)

/-- the decimal form of a byte -/
def ubtoa (v : UInt8) : List Char :=
  if v.toNat < 10 then [digit v.toNat]
  else if v.toNat < 100 then [digit (v.toNat / 10), digit (v.toNat % 10)]
  else [digit (v.toNat / 100), digit (v.toNat / 10 % 10), digit (v.toNat % 10)]

def chars (a : IPv4) : List Char :=
  ubtoa a.p0 ++ '.' :: (ubtoa a.p1 ++ '.' :: (ubtoa a.p2 ++ '.' :: ubtoa a.p3))

def str (a : IPv4) : String := String.ofList a.chars

/-! ## reading -/

def isDigit (c : Char) : Bool := 48 ≤ c.toNat && c.toNat ≤ 57

/-- the number is `n` and `i` characters are read so far -/
def dtoiFrom (n i : Nat) : List Char → Option (Nat × Nat)
  | [] => some (n, i)
  | c :: s =>
    if isDigit c then
      let n := n * 10 + (c.toNat - 48)
      if 0xFFFFFF ≤ n then none else dtoiFrom n (i + 1) s
    else some (n, i)

/-- decimal to integer: the number, and how many characters it took -/
def dtoi (s : List Char) : Option (Nat × Nat) :=
  match dtoiFrom 0 0 s with
  | none => none
  | some (n, i) => if i = 0 then none else some (n, i)

/-- a byte without leading zeros, and what comes after it -/
def parseOctet (s : List Char) : Option (UInt8 × List Char) :=
  match dtoi s with
  | none => none
  | some (n, c) =>
    if 0xFF < n then none
    else if 1 < c ∧ s.head? = some '0' then none
    else some (UInt8.ofNat n, s.drop c)

def skipDot : List Char → Option (List Char)
  | '.' :: s => some s
  | _ => none

def parseIPv4 (s : List Char) : Option IPv4 := do
  let (p0, s) ← parseOctet s
  let s ← skipDot s
  let (p1, s) ← parseOctet s
  let s ← skipDot s
  let (p2, s) ← parseOctet s
  let s ← skipDot s
  let (p3, s) ← parseOctet s
  if s = [] then some ⟨p0, p1, p2, p3⟩ else none

/-! ## the round trip -/

section
variable {n i k : Nat} {s : List Char} {v : UInt8}

theorem isDigit_digit : ∀ k < 10, isDigit (digit k) = true ∧ (digit k).toNat - 48 = k := by decide

theorem dtoiFrom_digit (hk : k < 10) (hn : n * 10 + k < 0xFFFFFF) :
    dtoiFrom n i (digit k :: s) = dtoiFrom (n * 10 + k) (i + 1) s := by
  obtain ⟨hdigit, hvalue⟩ := isDigit_digit k hk
  show (if isDigit (digit k) then _ else _) = _
  rw [if_pos hdigit]
  show (if 0xFFFFFF ≤ n * 10 + ((digit k).toNat - 48) then _ else _) = _
  rw [hvalue, if_neg (by omega)]

/-- no digit follows -/
def Ends (s : List Char) : Prop := ∀ c ∈ s.head?, isDigit c = false

theorem ends_dot : Ends ('.' :: s) := by
  intro c hc
  cases hc
  decide

theorem ends_nil : Ends [] := fun _ hc => absurd hc (Option.not_mem_none _)

theorem dtoiFrom_ends (h : Ends s) : dtoiFrom n i s = some (n, i) := by
  cases s with
  | nil => rfl
  | cons c s =>
    show (if isDigit c then _ else _) = _
    rw [h c rfl, if_neg Bool.false_ne_true]

theorem dtoi_of_pos (h : dtoiFrom 0 0 s = some (n, i + 1)) : dtoi s = some (n, i + 1) := by
  unfold dtoi
  rw [h]
  exact if_neg (Nat.succ_ne_zero i)

theorem dtoi_ubtoa (h : Ends s) :
    dtoi (ubtoa v ++ s) = some (v.toNat, (ubtoa v).length) := by
  have hv := v.toNat_lt
  unfold ubtoa
  split_ifs with h1 h2
  · refine dtoi_of_pos (i := 0) ?_
    show dtoiFrom 0 0 (digit _ :: s) = _
    rw [dtoiFrom_digit h1 (by omega), dtoiFrom_ends h, Nat.zero_mul, Nat.zero_add]
  · refine dtoi_of_pos (i := 1) ?_
    show dtoiFrom 0 0 (digit _ :: digit _ :: s) = _
    rw [dtoiFrom_digit (by omega) (by omega), dtoiFrom_digit (by omega) (by omega), dtoiFrom_ends h]
    congr 2
    omega
  · refine dtoi_of_pos (i := 2) ?_
    show dtoiFrom 0 0 (digit _ :: digit _ :: digit _ :: s) = _
    rw [dtoiFrom_digit (by omega) (by omega), dtoiFrom_digit (by omega) (by omega),
      dtoiFrom_digit (by omega) (by omega), dtoiFrom_ends h]
    congr 2
    omega

theorem digit_ne_zero : ∀ k < 10, k ≠ 0 → digit k ≠ '0' := by decide

theorem head_ubtoa (h : 1 < (ubtoa v).length) : (ubtoa v ++ s).head? ≠ some '0' := by
  have hv := v.toNat_lt
  unfold ubtoa at h ⊢
  split_ifs at h ⊢ with h1 h2
  · exact absurd h (lt_irrefl 1)
  · exact fun he => digit_ne_zero (v.toNat / 10) (by omega) (by omega) (Option.some.inj he)
  · exact fun he => digit_ne_zero (v.toNat / 100) (by omega) (by omega) (Option.some.inj he)

theorem parseOctet_ubtoa (h : Ends s) : parseOctet (ubtoa v ++ s) = some (v, s) := by
  have hv := v.toNat_lt
  unfold parseOctet
  rw [dtoi_ubtoa h]
  show (if 0xFF < v.toNat then _ else _) = _
  rw [if_neg (by omega), if_neg (fun hc => head_ubtoa hc.1 hc.2), List.drop_left]
  rw [UInt8.ofNat_toNat]

end

/-- **What was written is read back.** -/
theorem parseIPv4_chars (a : IPv4) : parseIPv4 a.chars = some a := by
  have hlast : parseOctet (ubtoa a.p3) = some (a.p3, []) := by
    have h := parseOctet_ubtoa (v := a.p3) ends_nil
    rwa [List.append_nil] at h
  unfold parseIPv4 chars
  rw [parseOctet_ubtoa ends_dot]
  show (parseOctet _).bind _ = _
  rw [parseOctet_ubtoa ends_dot]
  show (parseOctet _).bind _ = _
  rw [parseOctet_ubtoa ends_dot]
  show (parseOctet _).bind _ = _
  rw [hlast]
  rfl

theorem chars_injective {a b : IPv4} (h : a.chars = b.chars) : a = b :=
  Option.some.inj ((parseIPv4_chars a).symm.trans (h ▸ parseIPv4_chars b))

/-- **The dotted form determines the address.** -/
theorem str_injective {a b : IPv4} (h : a.str = b.str) : a = b :=
  chars_injective (String.ofList_injective h)

end IPv4
