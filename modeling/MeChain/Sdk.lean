import Mathlib.Algebra.Order.Ring.Int
import Mathlib.Algebra.BigOperators.Group.List.Basic
import Mathlib.Algebra.Order.BigOperators.Group.List
import Mathlib.Tactic.NormNum
import Mathlib.Tactic.Ring
import MeChain.Lib.Fallible

/-!
# What the program takes from the SDK: results, numbers, coins, addresses

* `Res`          the outcome of a Go call: a value, a returned error, or a panic;
* `SdkInt`       the 256-bit integers of `math.Int`, whose operations panic when they overflow;
* `Dec`          the decimals of `math.LegacyDec` (18 digits, 315 bits), stored as their numerator;
* `Coins`        coin lists as the SDK passes them around, with `IsValid` and `AmountOf`;
* `SdkAddress`   the address functions (bech32, module addresses, addresses of keys).

The address type is a parameter: the development holds for every address type with these functions.
-/

set_option linter.unusedSectionVars false

namespace MeChain

/-! ## results -/

/-- the root errors the program and the keepers it calls return -/
inductive ErrKind where
  | txDecode
  | invalidGasLimit
  | insufficientFee
  | invalidRequest
  | unauthorized
  | invalidCoins
  | insufficientFunds
  | invalidAddress
  | inputOutputMismatch
  | logic
  | other
deriving DecidableEq, Repr

structure Error where
  kind : ErrKind
  msg : String
deriving DecidableEq, Repr

/-- how a Go call can fail to return a value -/
inductive Abort where
  | error (e : Error)
  | panic (msg : String)
deriving DecidableEq, Repr

abbrev Res := Except Abort

def goError {α : Type} (kind : ErrKind) (msg : String) : Res α := .error (.error ⟨kind, msg⟩)

def goPanic {α : Type} (msg : String) : Res α := .error (.panic msg)

def isPanic {α : Type} : Res α → Bool
  | .error (.panic _) => true
  | _ => false

theorem goPanic_of_check {α : Type} {x : Res α} {msg : String}
    (h : (match x with | .error (.panic m) => decide (m = msg) | _ => false) = true) :
    x = goPanic msg := by
  cases x with
  | ok a => cases h
  | error e =>
    cases e with
    | error e => cases h
    | panic m => rw [of_decide_eq_true h]; rfl

/-- `errors.Wrap`: a description in front of an error's own text -/
def wrap {α : Type} (desc : String) : Res α → Res α
  | .error (.error e) => .error (.error ⟨e.kind, desc ++ ": " ++ e.msg⟩)
  | r => r

theorem wrap_ok {α : Type} {desc : String} {x : Res α} {a : α} :
    wrap desc x = .ok a ↔ x = .ok a := by
  cases x with
  | ok b => exact Iff.rfl
  | error e => cases e <;> simp [wrap]

/-- `panic(err)` -/
def panicOnError {α : Type} : Res α → Res α
  | .error (.error e) => goPanic e.msg
  | r => r

theorem panicOnError_ok {α : Type} {x : Res α} {a : α} : panicOnError x = .ok a ↔ x = .ok a := by
  cases x with
  | ok b => exact Iff.rfl
  | error e => cases e <;> simp [panicOnError, goPanic]

/-- a method call on an interface or pointer that may be nil -/
def deref {α : Type} : Option α → Res α
  | some a => .ok a
  | none => goPanic "invalid memory address or nil pointer dereference"

theorem deref_ok {α : Type} {x : Option α} {a : α} : deref x = .ok a ↔ x = some a := by
  cases x with
  | none => simp [deref, goPanic]
  | some b => simp [deref]

/-- the bytes of a string constant -/
def utf8 (s : String) : List UInt8 := s.toByteArray.data.toList

theorem utf8_inj {s t : String} : utf8 s = utf8 t ↔ s = t := by
  constructor
  · intro h
    exact String.toByteArray_inj.mp (ByteArray.ext (Array.toList_inj.mp h))
  · rintro rfl
    rfl

theorem utf8_eq_nil {s : String} : utf8 s = [] ↔ s = "" := by
  have hempty : utf8 "" = [] := rfl
  rw [← hempty, utf8_inj]

/-! ## integers -/

namespace SdkInt

/-- `maxBitLen` -/
def maxBitLen : Nat := 256

def Fits (x : ℤ) : Prop := x.natAbs < 2 ^ maxBitLen

instance (x : ℤ) : Decidable (Fits x) := inferInstanceAs (Decidable (_ < _))

def checked (x : ℤ) : Res ℤ := if Fits x then .ok x else goPanic "Int overflow"

def add (a b : ℤ) : Res ℤ := checked (a + b)
def sub (a b : ℤ) : Res ℤ := checked (a - b)
def mul (a b : ℤ) : Res ℤ := checked (a * b)

theorem checked_ok {x y : ℤ} : checked x = .ok y ↔ Fits x ∧ y = x := by
  unfold checked
  by_cases h : Fits x
  · simp [h, eq_comm]
  · simp [h, goPanic]

theorem add_ok {a b c : ℤ} : add a b = .ok c ↔ Fits (a + b) ∧ c = a + b := checked_ok
theorem sub_ok {a b c : ℤ} : sub a b = .ok c ↔ Fits (a - b) ∧ c = a - b := checked_ok
theorem mul_ok {a b c : ℤ} : mul a b = .ok c ↔ Fits (a * b) ∧ c = a * b := checked_ok

theorem fits_of_le {x y : ℤ} (h0 : 0 ≤ x) (h : x ≤ y) (hy : Fits y) : Fits x := by
  unfold Fits at *
  omega

end SdkInt

/-! ## decimals -/

/-- a decimal with 18 digits after the point, stored times `10 ^ 18` -/
abbrev Dec := ℤ

namespace Dec

def one : Dec := 10 ^ 18

/-- `maxDecBitLen` -/
def maxBitLen : Nat := 315

def Fits (x : ℤ) : Prop := x.natAbs < 2 ^ maxBitLen

instance (x : ℤ) : Decidable (Fits x) := inferInstanceAs (Decidable (_ < _))

def ofInt (n : ℤ) : Dec := n * one

/-- `chopPrecisionAndRound` of a non-negative number: the quotient by `10 ^ 18`, halves to even -/
def chopNat (n : Nat) : Nat :=
  if n % 10 ^ 18 < 5 * 10 ^ 17 then n / 10 ^ 18
  else if 5 * 10 ^ 17 < n % 10 ^ 18 then n / 10 ^ 18 + 1
  else if n / 10 ^ 18 % 2 = 0 then n / 10 ^ 18
  else n / 10 ^ 18 + 1

def chopPrecisionAndRound (x : ℤ) : ℤ :=
  if x < 0 then -(chopNat x.natAbs : ℤ) else (chopNat x.natAbs : ℤ)

def mul (a b : Dec) : Res Dec :=
  if Fits (chopPrecisionAndRound (a * b)) then .ok (chopPrecisionAndRound (a * b))
  else goPanic "Int overflow"

def mulInt (a : Dec) (n : ℤ) : Res Dec := if Fits (a * n) then .ok (a * n) else goPanic "Int overflow"

/-- the integer part, rounded towards zero -/
def truncate (a : Dec) : ℤ := a.tdiv one

/-- `RoundInt`, without its overflow check -/
def roundInt (a : Dec) : ℤ := chopPrecisionAndRound a

/-- `Quo`, without its overflow check -/
def quo (a b : Dec) : Dec := chopPrecisionAndRound ((a * one * one).tdiv b)

def truncateInt (a : Dec) : Res ℤ :=
  if SdkInt.Fits (truncate a) then .ok (truncate a) else goPanic "NewIntFromBigInt() out of bound"

theorem chopNat_mul (n : Nat) : chopNat (n * 10 ^ 18) = n := by
  have hm : n * 10 ^ 18 % 10 ^ 18 = 0 := Nat.mul_mod_left _ _
  have hd : n * 10 ^ 18 / 10 ^ 18 = n := Nat.mul_div_cancel _ (by norm_num)
  unfold chopNat
  rw [hm, hd, if_pos (by norm_num)]

theorem chop_mul_one (x : ℤ) : chopPrecisionAndRound (x * one) = x := by
  have hn : (x * one).natAbs = x.natAbs * 10 ^ 18 := by
    rw [Int.natAbs_mul]
    rfl
  unfold chopPrecisionAndRound
  rw [hn, chopNat_mul]
  have hpos : (0 : ℤ) < one := by decide
  by_cases h : x < 0
  · have h' : x * one < 0 := Int.mul_neg_of_neg_of_pos h hpos
    rw [if_pos h']
    omega
  · have h' : ¬ x * one < 0 := by
      rw [not_lt]
      exact Int.mul_nonneg (by omega) hpos.le
    rw [if_neg h']
    omega

theorem mul_ofInt (a : Dec) (n : ℤ) :
    mul a (ofInt n) = if Fits (n * a) then .ok (n * a) else goPanic "Int overflow" := by
  have h : chopPrecisionAndRound (a * ofInt n) = n * a := by
    rw [ofInt, ← mul_assoc, chop_mul_one, mul_comm]
  unfold mul
  rw [h]

theorem mul_ofInt_ok {a b : Dec} {n : ℤ} :
    mul a (ofInt n) = .ok b ↔ Fits (n * a) ∧ b = n * a := by
  rw [mul_ofInt]
  by_cases h : Fits (n * a)
  · simp [h, eq_comm]
  · simp [h, goPanic]

end Dec

/-! ## coins -/

structure Coin where
  denom : String
  amount : ℤ
deriving DecidableEq, Repr, Inhabited

structure DecCoin where
  denom : String
  amount : Dec
deriving DecidableEq, Repr

abbrev Coins := List Coin
abbrev DecCoins := List DecCoin

def denomChar (c : Char) : Bool :=
  c.isAlphanum || c == '/' || c == ':' || c == '.' || c == '_' || c == '-'

/-- `ValidateDenom`: a letter followed by 2 to 127 characters out of `[a-zA-Z0-9/:._-]` -/
def validDenom (s : String) : Bool :=
  match s.toList with
  | [] => false
  | c :: cs => c.isAlpha && cs.all denomChar && decide (2 ≤ cs.length ∧ cs.length ≤ 127)

/-- `sdk.NewCoin` -/
def newCoin (denom : String) (amount : ℤ) : Res Coin :=
  if validDenom denom = true ∧ 0 ≤ amount then .ok ⟨denom, amount⟩ else goPanic "invalid coin"

theorem newCoin_ok {denom : String} {amount : ℤ} {c : Coin} :
    newCoin denom amount = .ok c ↔
      (validDenom denom = true ∧ 0 ≤ amount) ∧ c = ⟨denom, amount⟩ := by
  unfold newCoin
  by_cases h : validDenom denom = true ∧ 0 ≤ amount
  · simp [h, eq_comm]
  · rw [if_neg h]
    exact iff_of_false (by simp [goPanic]) (fun hc => h hc.1)

/-- the base denomination of the chain, `sdk.BaseMEDenom` -/
def baseMEDenom : String := "umec"

namespace Coins

/-- `Coins.IsValid`: sorted by denomination, no denomination twice, positive amounts -/
def IsValid (cs : Coins) : Prop :=
  (∀ c ∈ cs, validDenom c.denom = true ∧ 0 < c.amount) ∧
    cs.Pairwise (fun a b => a.denom < b.denom)

instance (cs : Coins) : Decidable cs.IsValid := inferInstanceAs (Decidable (_ ∧ _))

def IsZero (cs : Coins) : Prop := ∀ c ∈ cs, c.amount = 0

instance (cs : Coins) : Decidable cs.IsZero := inferInstanceAs (Decidable (∀ c ∈ cs, _))

/-- the amount of one denomination in a coin list -/
def amountOf (cs : Coins) (d : String) : ℤ :=
  (cs.map (fun c => if c.denom = d then c.amount else 0)).sum

/-- `Coins.String` -/
def str (cs : Coins) : String :=
  String.intercalate "," (cs.map fun c => toString c.amount ++ c.denom)

@[simp] theorem amountOf_nil (d : String) : amountOf [] d = 0 := rfl

@[simp] theorem amountOf_cons (c : Coin) (cs : Coins) (d : String) :
    amountOf (c :: cs) d = (if c.denom = d then c.amount else 0) + amountOf cs d := by
  simp [amountOf]

theorem amountOf_of_isZero {cs : Coins} (h : cs.IsZero) (d : String) : amountOf cs d = 0 := by
  induction cs with
  | nil => rfl
  | cons c cs ih =>
    rw [amountOf_cons, ih (fun x hx => h x (List.mem_cons_of_mem _ hx)),
      h c (List.mem_cons_self ..)]
    simp

theorem amountOf_eq_zero {cs : Coins} {d : String} (h : d ∉ cs.map Coin.denom) :
    amountOf cs d = 0 := by
  induction cs with
  | nil => rfl
  | cons c cs ih =>
    rw [List.map_cons, List.mem_cons, not_or] at h
    rw [amountOf_cons, ih h.2, if_neg (Ne.symm h.1), add_zero]

theorem amountOf_nonneg {cs : Coins} (h : ∀ c ∈ cs, 0 ≤ c.amount) (d : String) :
    0 ≤ amountOf cs d := by
  refine List.sum_nonneg (fun x hx => ?_)
  obtain ⟨c, hc, rfl⟩ := List.mem_map.mp hx
  have hc0 := h c hc
  split
  · exact hc0
  · exact le_rfl

theorem le_amountOf {cs : Coins} (h : ∀ c ∈ cs, 0 ≤ c.amount) {c : Coin} (hc : c ∈ cs) :
    c.amount ≤ amountOf cs c.denom := by
  induction cs with
  | nil => cases hc
  | cons a cs ih =>
    have hrest := amountOf_nonneg (fun x hx => h x (List.mem_cons_of_mem _ hx)) c.denom
    have ha := h a (List.mem_cons_self ..)
    rw [amountOf_cons]
    rcases List.mem_cons.mp hc with rfl | hc
    · rw [if_pos rfl]
      omega
    · have hle := ih (fun x hx => h x (List.mem_cons_of_mem _ hx)) hc
      split <;> omega

theorem amountOf_of_mem {cs : Coins} (hn : (cs.map Coin.denom).Nodup) {c : Coin} (hc : c ∈ cs) :
    amountOf cs c.denom = c.amount := by
  induction cs with
  | nil => cases hc
  | cons a cs ih =>
    rw [List.map_cons, List.nodup_cons] at hn
    rw [amountOf_cons]
    rcases List.mem_cons.mp hc with rfl | hc
    · rw [if_pos rfl, amountOf_eq_zero hn.1, add_zero]
    · have hne : a.denom ≠ c.denom := fun e => hn.1 (e ▸ List.mem_map_of_mem hc)
      rw [if_neg hne, ih hn.2 hc, zero_add]

theorem amountOf_map_mul (cs : Coins) (k : ℤ) (d : String) :
    amountOf (cs.map fun c => { c with amount := k * c.amount }) d = k * amountOf cs d := by
  induction cs with
  | nil => simp
  | cons c cs ih =>
    rw [List.map_cons, amountOf_cons, amountOf_cons, ih]
    split <;> ring

end Coins

def DecCoins.amountOf (cs : DecCoins) (d : String) : Dec :=
  (cs.map (fun c => if c.denom = d then c.amount else 0)).sum

/-! ## addresses -/

/-- a public key, by its bytes -/
abbrev PubKey := String

/-- the address functions of the SDK: `authtypes.NewModuleAddress`, `sdk.AccAddressFromBech32` and
`MustAccAddressFromBech32`, `AccAddress.String`, and the address `pk.Address()` of a key.  The
program applies the `Must` function to constants only, all of them well-formed. -/
class SdkAddress (Addr : Type) where
  newModuleAddress : String → Addr
  accAddressFromBech32 : String → Except Error Addr
  mustAccAddressFromBech32 : String → Addr
  str : Addr → String
  pubKeyAddress : PubKey → Addr
  fromBech32_str : ∀ a, accAddressFromBech32 (str a) = .ok a

export SdkAddress (newModuleAddress accAddressFromBech32 mustAccAddressFromBech32 pubKeyAddress)

/-! ### addresses as their spelling -/

/-- the module addresses of the SDK modules, as the chain prints them -/
def moduleSpellings : List (String × String) :=
  [("fee_collector", "me17xpfvakm2amg962yls6f84z3kell8c5lr2wff2"),
   ("distribution", "me1jv65s3grqf6v6jl3dp4t6c9t9rk99cd85vf4tg"),
   ("mint", "me1m3h30wlvsf8llruxtpukdvsy0km2kum8mz239h"),
   ("bonded_tokens_pool", "me1fl48vsnmsdzcv85q5d2q4z5ajdha8yu3xgyxmq"),
   ("not_bonded_tokens_pool", "me1tygms3xhhs3yv487phx3dw4a95jn7t7ljgchd5"),
   ("bonded_stake_tokens_pool", "me1g920yuxdmqtfxg4w8a0j9sgaazfryr2c4uqhkr"),
   ("stake_tokens_pool", "me1gmpxkchcdgfq995zye5efwzfw86zfa4vcxms9l"),
   ("gov", "me10d07y265gmmuvt4z0w9aw880jnsr700jf37v5y")]

/-- The simplest address type: an address is its bech32 spelling. -/
instance stringAddress : SdkAddress String where
  newModuleAddress name := (moduleSpellings.lookup name).getD ("module/" ++ name)
  accAddressFromBech32 s := .ok s
  mustAccAddressFromBech32 s := s
  str a := a
  pubKeyAddress pk := "address of " ++ pk
  fromBech32_str _ := rfl

/-- a spelling that is not empty; `AccAddressFromBech32` rejects the empty string -/
abbrev Spelling := { s : String // s ≠ "" }

instance spellingAddress : SdkAddress Spelling where
  newModuleAddress name := ⟨"module/" ++ name, by simp⟩
  accAddressFromBech32 s :=
    if h : s ≠ "" then .ok ⟨s, h⟩ else .error ⟨.invalidAddress, "empty address string is not allowed"⟩
  mustAccAddressFromBech32 s := if h : s ≠ "" then ⟨s, h⟩ else ⟨"me", by decide⟩
  str a := a.1
  pubKeyAddress pk := ⟨"address of " ++ pk, by simp⟩
  fromBech32_str a := dif_pos a.2

end MeChain
