import Mathlib.Data.List.Nodup
import MeChain.Lib.Fallible
import MeChain.Lib.IPv4
import MeChain.Sdk

/-!
# The addresses of testnet nodes

`init-files` gives node `i` the starting address with its last byte incremented `i` times.

* `calculateIP`, `getIP`, `testnetAddresses`   the addresses of one node and of all;
* `increments_value`       what the increments do to the value of an address;
* `ConsecutiveAddresses`   the addresses of the nodes follow one another, and no two are the same;
* `consecutiveAddresses_iff`   when they do.
-/

namespace MeChain
open Fallible

/-! ## the code -/

/-- the functions of the network package whose code is not here: the IPv4 address that an IPv6 text
stands for, if it does, and the address of the machine -/
structure NetConfig where
  parseIPv6 : String → Option IPv4
  externalIP : Res String

/-- `net.ParseIP` and `To4`; the first dot or colon decides -/
def parseIP (x : NetConfig) (s : String) : Option IPv4 :=
  match s.toList.find? fun c => c = '.' ∨ c = ':' with
  | none => none
  | some c => if c = '.' then IPv4.parseIPv4 s.toList else x.parseIPv6 s

/-- the loop: a byte goes from 255 to 0 -/
def increments (ipv4 : IPv4) : Nat → IPv4
  | 0 => ipv4
  | j + 1 => { increments ipv4 j with p3 := (increments ipv4 j).p3 + 1 }

def calculateIP (x : NetConfig) (ip : String) (i : Nat) : Res String :=
  match parseIP x ip with
  | none => goError .other s!"{ip}: non ipv4 address"
  | some ipv4 => .ok (increments ipv4 i).str

def getIP (x : NetConfig) (i : Nat) (startingIPAddr : String) : Res String :=
  if startingIPAddr.length = 0 then x.externalIP else calculateIP x startingIPAddr i

/-- the addresses that `initTestnetFiles` puts in front of the ports, node by node -/
def testnetAddresses (x : NetConfig) (startingIPAddress : String) (numValidators : Nat) :
    Res (List String) :=
  (List.range numValidators).mapM fun i => getIP x i startingIPAddress

/-! ## the loop -/

section
variable {x : NetConfig} {start : String} {a b : IPv4} {i j n : Nat}

theorem increments_eq : increments a i = { a with p3 := a.p3 + UInt8.ofNat i } := by
  induction i with
  | zero => simp [increments]
  | succ i ih =>
    rw [increments, ih]
    show IPv4.mk _ _ _ _ = IPv4.mk _ _ _ _
    rw [UInt8.ofNat_add, UInt8.add_assoc]
    rfl

theorem increments_p3 : (increments a i).p3.toNat = (a.p3.toNat + i) % 256 := by
  rw [increments_eq]
  show (a.p3 + UInt8.ofNat i).toNat = _
  rw [UInt8.toNat_add, UInt8.toNat_ofNat']
  omega

/-- the value grows by the number of increments until the byte goes to zero -/
theorem increments_value : (increments a i).value = a.value + i ↔ a.value % 256 + i < 256 := by
  have hlow := increments_p3 (a := a) (i := i)
  have hlt := a.p3.toNat_lt
  rw [increments_eq] at hlow
  rw [IPv4.value_mod, increments_eq]
  unfold IPv4.value
  dsimp only at hlow ⊢
  omega

theorem increments_inj (h : increments a i = increments a j) : i % 256 = j % 256 := by
  have hbyte := congrArg (fun b : IPv4 => b.p3.toNat) h
  rw [increments_p3, increments_p3] at hbyte
  omega

/-! ## the addresses -/

theorem getIP_eq (h : parseIP x start = some a) : getIP x i start = .ok (increments a i).str := by
  have hne : start.length ≠ 0 := by
    intro hzero
    rw [String.length_eq_zero_iff.mp hzero] at h
    cases h
  unfold getIP calculateIP
  rw [if_neg hne, h]

theorem testnetAddresses_eq (h : parseIP x start = some a) :
    testnetAddresses x start n = .ok ((List.range n).map fun i => (increments a i).str) :=
  mapM_of (fun _ _ => getIP_eq h)

/-- As far as there are addresses, node `i` is given the one whose value is `i` more than that of the
starting address `a`, and no two nodes are given the same. -/
structure ConsecutiveAddresses (x : NetConfig) (start : String) (a : IPv4) (n : Nat) : Prop where
  consecutive : ∀ i < n, a.value + i < 2 ^ 32 →
    ∃ b : IPv4, calculateIP x start i = .ok b.str ∧ b.value = a.value + i
  distinct : a.value + n ≤ 2 ^ 32 →
    ∃ ips, testnetAddresses x start n = .ok ips ∧ ips.length = n ∧ ips.Nodup

/-- a node gets the right address as long as the last byte does not go to zero -/
theorem calculateIP_value (h : parseIP x start = some a) :
    (∃ b : IPv4, calculateIP x start i = .ok b.str ∧ b.value = a.value + i) ↔
      a.value % 256 + i < 256 := by
  have heq : calculateIP x start i = .ok (increments a i).str := by
    unfold calculateIP
    rw [h]
  rw [heq, ← increments_value]
  constructor
  · intro hb
    obtain ⟨b, hb, hvalue⟩ := hb
    rwa [IPv4.str_injective (Except.ok.inj hb)]
  · intro hvalue
    exact ⟨_, rfl, hvalue⟩

theorem testnetAddresses_nodup (h : parseIP x start = some a) (hn : n ≤ 256) :
    ∃ ips, testnetAddresses x start n = .ok ips ∧ ips.length = n ∧ ips.Nodup := by
  refine ⟨_, testnetAddresses_eq h, by simp, List.Nodup.map_on ?_ List.nodup_range⟩
  intro i hi j hj hij
  have hmod := increments_inj (IPv4.str_injective hij)
  rw [List.mem_range] at hi hj
  omega

/-- **Addresses are consecutive exactly as long as** the last byte does not go to zero. -/
theorem consecutiveAddresses_iff (h : parseIP x start = some a) :
    ConsecutiveAddresses x start a n ↔ a.value % 256 + min n (2 ^ 32 - a.value) ≤ 256 := by
  constructor
  · intro hall
    by_contra hwraps
    -- the first node whose last byte is zero again
    have hzero := (calculateIP_value h).mp
      (hall.consecutive (256 - a.value % 256) (by omega) (by omega))
    omega
  · intro hcond
    refine ⟨fun i hi hlt => (calculateIP_value h).mpr (by omega), fun hfits => ?_⟩
    exact testnetAddresses_nodup h (by omega)

/-- a network package that reads no IPv6 text, on a machine without network -/
def NetConfig.offline : NetConfig := ⟨fun _ => none, goError .other "are you connected to the network?"⟩

theorem consecutiveAddresses_default :
    ConsecutiveAddresses .offline "192.168.0.1" ⟨192, 168, 0, 1⟩ 4 :=
  (consecutiveAddresses_iff (by decide +kernel)).mpr (by decide)

/-- The third node after `192.168.0.254` gets an address below it, and node 256 that of node 0. -/
theorem consecutiveAddresses_wrap_false :
    calculateIP .offline "192.168.0.254" 2 = .ok "192.168.0.0" ∧
    calculateIP .offline "192.168.0.254" 256 = calculateIP .offline "192.168.0.254" 0 ∧
    ¬ ∀ (start : String) (a : IPv4) (n : Nat), parseIP .offline start = some a →
      ConsecutiveAddresses .offline start a n := by
  have hparse : parseIP .offline "192.168.0.254" = some ⟨192, 168, 0, 254⟩ := by decide +kernel
  refine ⟨by decide +kernel, by decide +kernel, fun hall => ?_⟩
  have hzero := (calculateIP_value hparse).mp ((hall _ _ 3 hparse).consecutive 2 (by decide) (by decide))
  exact absurd hzero (by decide)

end

end MeChain
