import Mathlib.Algebra.BigOperators.Group.Finset.Piecewise
import Mathlib.Algebra.BigOperators.Ring.Finset
import Mathlib.Algebra.BigOperators.Group.List.Basic
import Mathlib.Tactic.Abel
import Mathlib.Tactic.Ring

/-!
# Ledgers: who holds how much of what

A ledger gives every account an amount of every asset.  The one operation is `credit`: add an
amount (of any sign) to one account.

* `credit_apply`, `credits_apply`   the holdings after one credit and after a list of credits;
* `total_scale`                     the total of a set of accounts when every holding is multiplied.
-/

set_option linter.unusedSectionVars false

/-- the amount of every asset held by every account -/
abbrev Ledger (A D : Type) := A → D → ℤ

namespace Ledger

variable {A D : Type} [DecidableEq A]

def credit (L : Ledger A D) (a : A) (c : D → ℤ) : Ledger A D :=
  fun x d => L x d + if x = a then c d else 0

def credits (L : Ledger A D) (l : List (A × (D → ℤ))) : Ledger A D :=
  l.foldl (fun L p => L.credit p.1 p.2) L

/-- what a list of credits gives one account -/
def received (l : List (A × (D → ℤ))) (x : A) (d : D) : ℤ :=
  (l.map (fun p => if x = p.1 then p.2 d else 0)).sum

theorem credit_apply (L : Ledger A D) (a x : A) (c : D → ℤ) (d : D) :
    L.credit a c x d = L x d + if x = a then c d else 0 := rfl

@[simp] theorem credit_self (L : Ledger A D) (a : A) (c : D → ℤ) (d : D) :
    L.credit a c a d = L a d + c d := by
  rw [credit_apply, if_pos rfl]

theorem credit_ne (L : Ledger A D) {a x : A} (h : x ≠ a) (c : D → ℤ) (d : D) :
    L.credit a c x d = L x d := by
  rw [credit_apply, if_neg h, add_zero]

@[simp] theorem credit_zero (L : Ledger A D) (a : A) : L.credit a (fun _ => 0) = L := by
  funext x d
  simp [credit_apply]

theorem credit_credit (L : Ledger A D) (a : A) (c c' : D → ℤ) :
    (L.credit a c).credit a c' = L.credit a (fun d => c d + c' d) := by
  funext x d
  rw [credit_apply, credit_apply, credit_apply]
  split <;> ring

@[simp] theorem received_nil (x : A) (d : D) : received [] x d = 0 := rfl

@[simp] theorem received_cons (p : A × (D → ℤ)) (l : List (A × (D → ℤ))) (x : A) (d : D) :
    received (p :: l) x d = (if x = p.1 then p.2 d else 0) + received l x d := by
  simp [received]

theorem credits_cons (L : Ledger A D) (p : A × (D → ℤ)) (l : List (A × (D → ℤ))) :
    L.credits (p :: l) = (L.credit p.1 p.2).credits l := rfl

theorem credits_apply (L : Ledger A D) (l : List (A × (D → ℤ))) (x : A) (d : D) :
    L.credits l x d = L x d + received l x d := by
  induction l generalizing L with
  | nil => simp [credits]
  | cons p l ih => rw [credits_cons, ih, credit_apply, received_cons, add_assoc]

/-! ## totals -/

/-- the holdings of a set of accounts together -/
def total (L : Ledger A D) (S : Finset A) (d : D) : ℤ := ∑ a ∈ S, L a d

/-! ## scaling -/

/-- every holding multiplied by `k` -/
def scale (k : ℤ) (L : Ledger A D) : Ledger A D := fun x d => k * L x d

theorem scale_apply (k : ℤ) (L : Ledger A D) (x : A) (d : D) : L.scale k x d = k * L x d := rfl

theorem total_scale (k : ℤ) (L : Ledger A D) (S : Finset A) (d : D) :
    (L.scale k).total S d = k * L.total S d := by
  simp only [total, scale_apply, Finset.mul_sum]

end Ledger
