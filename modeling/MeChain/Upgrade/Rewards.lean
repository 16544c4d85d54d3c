import MeChain.Distribution
import MeChain.Upgrade.Stakes
import MeChain.Upgrade.ValidatorTable

/-!
# The rewards of the validators through `fixValidator`

The creation hook of x/distribution starts an address afresh.  `fixValidator` calls it for validators
that exist: a validator that keeps its address has its rewards overwritten, and one that moves leaves
them behind under an address no validator has.

* `Fresh`             an address the hook was called for;
* `fresh_run`         a run of hooks, one address after the other;
* `rewardsKept_iff`   the rewards are kept exactly when there are none.
-/

set_option linter.unusedSectionVars false

namespace MeChain
open Fallible

variable {Addr : Type} [SdkAddress Addr] [DecidableEq Addr]

/-! ## the records of one address -/

namespace DistrState

/-- an address whose records hold nothing -/
structure Fresh (s : DistrState Addr) (op : Addr) : Prop where
  outstanding : s.getValidatorOutstandingRewards op = []
  commission : s.getValidatorAccumulatedCommission op = []

theorem Fresh.outstandingOf {s : DistrState Addr} {op : Addr} (h : s.Fresh op) (d : String) :
    s.outstandingOf op d = 0 := by
  rw [DistrState.outstandingOf, h.outstanding]
  rfl

theorem Fresh.commissionOf {s : DistrState Addr} {op : Addr} (h : s.Fresh op) (d : String) :
    s.commissionOf op d = 0 := by
  rw [DistrState.commissionOf, h.commission]
  rfl

theorem fresh_initializeValidator (s : DistrState Addr) (op : Addr) :
    (s.initializeValidator op).Fresh op :=
  ⟨Table.lookupD_put_self _ _ _ _, Table.lookupD_put_self _ _ _ _⟩

theorem Fresh.initializeValidator {s : DistrState Addr} {op : Addr} (h : s.Fresh op) (op' : Addr) :
    (s.initializeValidator op').Fresh op := by
  by_cases he : op = op'
  · rw [he]
    exact fresh_initializeValidator s op'
  · exact ⟨(Table.lookupD_put_ne _ he _).trans h.outstanding,
      (Table.lookupD_put_ne _ he _).trans h.commission⟩

/-- **A run of creation hooks** leaves every address it visits fresh, and the pool alone. -/
theorem fresh_run (s : DistrState Addr) (l : List Addr) :
    (l.foldl initializeValidator s).communityPool = s.communityPool ∧
      ∀ op ∈ l, (l.foldl initializeValidator s).Fresh op := by
  refine foldl_run (f := initializeValidator) (I := fun done t =>
    t.communityPool = s.communityPool ∧ ∀ op ∈ done, t.Fresh op) ⟨rfl, by simp⟩ ?_
  intro done op rest t _ hI
  refine ⟨hI.1, fun a ha => ?_⟩
  rcases List.mem_append.mp ha with ha | ha
  · exact (hI.2 a ha).initializeValidator op
  · rw [List.mem_singleton.mp ha]
    exact fresh_initializeValidator t op

end DistrState

/-! ## what should be left of the rewards -/

/-- the outstanding rewards of the validators that exist, with the community pool -/
def App.validatorRewards (s : App Addr) (d : String) : Dec :=
  s.staking.validators.sum (fun v => s.distr.outstandingOf v.operatorAddress d)
    + DecCoins.amountOf s.distr.communityPool d

/-- an amount that is kept, in the old precision or in the new one -/
def SameUpTo100 (x y : Dec) : Prop := y = x ∨ y = 100 * x

theorem sameUpTo100_zero {x : Dec} : SameUpTo100 x 0 ↔ x = 0 := by
  unfold SameUpTo100
  constructor
  · rintro (h | h)
    · exact h.symm
    · rcases mul_eq_zero.mp h.symm with h | h
      · exact absurd h (by decide)
      · exact h
  · exact fun h => Or.inl h.symm

/-- What a change of operator addresses should leave of the rewards: every validator has under its new
address what it had under its old one, and the existing validators and the pool together do not
have less than before. -/
structure RewardsKept (s s' : App Addr) : Prop where
  outstanding : ∀ v ∈ s.staking.validators.rows, ∀ d, SameUpTo100
    (s.distr.outstandingOf v.operatorAddress d) (s'.distr.outstandingOf (newOperatorAddress v) d)
  commission : ∀ v ∈ s.staking.validators.rows, ∀ d, SameUpTo100
    (s.distr.commissionOf v.operatorAddress d) (s'.distr.commissionOf (newOperatorAddress v) d)
  total : ∀ d, s.validatorRewards d ≤ s'.validatorRewards d

/-- no existing validator has rewards or commission to its name -/
def NoRewards (s : App Addr) : Prop :=
  ∀ v ∈ s.staking.validators.rows, ∀ d,
    s.distr.outstandingOf v.operatorAddress d = 0 ∧ s.distr.commissionOf v.operatorAddress d = 0

/-- **`fixValidator` keeps the rewards of the validators exactly when they have none.** -/
theorem rewardsKept_iff {cfg : Config Addr} {s s' : App Addr} (hrm : cfg.RemovesKeys)
    (h : fixValidator cfg s = .ok s') : RewardsKept s s' ↔ NoRewards s := by
  obtain ⟨adminAddr, _, hloop⟩ := fixValidator_ok h
  obtain ⟨_, _, _, hdistr⟩ := fixValidator_frame hrm hloop
  obtain ⟨hpool, hfresh⟩ :=
    DistrState.fresh_run s.distr (s.staking.validators.rows.map newOperatorAddress)
  rw [← hdistr] at hpool hfresh
  have hnew : ∀ v ∈ s.staking.validators.rows, s'.distr.Fresh (newOperatorAddress v) :=
    fun v hv => hfresh _ (List.mem_map_of_mem hv)
  constructor
  · intro hkept v hv d
    have hout := hkept.outstanding v hv d
    have hcom := hkept.commission v hv d
    rw [(hnew v hv).outstandingOf] at hout
    rw [(hnew v hv).commissionOf] at hcom
    exact ⟨sameUpTo100_zero.mp hout, sameUpTo100_zero.mp hcom⟩
  · intro hno
    refine ⟨fun v hv d => ?_, fun v hv d => ?_, fun d => ?_⟩
    · rw [(hnew v hv).outstandingOf]
      exact sameUpTo100_zero.mpr (hno v hv d).1
    · rw [(hnew v hv).commissionOf]
      exact sameUpTo100_zero.mpr (hno v hv d).2
    · -- before the run the validators have nothing, and after it those that exist are fresh
      have hbefore : s.staking.validators.sum
          (fun v => s.distr.outstandingOf v.operatorAddress d) = 0 :=
        Table.sum_zero _ (fun v hv => (hno v hv d).1)
      have hafter : s'.staking.validators.sum
          (fun v => s'.distr.outstandingOf v.operatorAddress d) = 0 := by
        refine Table.sum_zero _ (fun w hw => ?_)
        obtain ⟨v, hv, hmoved⟩ :=
          Rekey.Run.exists_survivor (validators_run hrm hloop) MovedFrom.operatorAddress hw
        rw [MovedFrom.operatorAddress v w hmoved]
        exact (hnew v ((Rekey.survivors_sublist _).subset hv)).outstandingOf d
      show _ + _ ≤ _ + _
      rw [hbefore, hafter, hpool]

/-- two validators, one of which moves, each with rewards of 7 umec and 3 umec of commission -/
def rewardedNodes : App String :=
  { twoNodes "node1" "validator2" with
    distr := { (App.empty : App String).distr with
      outstandingRewards := ⟨[("me1val1", [⟨"umec", Dec.ofInt 7⟩]),
        ("me1val2", [⟨"umec", Dec.ofInt 7⟩])], by decide⟩
      accumulatedCommission := ⟨[("me1val1", [⟨"umec", Dec.ofInt 3⟩]),
        ("me1val2", [⟨"umec", Dec.ofInt 3⟩])], by decide⟩ } }

theorem rewardsKept_without_rewards :
    ∃ s', fixValidator (Config.fixed "me1admin" "me1dev") (twoNodes "node1" "validator2") = .ok s' ∧
      RewardsKept (twoNodes "node1" "validator2") s' := by
  obtain ⟨s', hs'⟩ := exists_ok_of_isOk (x := fixValidator (Config.fixed "me1admin" "me1dev")
    (twoNodes "node1" "validator2")) (by decide +kernel)
  refine ⟨s', hs', (rewardsKept_iff (fun _ _ => rfl) hs').mpr (fun v _ d => ?_)⟩
  exact ⟨rfl, rfl⟩

/-- the validator that moves and the one that stays both lose their rewards -/
theorem fixValidator_forgets_rewards :
    ∃ s', fixValidator (Config.fixed "me1admin" "me1dev") rewardedNodes = .ok s' ∧
      ¬ RewardsKept rewardedNodes s' ∧
      ∀ v ∈ rewardedNodes.staking.validators.rows,
        rewardedNodes.distr.outstandingOf v.operatorAddress "umec" = Dec.ofInt 7 ∧
        s'.distr.outstandingOf (newOperatorAddress v) "umec" = 0 := by
  obtain ⟨s', hs', hcheck⟩ := exists_ok_of_check
    (x := fixValidator (Config.fixed "me1admin" "me1dev") rewardedNodes)
    (p := fun s' => ∀ v ∈ rewardedNodes.staking.validators.rows,
      rewardedNodes.distr.outstandingOf v.operatorAddress "umec" = Dec.ofInt 7 ∧
      s'.distr.outstandingOf (newOperatorAddress v) "umec" = 0) (by decide +kernel)
  refine ⟨s', hs', fun hkept => ?_, hcheck⟩
  have hmem : nodeValidator "me1val2" "pk2" "validator2" ∈ rewardedNodes.staking.validators.rows := by
    decide
  have hsame := hkept.outstanding _ hmem "umec"
  rw [(hcheck _ hmem).1, (hcheck _ hmem).2] at hsame
  exact absurd (sameUpTo100_zero.mp hsame) (by decide)

end MeChain
