import MeChain.Upgrade.ValidatorTable

/-!
# What `fixValidator` does outside the validator table

* `fixValidator_frame`   bank, accounts and every other staking record are untouched; the reward
                         records of every new operator address are started afresh;
* `StakesRun`            the stakes in the middle of a run: the admin's are copied, times 100, from
                         old addresses to new ones, the others stay;
* `copyGain`             what the copies add to a sum over the stakes;
* `admin_stakes_kept`    nothing is deleted.
-/

set_option linter.unusedSectionVars false

namespace MeChain
open Fallible

variable {Addr : Type} [SdkAddress Addr] [DecidableEq Addr]

variable {cfg : Config Addr} {s s' : App Addr} {adminAddr : Addr} {l : List (Validator Addr)}

/-! ## the frame -/

/-- the staking store of `s` up to what the loop writes -/
def SameRecords (s s' : StakingState Addr) : Prop :=
  s' = { s with
    validators := s'.validators
    validatorsByConsAddr := s'.validatorsByConsAddr
    validatorsByPowerIndex := s'.validatorsByPowerIndex
    lastValidatorPower := s'.lastValidatorPower
    stakes := s'.stakes }

theorem SameRecords.trans {s t u : StakingState Addr} (h : SameRecords s t) (h' : SameRecords t u) :
    SameRecords s u := by
  unfold SameRecords at *
  rw [h] at h'
  exact h'

theorem sameRecords_movedStaking {r : ℤ} {owner : String} {v : Validator Addr} {pk : PubKey}
    {stake : Stake Addr} (s : StakingState Addr) :
    SameRecords s (movedStaking r owner v pk stake s) := rfl

/-- **What the run leaves alone**, and the reward records it starts. -/
theorem fixValidator_frame (hrm : cfg.RemovesKeys)
    (h : l.foldlM (fixValidatorStep cfg adminAddr) s = .ok s') :
    s'.auth = s.auth ∧ s'.bank = s.bank ∧ SameRecords s.staking s'.staking ∧
    s'.distr = (l.map newOperatorAddress).foldl DistrState.initializeValidator s.distr := by
  refine foldlM_ok (I := fun done t => t.auth = s.auth ∧ t.bank = s.bank ∧
    SameRecords s.staking t.staking ∧
    t.distr = (done.map newOperatorAddress).foldl DistrState.initializeValidator s.distr) h ?_ ?_
  · exact ⟨rfl, rfl, rfl, rfl⟩
  intro done v rest t t' _ hI hstep
  obtain ⟨h1, h2, h3, h4⟩ := hI
  obtain ⟨stake, pk, owner, _, _, _, rfl⟩ := fixValidatorStep_ok hrm hstep
  refine ⟨h1, h2, h3.trans (sameRecords_movedStaking _), ?_⟩
  rw [List.map_append, List.foldl_append, ← h4]
  rfl

/-! ## the stakes -/

/-- The admin's stake under `op` after the validators of `visited`, the latest first, were moved:
followed back along the copies to one that was there before. -/
def copiedStake (s : StakingState Addr) (adminAddr : Addr) :
    List (Validator Addr) → Addr → Option (Stake Addr)
  | [], op => s.getStake adminAddr op
  | v :: visited, op =>
    if op = newOperatorAddress v
    then (copiedStake s adminAddr visited v.operatorAddress).map (movedStake v)
    else copiedStake s adminAddr visited op

/-- the value of a stake that may be missing -/
def stakeValue (f : Stake Addr → ℤ) (stake : Option (Stake Addr)) : ℤ := (stake.map f).getD 0

/-- what the copies for the validators still to come add to a sum over the stakes -/
def copyGain (f : Stake Addr → ℤ) (s : StakingState Addr) (adminAddr : Addr) :
    List (Validator Addr) → List (Validator Addr) → ℤ
  | _, [] => 0
  | visited, v :: rest =>
    stakeValue (fun st => f (movedStake v st)) (copiedStake s adminAddr visited v.operatorAddress)
      - stakeValue f (copiedStake s adminAddr visited (newOperatorAddress v))
      + copyGain f s adminAddr (v :: visited) rest

structure StakesRun (adminAddr : Addr) (visited : List (Validator Addr))
    (s t : StakingState Addr) : Prop where
  others : ∀ k, k.1 ≠ adminAddr → t.stakes.get k = s.stakes.get k
  admin : ∀ op, t.getStake adminAddr op = copiedStake s adminAddr visited op

section
variable {s t : StakingState Addr} {v : Validator Addr} {stake : Stake Addr}
  {visited : List (Validator Addr)}

theorem movedStake_key (h : s.getStake adminAddr v.operatorAddress = some stake) :
    (movedStake v stake).key = (adminAddr, newOperatorAddress v) := by
  have hk : stake.key = (adminAddr, v.operatorAddress) := Table.get_key h
  exact congrArg (fun k => (k.1, newOperatorAddress v)) hk

theorem StakesRun.step {r : ℤ} {owner : String} {pk : PubKey} (h : StakesRun adminAddr visited s t)
    (hstake : t.getStake adminAddr v.operatorAddress = some stake) :
    StakesRun adminAddr (v :: visited) s (movedStaking r owner v pk stake t) where
  others k hk := by
    have hne : k ≠ (movedStake v stake).key := by
      rw [movedStake_key hstake]
      exact fun he => hk (congrArg Prod.fst he)
    exact (Table.get_put_ne _ _ hne).trans (h.others k hk)
  admin op := by
    rw [copiedStake]
    show (t.stakes.put (movedStake v stake)).get (adminAddr, op) = _
    rw [Table.get_put, movedStake_key hstake]
    by_cases hop : op = newOperatorAddress v
    · rw [if_pos (by rw [hop]), if_pos hop, ← h.admin, hstake]
      rfl
    · rw [if_neg (fun he => hop (congrArg Prod.snd he)), if_neg hop, ← h.admin]
      rfl

theorem sum_movedStaking {r : ℤ} {owner : String} {pk : PubKey} (h : StakesRun adminAddr visited s t)
    (hstake : t.getStake adminAddr v.operatorAddress = some stake) (f : Stake Addr → ℤ) :
    (movedStaking r owner v pk stake t).stakes.sum f = t.stakes.sum f
      + (stakeValue (fun st => f (movedStake v st))
          (copiedStake s adminAddr visited v.operatorAddress)
        - stakeValue f (copiedStake s adminAddr visited (newOperatorAddress v))) := by
  have hput := Table.sum_put t.stakes f (movedStake v stake)
  rw [movedStake_key hstake] at hput
  have hold : t.stakes.valueAt f (adminAddr, newOperatorAddress v)
      = stakeValue f (copiedStake s adminAddr visited (newOperatorAddress v)) := by
    rw [← h.admin]
    rfl
  have hnew : stakeValue (fun st => f (movedStake v st))
      (copiedStake s adminAddr visited v.operatorAddress) = f (movedStake v stake) := by
    rw [← h.admin, hstake]
    rfl
  show (t.stakes.put (movedStake v stake)).sum f = _
  omega

/-- an address no visited validator moved to keeps its stake -/
theorem copiedStake_of_free {op : Addr} (h : ∀ v ∈ visited, op ≠ newOperatorAddress v) :
    copiedStake s adminAddr visited op = s.getStake adminAddr op := by
  induction visited with
  | nil => rfl
  | cons v visited ih =>
    rw [copiedStake, if_neg (h v (List.mem_cons_self ..))]
    exact ih (fun w hw => h w (List.mem_cons_of_mem _ hw))

theorem copyGain_of_free (f : Stake Addr → ℤ) {rest : List (Validator Addr)}
    (hno : NoCollision rest)
    (hv : ∀ v ∈ visited, ∀ w ∈ rest,
      newOperatorAddress v ≠ newOperatorAddress w ∧ newOperatorAddress v ≠ w.operatorAddress) :
    copyGain f s adminAddr visited rest = (rest.map fun v =>
      stakeValue (fun st => f (movedStake v st)) (s.getStake adminAddr v.operatorAddress)
        - stakeValue f (s.getStake adminAddr (newOperatorAddress v))).sum := by
  induction rest generalizing visited with
  | nil => rfl
  | cons w rest ih =>
    obtain ⟨hw, hrest⟩ := List.pairwise_cons.mp hno
    have hmem := List.mem_cons_self (a := w) (l := rest)
    rw [copyGain, List.map_cons, List.sum_cons,
      copiedStake_of_free (fun v hvv => (hv v hvv w hmem).2.symm),
      copiedStake_of_free (fun v hvv => (hv v hvv w hmem).1.symm)]
    congr 1
    refine ih hrest (fun v hvv x hx => ?_)
    rcases List.mem_cons.mp hvv with rfl | hvv
    · exact hw x hx
    · exact hv v hvv x (List.mem_cons_of_mem _ hx)

/-- without collisions every copy is of a stake that was there before, over one that was -/
theorem copyGain_of_noCollision (f : Stake Addr → ℤ) (hno : NoCollision l) :
    copyGain f s adminAddr [] l = (l.map fun v =>
      stakeValue (fun st => f (movedStake v st)) (s.getStake adminAddr v.operatorAddress)
        - stakeValue f (s.getStake adminAddr (newOperatorAddress v))).sum :=
  copyGain_of_free f hno (fun _ hv => absurd hv List.not_mem_nil)

end

/-- **The stakes after the loop.** -/
theorem stakes_run (hrm : cfg.RemovesKeys)
    (h : l.foldlM (fixValidatorStep cfg adminAddr) s = .ok s') :
    StakesRun adminAddr l.reverse s.staking s'.staking ∧
    ∀ f, s'.staking.stakes.sum f
      = s.staking.stakes.sum f + copyGain f s.staking adminAddr [] l := by
  have hrun := foldlM_ok_rest (I := fun done rest t =>
    StakesRun adminAddr done.reverse s.staking t.staking ∧
    ∀ f, t.staking.stakes.sum f + copyGain f s.staking adminAddr done.reverse rest
      = s.staking.stakes.sum f + copyGain f s.staking adminAddr [] l) h ?_ ?_
  · refine ⟨hrun.1, fun f => ?_⟩
    have hsum := hrun.2 f
    rw [copyGain, add_zero] at hsum
    exact hsum
  · exact ⟨⟨fun _ _ => rfl, fun _ => rfl⟩, fun _ => rfl⟩
  · intro done v rest t t' _ hI hstep
    obtain ⟨hst, hsum⟩ := hI
    obtain ⟨stake, pk, owner, hstake, _, _, rfl⟩ := fixValidatorStep_ok hrm hstep
    rw [List.reverse_append, List.reverse_singleton, List.singleton_append]
    refine ⟨hst.step hstake, fun f => ?_⟩
    have hv := hsum f
    rw [copyGain] at hv
    show (movedStaking cfg.powerReduction owner v pk stake t.staking).stakes.sum f + _ = _
    rw [sum_movedStaking hst hstake f]
    omega

/-- no stake is ever deleted, so the admin's stake of every validator is still there -/
theorem admin_stakes_kept (hrm : cfg.RemovesKeys)
    (h : l.foldlM (fixValidatorStep cfg adminAddr) s = .ok s') :
    ∀ v ∈ l, (adminAddr, v.operatorAddress) ∈ s'.staking.stakes.keys := by
  refine foldlM_ok (I := fun done t => ∀ v ∈ done,
    (adminAddr, v.operatorAddress) ∈ t.staking.stakes.keys) h
    (fun _ hv => absurd hv List.not_mem_nil) ?_
  intro done v rest t t' _ hI hstep w hw
  obtain ⟨stake, pk, owner, hstake, _, _, rfl⟩ := fixValidatorStep_ok hrm hstep
  refine Table.mem_keys_put.mpr (Or.inr ?_)
  rcases List.mem_append.mp hw with hw | hw
  · exact hI w hw
  · rw [List.mem_singleton.mp hw]
    exact Table.mem_keys_iff.mpr ⟨stake, hstake⟩

end MeChain
