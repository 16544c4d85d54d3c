import MeChain.ValidatorSet

/-!
# What the updates of the validator set leave behind

The walk over the power index bonds the validators it meets, and the validators with a last power
that it did not meet are unbonded.

* `readOps`, `metOps`    the operator addresses the walk reads, and those it bonds;
* `SumFits`              tokens that can be added up;
* `Settled`              a stretch of the run: which validators it bonded and which it unbonded;
* `Settled.trans`        two stretches after each other;
* `walk_settled`, `walk_ends_iff`   what a walk that ended did, and when it ends: it reads no jailed
                         validator, for one;
* `updateValidatorSet_settled`, `updateValidatorSet_ends_iff`   the same of both loops.
-/

set_option linter.unusedSectionVars false

namespace MeChain
open Fallible

variable {Addr : Type} [SdkAddress Addr] [DecidableEq Addr]

namespace StakingState

/-- the power of the validator at an address, zero without one -/
def powerAt (r : ℤ) (s : StakingState Addr) (op : Addr) : ℤ :=
  ((s.validators.get op).map (Validator.power r)).getD 0

/-- what a walk of at most `n` steps bonds: everything up to the first without power -/
def metOps (r : ℤ) (s : StakingState Addr) (n : Nat) (ops : List Addr) : List Addr :=
  (ops.take n).takeWhile fun op => s.powerAt r op ≠ 0

/-- what it reads: one address more, unless it came to the end -/
def readOps (r : ℤ) (s : StakingState Addr) (n : Nat) (ops : List Addr) : List Addr :=
  (ops.take n).take ((s.metOps r n ops).length + 1)

variable {r : ℤ} {s : StakingState Addr} {n : Nat} {op : Addr} {ops : List Addr}

theorem metOps_stop (h : s.powerAt r op = 0) : s.metOps r (n + 1) (op :: ops) = [] := by
  unfold metOps
  rw [List.take_succ_cons, List.takeWhile_cons_of_neg (by simpa using h)]

theorem metOps_next (h : s.powerAt r op ≠ 0) :
    s.metOps r (n + 1) (op :: ops) = op :: s.metOps r n ops := by
  unfold metOps
  rw [List.take_succ_cons, List.takeWhile_cons_of_pos (by simpa using h)]

theorem readOps_stop (h : s.powerAt r op = 0) : s.readOps r (n + 1) (op :: ops) = [op] := by
  unfold readOps
  rw [metOps_stop h, List.take_succ_cons]
  rfl

theorem readOps_next (h : s.powerAt r op ≠ 0) :
    s.readOps r (n + 1) (op :: ops) = op :: s.readOps r n ops := by
  unfold readOps
  rw [metOps_next h, List.take_succ_cons, List.length_cons, List.take_succ_cons]

theorem metOps_subset : ∀ a ∈ s.metOps r n ops, a ∈ s.readOps r n ops := by
  intro a ha
  have hprefix : s.metOps r n ops <+: ops.take n := List.takeWhile_prefix _
  rw [List.prefix_iff_eq_take.mp hprefix] at ha
  exact (List.take_subset_take_left _ (Nat.le_succ _)) ha

theorem readOps_subset : ∀ a ∈ s.readOps r n ops, a ∈ ops :=
  fun _ ha => List.take_subset _ _ (List.take_subset _ _ ha)

theorem metOps_congr {t : StakingState Addr} (h : ∀ a, t.powerAt r a = s.powerAt r a) :
    t.metOps r n ops = s.metOps r n ops := by
  unfold metOps
  simp only [h]

theorem readOps_congr {t : StakingState Addr} (h : ∀ a, t.powerAt r a = s.powerAt r a) :
    t.readOps r n ops = s.readOps r n ops := by
  unfold readOps
  rw [metOps_congr h]

end StakingState

/-! ## tokens added up -/

/-- every partial sum fits in an integer of the SDK -/
def SumFits : ℤ → List ℤ → Prop
  | _, [] => True
  | a, t :: l => SdkInt.Fits (a + t) ∧ SumFits (a + t) l

theorem sumFits_append {a : ℤ} {l l' : List ℤ} :
    SumFits a (l ++ l') ↔ SumFits a l ∧ SumFits (a + l.sum) l' := by
  induction l generalizing a with
  | nil => simp [SumFits]
  | cons t l ih => rw [List.cons_append, SumFits, SumFits, ih, List.sum_cons, and_assoc, add_assoc]

/-- the tokens of a validator that is not bonded -/
def Validator.entering (v : Validator Addr) : Option ℤ := if v.status = .bonded then none else v.tokens

theorem addTokens_ok {a b t : ℤ} {v : Validator Addr} (ht : v.tokens = some t) :
    addTokens a v = .ok b ↔ SumFits a v.tokens.toList ∧ b = a + v.tokens.toList.sum := by
  unfold addTokens
  rw [ht, show deref (some t) = .ok t from rfl, ok_bind, SdkInt.add_ok]
  simp [SumFits]

theorem addBonded_ok {a b t : ℤ} {v : Validator Addr} (ht : v.tokens = some t) :
    addBonded a v = .ok b ↔ SumFits a v.entering.toList ∧ b = a + v.entering.toList.sum := by
  unfold addBonded Validator.entering
  split
  · simp [SumFits, eq_comm]
  · exact addTokens_ok ht

namespace StakingState

/-- the tokens of those among some validators that are not bonded -/
def entering (s : StakingState Addr) (ops : List Addr) : List ℤ :=
  ops.flatMap fun op => ((s.validators.get op).bind Validator.entering).toList

/-- the tokens of some validators -/
def leaving (s : StakingState Addr) (ops : List Addr) : List ℤ :=
  ops.flatMap fun op => ((s.validators.get op).bind Validator.tokens).toList

variable {s t : StakingState Addr} {ops : List Addr}

theorem entering_congr (h : ∀ op ∈ ops, t.validators.get op = s.validators.get op) :
    t.entering ops = s.entering ops := by
  unfold entering
  rw [List.flatMap_def, List.flatMap_def,
    List.map_congr_left (fun op hop => by rw [h op hop])]

theorem entering_cons {op : Addr} {v : Validator Addr} (h : s.validators.get op = some v) :
    s.entering (op :: ops) = v.entering.toList ++ s.entering ops := by
  unfold entering
  rw [List.flatMap_cons, h]
  rfl

theorem leaving_cons {op : Addr} {v : Validator Addr} (h : s.validators.get op = some v) :
    s.leaving (op :: ops) = v.tokens.toList ++ s.leaving ops := by
  unfold leaving
  rw [List.flatMap_cons, h]
  rfl

end StakingState

/-! ## a stretch of the run -/

/-- the record of a validator after some validators were bonded and then some unbonded -/
def Validator.settled (height : ℤ) (bonded unbonded : List Addr) (v : Validator Addr) :
    Validator Addr :=
  if v.operatorAddress ∈ unbonded then { v with status := .unbonding, unbondingHeight := height }
  else if v.operatorAddress ∈ bonded then { v with status := .bonded }
  else v

section
variable {height : ℤ} {b b' u u' : List Addr} {v : Validator Addr}

@[simp] theorem settled_operatorAddress :
    (v.settled height b u).operatorAddress = v.operatorAddress := by
  unfold Validator.settled
  split_ifs <;> rfl

@[simp] theorem settled_jailed : (v.settled height b u).jailed = v.jailed := by
  unfold Validator.settled
  split_ifs <;> rfl

@[simp] theorem settled_tokens : (v.settled height b u).tokens = v.tokens := by
  unfold Validator.settled
  split_ifs <;> rfl

theorem settled_nil : v.settled height [] [] = v := by
  simp [Validator.settled]

theorem settled_entry {r : ℤ} : (v.settled height b u).entry r = v.entry r := by
  simp [Validator.entry]

theorem settled_power {r : ℤ} : (v.settled height b u).power r = v.power r := by
  simp [Validator.power]

/-- nobody is bonded after somebody was unbonded -/
theorem settled_settled (h : u = [] ∨ b' = []) :
    (v.settled height b u).settled height b' u' = v.settled height (b ++ b') (u ++ u') := by
  rcases h with rfl | rfl
  · by_cases h1 : v.operatorAddress ∈ b
    · by_cases h2 : v.operatorAddress ∈ b' <;> simp [Validator.settled, h1, h2]
    · simp [Validator.settled, h1]
  · by_cases h1 : v.operatorAddress ∈ u
    · by_cases h2 : v.operatorAddress ∈ u' <;> simp [Validator.settled, h1, h2]
    · by_cases h2 : v.operatorAddress ∈ b <;> simp [Validator.settled, h1, h2]

end

/-- the power index leads to the operator addresses in its keys, and has the entries of those
validators of a list that are not jailed -/
structure Entered (r : ℤ) (ops : List Addr) (s : StakingState Addr) : Prop where
  address : ∀ e ∈ s.validatorsByPowerIndex.rows, e.2 = e.1.2
  entries : ∀ v ∈ s.validators.rows, v.operatorAddress ∈ ops → v.jailed = false →
    v.entry r ∈ s.validatorsByPowerIndex.rows

theorem Entered.mono {r : ℤ} {ops ops' : List Addr} {s : StakingState Addr} (h : Entered r ops s)
    (hsub : ops' ⊆ ops) : Entered r ops' s :=
  ⟨h.address, fun v hv hop hj => h.entries v hv (hsub hop) hj⟩

/-- Between `s` and `t` the validators of `bonded` were bonded and those of `unbonded` unbonded.
Of the power index, when it had their entries, exactly the entries of the unbonded ones that are
jailed are gone. -/
structure Settled (r height : ℤ) (bonded unbonded : List Addr) (s t : StakingState Addr) : Prop where
  validators : ∀ op, t.validators.get op
    = (s.validators.get op).map (Validator.settled height bonded unbonded)
  power : Entered r (bonded ++ unbonded) s →
    ∀ e, e ∈ t.validatorsByPowerIndex.rows ↔ e ∈ s.validatorsByPowerIndex.rows ∧
      ¬ ∃ v ∈ s.validators.rows, v.operatorAddress ∈ unbonded ∧ v.jailed = true ∧ e = v.entry r
  frame : t = { s with
    validators := t.validators
    validatorsByPowerIndex := t.validatorsByPowerIndex
    lastValidatorPower := t.lastValidatorPower }

section
variable {r height : ℤ} {b b' u u' : List Addr} {s t w : StakingState Addr} {v : Validator Addr}

theorem Settled.refl (s : StakingState Addr) : Settled r height [] [] s s where
  validators op := by
    cases s.validators.get op with
    | none => rfl
    | some v => rw [Option.map_some, settled_nil]
  power _ e := by simp
  frame := rfl

theorem Settled.mem (h : Settled r height b u s t) {x : Validator Addr} :
    x ∈ t.validators.rows ↔ ∃ v ∈ s.validators.rows, x = v.settled height b u := by
  constructor
  · intro hx
    have hget := Table.mem_rows_iff.mp hx
    rw [h.validators, Option.map_eq_some_iff] at hget
    obtain ⟨v, hv, rfl⟩ := hget
    exact ⟨v, Table.mem_of_get hv, rfl⟩
  · intro hx
    obtain ⟨v, hv, rfl⟩ := hx
    refine Table.mem_rows_iff.mpr ?_
    rw [settled_operatorAddress, h.validators, Table.mem_rows_iff.mp hv]
    rfl

theorem Settled.powerAt (h : Settled r height b u s t) (op : Addr) :
    t.powerAt r op = s.powerAt r op := by
  unfold StakingState.powerAt
  rw [h.validators]
  cases s.validators.get op with
  | none => rfl
  | some v => exact settled_power

theorem Settled.leaving (h : Settled r height b u s t) (ops : List Addr) :
    t.leaving ops = s.leaving ops := by
  unfold StakingState.leaving
  refine congrArg (fun f => List.flatMap f ops) (funext (fun op => ?_))
  rw [h.validators]
  cases s.validators.get op with
  | none => rfl
  | some v => exact congrArg Option.toList settled_tokens

theorem entry_operatorAddress {v w : Validator Addr} (h : v.entry r = w.entry r) :
    v.operatorAddress = w.operatorAddress := congrArg Prod.snd h

/-- **Two stretches.** -/
theorem Settled.trans (h : Settled r height b u s t) (h' : Settled r height b' u' t w)
    (horder : u = [] ∨ b' = []) : Settled r height (b ++ b') (u ++ u') s w where
  validators op := by
    rw [h'.validators, h.validators, Option.map_map]
    congr 1
    funext v
    exact settled_settled horder
  power hent e := by
    have hsub : b ++ u ⊆ b ++ b' ++ (u ++ u') := by
      intro a ha
      simp only [List.mem_append] at ha ⊢
      exact ha.imp Or.inl Or.inl
    have hs := h.power (hent.mono hsub)
    have ht := h'.power ⟨fun e he => hent.address e ((hs e).mp he).1, fun x hx hop hj => by
      obtain ⟨v, hv, rfl⟩ := h.mem.mp hx
      rw [settled_operatorAddress] at hop
      rw [settled_jailed] at hj
      rw [settled_entry, hs]
      refine ⟨hent.entries v hv ?_ hj, fun hgone => ?_⟩
      · rw [List.mem_append] at hop ⊢
        exact hop.imp (List.mem_append_right _) (List.mem_append_right _)
      · obtain ⟨y, hy, _, hyj, he⟩ := hgone
        rw [Table.eq_of_key hv hy (entry_operatorAddress he), hyj] at hj
        cases hj⟩
    rw [ht, hs, and_assoc]
    refine and_congr_right (fun _ => ?_)
    constructor
    · intro hno hgone
      obtain ⟨v, hv, hop, hj, rfl⟩ := hgone
      rcases List.mem_append.mp hop with hop | hop
      · exact hno.1 ⟨v, hv, hop, hj, rfl⟩
      · refine hno.2 ⟨v.settled height b u, h.mem.mpr ⟨v, hv, rfl⟩, ?_, ?_, settled_entry.symm⟩
        · rw [settled_operatorAddress]
          exact hop
        · rw [settled_jailed]
          exact hj
    · intro hno
      refine ⟨fun hgone => ?_, fun hgone => ?_⟩
      · obtain ⟨v, hv, hop, hj, he⟩ := hgone
        exact hno ⟨v, hv, List.mem_append_left _ hop, hj, he⟩
      · obtain ⟨x, hx, hop, hj, he⟩ := hgone
        obtain ⟨v, hv, rfl⟩ := h.mem.mp hx
        rw [settled_operatorAddress] at hop
        rw [settled_jailed] at hj
        exact hno ⟨v, hv, List.mem_append_right _ hop, hj, he.trans settled_entry⟩
  frame := by
    rw [h'.frame, h.frame]

/-! ## one validator -/

theorem settled_other (hb : v.operatorAddress ∉ b) (hu : v.operatorAddress ∉ u) :
    v.settled height b u = v := by
  unfold Validator.settled
  rw [if_neg hu, if_neg hb]

theorem Settled.get_other {op : Addr} (h : Settled r height b u s t) (hb : op ∉ b) (hu : op ∉ u) :
    t.validators.get op = s.validators.get op := by
  rw [h.validators]
  cases hv : s.validators.get op with
  | none => rfl
  | some v =>
    have hop : v.operatorAddress = op := Table.get_key hv
    rw [Option.map_some, settled_other (by rwa [hop]) (by rwa [hop])]

theorem settled_not_bonded (hb : v.operatorAddress ∉ b)
    (h : v.operatorAddress ∈ u ∨ v.status ≠ .bonded) : (v.settled height b u).status ≠ .bonded := by
  by_cases hu : v.operatorAddress ∈ u
  · unfold Validator.settled
    rw [if_pos hu]
    exact BondStatus.noConfusion
  · rw [settled_other hb hu]
    exact h.resolve_left hu

theorem get_settle {op : Addr} (hv : s.validators.get v.operatorAddress = some v)
    (hsub : ∀ a ∈ b ++ u, a = v.operatorAddress) :
    (s.validators.put (v.settled height b u)).get op
      = (s.validators.get op).map (Validator.settled height b u) := by
  rw [Table.get_put, settled_operatorAddress]
  by_cases hop : op = v.operatorAddress
  · rw [if_pos hop, hop, hv]
    rfl
  · rw [if_neg hop]
    cases hw : s.validators.get op with
    | none => rfl
    | some w =>
      have hwop : w.operatorAddress = op := Table.get_key hw
      have hnot : w.operatorAddress ∉ b ++ u := fun hmem => hop (hwop.symm.trans (hsub _ hmem))
      rw [List.mem_append, not_or] at hnot
      rw [Option.map_some, settled_other hnot.1 hnot.2]

/-- the entry of a validator made anew, or deleted if it is jailed -/
theorem mem_reenter (haddr : ∀ e ∈ s.validatorsByPowerIndex.rows, e.2 = e.1.2)
    (hent : v.jailed = false → v.entry r ∈ s.validatorsByPowerIndex.rows)
    (e : (ℤ × Addr) × Addr) :
    e ∈ (reenter r v (v.settled height b u) s.validatorsByPowerIndex).rows ↔
      e ∈ s.validatorsByPowerIndex.rows ∧ ¬ (v.jailed = true ∧ e = v.entry r) := by
  have hkey : e ∈ s.validatorsByPowerIndex.rows →
      (e.1 = powerKey r v.tokens v.operatorAddress ↔ e = v.entry r) := by
    intro he
    constructor
    · intro hk
      exact Prod.ext hk ((haddr e he).trans (congrArg Prod.snd hk))
    · intro hk
      rw [hk]
      rfl
  unfold reenter
  rw [settled_jailed, settled_tokens, settled_operatorAddress]
  cases hj : v.jailed with
  | true =>
    rw [if_pos rfl, Table.mem_del]
    constructor
    · intro h
      exact ⟨h.1, fun hgone => h.2 ((hkey h.1).mpr hgone.2)⟩
    · intro h
      exact ⟨h.1, fun hk => h.2 ⟨rfl, (hkey h.1).mp hk⟩⟩
  | false =>
    rw [if_neg (by simp), Table.mem_put, Table.mem_del]
    constructor
    · intro h
      rcases h with rfl | h
      · exact ⟨hent hj, by simp⟩
      · exact ⟨h.1.1, by simp⟩
    · intro h
      by_cases he : e = v.entry r
      · exact Or.inl he
      · have hne : e.1 ≠ powerKey r v.tokens v.operatorAddress := fun hk => he ((hkey h.1).mp hk)
        exact Or.inr ⟨⟨h.1, hne⟩, hne⟩

/-- **One validator** bonded, if it is not jailed, or unbonded. -/
theorem settled_replace (hv : s.validators.get v.operatorAddress = some v)
    (hone : (b = [v.operatorAddress] ∧ u = [] ∧ v.jailed = false) ∨
      (b = [] ∧ u = [v.operatorAddress]))
    (hval : t.validators = s.validators.put (v.settled height b u))
    (hpow : t.validatorsByPowerIndex
      = reenter r v (v.settled height b u) s.validatorsByPowerIndex)
    (hframe : t = { s with
      validators := t.validators
      validatorsByPowerIndex := t.validatorsByPowerIndex
      lastValidatorPower := t.lastValidatorPower }) : Settled r height b u s t where
  validators op := by
    rw [hval]
    refine get_settle hv (fun a ha => ?_)
    rcases hone with ⟨rfl, rfl, _⟩ | ⟨rfl, rfl⟩
    · simpa using ha
    · simpa using ha
  power hent e := by
    have hmem : v.operatorAddress ∈ b ++ u := by
      rcases hone with ⟨rfl, rfl, _⟩ | ⟨rfl, rfl⟩
      · simp
      · simp
    rw [hpow, mem_reenter hent.address (hent.entries v (Table.mem_of_get hv) hmem)]
    refine and_congr_right (fun _ => not_congr ?_)
    rcases hone with ⟨_, rfl, hj⟩ | ⟨_, rfl⟩
    · simp [hj]
    · constructor
      · intro h
        exact ⟨v, Table.mem_of_get hv, List.mem_singleton.mpr rfl, h⟩
      · rintro ⟨w, hw, hop, h⟩
        rw [Table.eq_of_key hw (Table.mem_of_get hv) (List.mem_singleton.mp hop)] at h
        exact h
  frame := hframe

end

/-! ## the walk -/

section
variable {r height : ℤ} {s s' : StakingState Addr} {v : Validator Addr} {x x' : Selection Addr}
  {n : Nat} {ops : List Addr}

theorem settled_bonded (v : Validator Addr) :
    v.settled height [v.operatorAddress] [] = { v with status := .bonded } := by
  simp [Validator.settled]

theorem settled_unbonded (v : Validator Addr) :
    v.settled height [] [v.operatorAddress]
      = { v with status := .unbonding, unbondingHeight := height } := by
  simp [Validator.settled]

theorem bondValidator_settled (height : ℤ) (hv : s.validators.get v.operatorAddress = some v)
    (hj : v.jailed = false) (h : s.bondValidator r v = .ok s') :
    Settled r height [v.operatorAddress] [] s s' := by
  rcases bondValidator_ok h with ⟨hst, rfl⟩ | h
  · refine ⟨fun op => ?_, fun _ e => by simp, rfl⟩
    cases hw : s'.validators.get op with
    | none => rfl
    | some w =>
      have hwop : w.operatorAddress = op := Table.get_key hw
      rw [Option.map_some]
      by_cases hop : w.operatorAddress = v.operatorAddress
      · rw [Table.eq_of_key (Table.mem_of_get hw) (Table.mem_of_get hv) hop, settled_bonded, ← hst]
      · rw [settled_other (by simpa using hop) List.not_mem_nil]
  · obtain ⟨_, rfl⟩ := (replaceValidator_ok (by rfl)).mp h
    refine settled_replace hv (Or.inl ⟨rfl, rfl, hj⟩) ?_ ?_ rfl
    · rw [settled_bonded]
    · rw [settled_bonded]

theorem Settled.setPower (h : Settled r height [v.operatorAddress] [] s s') (op : Addr) (p : ℤ) :
    Settled r height [v.operatorAddress] [] s (s'.setLastValidatorPower op p) where
  validators := h.validators
  power := h.power
  frame := by
    rw [h.frame]
    rfl

theorem select_settled {power : ℤ} (height : ℤ) (hv : x.staking.validators.get v.operatorAddress = some v)
    (hj : v.jailed = false) (h : x.select r v power = .ok x') :
    Settled r height [v.operatorAddress] [] x.staking x'.staking ∧
    x'.last = x.last.del v.operatorAddress ∧
    addBonded x.amtFromNotBondedToBonded v = .ok x'.amtFromNotBondedToBonded ∧
    x'.amtFromBondedToNotBonded = x.amtFromBondedToNotBonded := by
  obtain ⟨staking, hst, h⟩ := bind_eq_ok.mp h
  obtain ⟨amt, hamt, h⟩ := bind_eq_ok.mp h
  have hbond := bondValidator_settled height hv hj hst
  dsimp only at h
  by_cases hsame : x.last.get v.operatorAddress = some (v.operatorAddress, power)
  · rw [if_pos hsame] at h
    cases h
    exact ⟨hbond, rfl, hamt, rfl⟩
  · rw [if_neg hsame] at h
    obtain ⟨u, _, h⟩ := bind_eq_ok.mp h
    cases h
    exact ⟨hbond.setPower _ _, rfl, hamt, rfl⟩

/-- the consensus power of a validator can be computed -/
def Validator.PowerFits (r : ℤ) (v : Validator Addr) : Prop :=
  ∃ t, v.tokens = some t ∧ Int64.fits (consensusPower r t)

/-- one step of the walk, if it ended: the validator it read, and the rest unless that has no power -/
theorem walk_cons_ok {op : Addr} : selectValidators r (n + 1) (op :: ops) x = .ok x' ↔
    ∃ v, x.staking.validators.get op = some v ∧ v.jailed = false ∧ v.PowerFits r ∧
      if x.staking.powerAt r op = 0 then x' = x
      else ∃ y, x.select r v (x.staking.powerAt r op) = .ok y ∧
        selectValidators r n ops y = .ok x' := by
  have hpower : ∀ v t, x.staking.validators.get op = some v → v.tokens = some t →
      x.staking.powerAt r op = consensusPower r t := by
    intro v t hget ht
    rw [StakingState.powerAt, hget, Option.map_some, Option.getD_some, Validator.power, ht,
      Option.getD_some]
  have hrest : ∀ v, (if x.staking.powerAt r op = 0 then .ok x else do
      let y ← x.select r v (x.staking.powerAt r op)
      selectValidators r n ops y : Res (Selection Addr)) = .ok x' ↔
      if x.staking.powerAt r op = 0 then x' = x
      else ∃ y, x.select r v (x.staking.powerAt r op) = .ok y ∧
        selectValidators r n ops y = .ok x' := by
    intro v
    split
    · simp [eq_comm]
    · exact bind_eq_ok
  constructor
  · intro h
    obtain ⟨v, hv, h⟩ := bind_eq_ok.mp h
    have hget := mustGetValidator_ok.mp hv
    obtain ⟨hnj, h⟩ := guard_eq_ok.mp h
    obtain ⟨power, hp, h⟩ := bind_eq_ok.mp h
    obtain ⟨t, ht, hfit, rfl⟩ := tokensToConsensusPower_ok.mp hp
    rw [← hpower v t hget ht] at h
    exact ⟨v, hget, by simpa using hnj, ⟨t, ht, hfit⟩, (hrest v).mp h⟩
  · intro h
    obtain ⟨v, hget, hj, ⟨t, ht, hfit⟩, h⟩ := h
    refine bind_eq_ok.mpr ⟨v, mustGetValidator_ok.mpr hget, guard_eq_ok.mpr ⟨by simp [hj],
      bind_eq_ok.mpr ⟨_, tokensToConsensusPower_ok.mpr ⟨t, ht, hfit, rfl⟩, ?_⟩⟩⟩
    rw [← hpower v t hget ht]
    exact (hrest v).mpr h

/-- **A walk that ended**: it bonded the validators it met and struck them off the last powers. -/
theorem walk_settled (height : ℤ) (h : selectValidators r n ops x = .ok x') :
    Settled r height (x.staking.metOps r n ops) [] x.staking x'.staking ∧
    x'.last.rows = x.last.rows.filter (fun e => decide (e.1 ∉ x.staking.metOps r n ops)) ∧
    x'.amtFromBondedToNotBonded = x.amtFromBondedToNotBonded := by
  have hstay : ∀ y : Selection Addr,
      y.last.rows = y.last.rows.filter fun e => decide (e.1 ∉ ([] : List Addr)) := by simp
  induction n generalizing ops x with
  | zero =>
    cases h
    exact ⟨Settled.refl _, hstay _, rfl⟩
  | succ n ih =>
    cases ops with
    | nil =>
      cases h
      exact ⟨Settled.refl _, hstay _, rfl⟩
    | cons op ops =>
      obtain ⟨v, hget, hj, _, h⟩ := walk_cons_ok.mp h
      have hop : v.operatorAddress = op := Table.get_key hget
      by_cases h0 : x.staking.powerAt r op = 0
      · rw [if_pos h0] at h
        cases h
        rw [StakingState.metOps_stop h0]
        exact ⟨Settled.refl _, hstay _, rfl⟩
      · rw [if_neg h0] at h
        obtain ⟨y, hy, h⟩ := h
        rw [← hop] at hget
        obtain ⟨hone, hlast, _, hout⟩ := select_settled height hget hj hy
        obtain ⟨hrest, hlast', hout'⟩ := ih h
        rw [StakingState.metOps_congr hone.powerAt] at hrest hlast'
        rw [StakingState.metOps_next h0, ← hop]
        refine ⟨hone.trans hrest (Or.inl rfl), ?_, hout'.trans hout⟩
        rw [hlast', hlast, Table.rows_del, List.filter_filter]
        refine List.filter_congr (fun e _ => ?_)
        simp [Bool.and_comm]

theorem walk_amount (hops : ops.Nodup) (h : selectValidators r n ops x = .ok x') :
    x'.amtFromNotBondedToBonded = x.amtFromNotBondedToBonded
      + (x.staking.entering (x.staking.metOps r n ops)).sum := by
  induction n generalizing ops x with
  | zero =>
    cases h
    simp [StakingState.metOps, StakingState.entering]
  | succ n ih =>
    cases ops with
    | nil =>
      cases h
      simp [StakingState.metOps, StakingState.entering]
    | cons op ops =>
      obtain ⟨hnew, hops⟩ := List.nodup_cons.mp hops
      obtain ⟨v, hget, hj, ⟨t, ht, _⟩, h⟩ := walk_cons_ok.mp h
      have hop : v.operatorAddress = op := Table.get_key hget
      by_cases h0 : x.staking.powerAt r op = 0
      · rw [if_pos h0] at h
        cases h
        rw [StakingState.metOps_stop h0]
        simp [StakingState.entering]
      · rw [if_neg h0] at h
        obtain ⟨y, hy, h⟩ := h
        rw [← hop] at hget
        obtain ⟨hone, _, hamt, _⟩ := select_settled 0 hget hj hy
        have hkept : ∀ a ∈ x.staking.metOps r n ops,
            y.staking.validators.get a = x.staking.validators.get a := by
          intro a ha
          refine hone.get_other (fun he => ?_) List.not_mem_nil
          rw [List.mem_singleton.mp he, hop] at ha
          exact hnew (StakingState.readOps_subset _ (StakingState.metOps_subset _ ha))
        rw [ih hops h, StakingState.metOps_congr hone.powerAt, StakingState.entering_congr hkept,
          StakingState.metOps_next h0, ((addBonded_ok ht).mp hamt).2, StakingState.entering_cons
            (hop ▸ hget), List.sum_append, add_assoc]

/-! ### when it ends -/

/-- the walk may read the validator at an address -/
def Readable (r : ℤ) (s : StakingState Addr) (op : Addr) : Prop :=
  ∃ v, s.validators.get op = some v ∧ v.jailed = false ∧ v.PowerFits r

/-- the validator at an address may be bonded, and reported unless its last power is the same -/
def Bondable (r : ℤ) (last : Index Addr ℤ) (s : StakingState Addr) (op : Addr) : Prop :=
  ∃ v, s.validators.get op = some v ∧ v.status ≠ .unspecified ∧
    (last.get op = some (op, s.powerAt r op) ∨ v.consensusPubkey ≠ none)

theorem readable_congr {op : Addr} (h : s'.validators.get op = s.validators.get op) :
    Readable r s' op ↔ Readable r s op := by
  unfold Readable
  rw [h]

theorem bondable_congr {op : Addr} {last last' : Index Addr ℤ}
    (h : s'.validators.get op = s.validators.get op) (hlast : last'.get op = last.get op) :
    Bondable r last' s' op ↔ Bondable r last s op := by
  unfold Bondable StakingState.powerAt
  rw [h, hlast]

theorem abciUpdate_ends_iff {power : ℤ} :
    (∃ u, v.abciUpdate power = .ok u) ↔ v.consensusPubkey ≠ none := by
  rw [Option.ne_none_iff_exists']
  constructor
  · intro h
    obtain ⟨u, hu⟩ := h
    obtain ⟨pk, hpk, _⟩ := abciUpdate_ok.mp hu
    exact ⟨pk, hpk⟩
  · intro h
    obtain ⟨pk, hpk⟩ := h
    exact ⟨_, abciUpdate_ok.mpr ⟨pk, hpk, rfl⟩⟩

theorem bondValidator_ends_iff (h : v.PowerFits r) :
    (∃ s', s.bondValidator r v = .ok s') ↔ v.status ≠ .unspecified := by
  unfold StakingState.bondValidator
  cases v.status with
  | bonded => exact iff_of_true ⟨_, rfl⟩ BondStatus.noConfusion
  | unspecified => exact iff_of_false (by simp [goPanic]) (fun hne => hne rfl)
  | unbonded =>
    exact iff_of_true ⟨_, (replaceValidator_ok (by rfl)).mpr ⟨h, rfl⟩⟩ BondStatus.noConfusion
  | unbonding =>
    exact iff_of_true ⟨_, (replaceValidator_ok (by rfl)).mpr ⟨h, rfl⟩⟩ BondStatus.noConfusion

theorem select_ends_iff {op : Addr} (hget : x.staking.validators.get op = some v)
    (h : v.PowerFits r) : (∃ y, x.select r v (x.staking.powerAt r op) = .ok y) ↔
      Bondable r x.last x.staking op ∧
        SumFits x.amtFromNotBondedToBonded v.entering.toList := by
  have hop : v.operatorAddress = op := Table.get_key hget
  obtain ⟨t, ht, hfit⟩ := h
  have hbond : Bondable r x.last x.staking op ↔ v.status ≠ .unspecified ∧
      (x.last.get op = some (op, x.staking.powerAt r op) ∨ v.consensusPubkey ≠ none) := by
    unfold Bondable
    rw [hget]
    simp
  have hfits : SumFits x.amtFromNotBondedToBonded v.entering.toList ↔
      ∃ amt, addBonded x.amtFromNotBondedToBonded v = .ok amt := by
    constructor
    · exact fun hs => ⟨_, (addBonded_ok ht).mpr ⟨hs, rfl⟩⟩
    · rintro ⟨_, hamt⟩
      exact ((addBonded_ok ht).mp hamt).1
  rw [hbond, ← bondValidator_ends_iff (s := x.staking) ⟨t, ht, hfit⟩, hfits]
  unfold Selection.select
  rw [hop]
  constructor
  · rintro ⟨y, hy⟩
    obtain ⟨t, ht, hy⟩ := bind_eq_ok.mp hy
    obtain ⟨amt, hamt, hy⟩ := bind_eq_ok.mp hy
    refine ⟨⟨⟨t, ht⟩, ?_⟩, amt, hamt⟩
    by_cases hsame : x.last.get op = some (op, x.staking.powerAt r op)
    · exact Or.inl hsame
    · dsimp only at hy
      rw [if_neg hsame] at hy
      obtain ⟨u, hu, _⟩ := bind_eq_ok.mp hy
      exact Or.inr (abciUpdate_ends_iff.mp ⟨u, hu⟩)
  · rintro ⟨⟨⟨t, ht⟩, hkey⟩, amt, hamt⟩
    by_cases hsame : x.last.get op = some (op, x.staking.powerAt r op)
    · exact ⟨_, bind_eq_ok.mpr ⟨t, ht, bind_eq_ok.mpr ⟨amt, hamt, if_pos hsame⟩⟩⟩
    · obtain ⟨u, hu⟩ := abciUpdate_ends_iff.mpr (hkey.resolve_left hsame)
      exact ⟨_, bind_eq_ok.mpr ⟨t, ht, bind_eq_ok.mpr ⟨amt, hamt,
        (if_neg hsame).trans (bind_eq_ok.mpr ⟨u, hu, rfl⟩)⟩⟩⟩

/-- bonding one validator changes nothing for a walk over the others, but the tokens so far -/
theorem select_rest {v : Validator Addr} {y : Selection Addr} (n : Nat) (hnew : op ∉ ops)
    (hget : x.staking.validators.get op = some v) (hj : v.jailed = false) (hfit : v.PowerFits r)
    (hy : x.select r v (x.staking.powerAt r op) = .ok y) :
    ((∀ a ∈ y.staking.readOps r n ops, Readable r y.staking a) ∧
      ∀ a ∈ y.staking.metOps r n ops, Bondable r y.last y.staking a) ∧
      SumFits y.amtFromNotBondedToBonded (y.staking.entering (y.staking.metOps r n ops)) ↔
    ((∀ a ∈ x.staking.readOps r n ops, Readable r x.staking a) ∧
      ∀ a ∈ x.staking.metOps r n ops, Bondable r x.last x.staking a) ∧
      SumFits (x.amtFromNotBondedToBonded + v.entering.toList.sum)
        (x.staking.entering (x.staking.metOps r n ops)) := by
  have hop : v.operatorAddress = op := Table.get_key hget
  rw [← hop] at hget
  obtain ⟨hone, hlast, hamt, _⟩ := select_settled 0 hget hj hy
  obtain ⟨t, ht, _⟩ := hfit
  rw [StakingState.readOps_congr hone.powerAt, StakingState.metOps_congr hone.powerAt,
    ((addBonded_ok ht).mp hamt).2]
  have hother : ∀ a ∈ ops, a ∉ [v.operatorAddress] := by
    intro a ha he
    rw [List.mem_singleton.mp he, hop] at ha
    exact hnew ha
  have hkept : ∀ a ∈ ops, y.staking.validators.get a = x.staking.validators.get a :=
    fun a ha => hone.get_other (hother a ha) List.not_mem_nil
  have hmet : ∀ a ∈ x.staking.metOps r n ops, a ∈ ops := fun a ha =>
    StakingState.readOps_subset a (StakingState.metOps_subset a ha)
  rw [StakingState.entering_congr (fun a ha => hkept a (hmet a ha))]
  refine and_congr_left' (and_congr ?_ ?_)
  · exact forall₂_congr (fun a ha => readable_congr (hkept a (StakingState.readOps_subset a ha)))
  · refine forall₂_congr (fun a ha => bondable_congr (hkept a (hmet a ha)) ?_)
    rw [hlast, Table.get_del, if_neg]
    exact fun he => hother a (hmet a ha) (List.mem_singleton.mpr he)

/-- **When a walk over different addresses ends**: it may read what it reads and bond what it meets, and
the tokens of the latter add up. -/
theorem walk_ends_iff (hops : ops.Nodup) : (∃ x', selectValidators r n ops x = .ok x') ↔
    ((∀ op ∈ x.staking.readOps r n ops, Readable r x.staking op) ∧
      ∀ op ∈ x.staking.metOps r n ops, Bondable r x.last x.staking op) ∧
      SumFits x.amtFromNotBondedToBonded (x.staking.entering (x.staking.metOps r n ops)) := by
  induction n generalizing ops x with
  | zero =>
    exact iff_of_true ⟨x, rfl⟩
      (by simp [StakingState.readOps, StakingState.metOps, StakingState.entering, SumFits])
  | succ n ih =>
    cases ops with
    | nil =>
      exact iff_of_true ⟨x, rfl⟩
        (by simp [StakingState.readOps, StakingState.metOps, StakingState.entering, SumFits])
    | cons op ops =>
      obtain ⟨hnew, hops⟩ := List.nodup_cons.mp hops
      by_cases h0 : x.staking.powerAt r op = 0
      · rw [StakingState.readOps_stop h0, StakingState.metOps_stop h0]
        constructor
        · intro h
          obtain ⟨x', h⟩ := h
          obtain ⟨v, hget, hj, hfit, _⟩ := walk_cons_ok.mp h
          exact ⟨⟨List.forall_mem_singleton.mpr ⟨v, hget, hj, hfit⟩, by simp⟩,
            by simp [StakingState.entering, SumFits]⟩
        · intro h
          obtain ⟨v, hget, hj, hfit⟩ := List.forall_mem_singleton.mp h.1.1
          exact ⟨x, walk_cons_ok.mpr ⟨v, hget, hj, hfit, by rw [if_pos h0]⟩⟩
      · rw [StakingState.readOps_next h0, StakingState.metOps_next h0, List.forall_mem_cons,
          List.forall_mem_cons]
        constructor
        · intro h
          obtain ⟨x', h⟩ := h
          obtain ⟨v, hget, hj, hfit, h⟩ := walk_cons_ok.mp h
          rw [if_neg h0] at h
          obtain ⟨y, hy, h⟩ := h
          obtain ⟨hbond, hsum⟩ := (select_ends_iff hget hfit).mp ⟨y, hy⟩
          obtain ⟨⟨hread, hmet⟩, hsums⟩ :=
            (select_rest n hnew hget hj hfit hy).mp ((ih hops).mp ⟨x', h⟩)
          rw [StakingState.entering_cons hget]
          exact ⟨⟨⟨⟨v, hget, hj, hfit⟩, hread⟩, hbond, hmet⟩, sumFits_append.mpr ⟨hsum, hsums⟩⟩
        · intro h
          obtain ⟨⟨⟨⟨v, hget, hj, hfit⟩, hread⟩, hbond, hmet⟩, hsums⟩ := h
          rw [StakingState.entering_cons hget, sumFits_append] at hsums
          obtain ⟨y, hy⟩ := (select_ends_iff hget hfit).mpr ⟨hbond, hsums.1⟩
          obtain ⟨x', hx'⟩ :=
            (ih hops).mpr ((select_rest n hnew hget hj hfit hy).mpr ⟨⟨hread, hmet⟩, hsums.2⟩)
          exact ⟨x', walk_cons_ok.mpr ⟨v, hget, hj, hfit, by
            rw [if_neg h0]
            exact ⟨y, hy, hx'⟩⟩⟩

end

/-! ## the whole call -/

section
variable {r height : ℤ} {s s' : StakingState Addr} {x x' : Selection Addr} {op : Addr}

theorem unbondStep_settled (h : unbondStep r height x op = .ok x') :
    Settled r height [] [op] x.staking x'.staking ∧
    x'.amtFromNotBondedToBonded = x.amtFromNotBondedToBonded ∧
    SumFits x.amtFromBondedToNotBonded (x.staking.leaving [op]) ∧
    x'.amtFromBondedToNotBonded
      = x.amtFromBondedToNotBonded + (x.staking.leaving [op]).sum := by
  obtain ⟨v, hv, h⟩ := bind_eq_ok.mp h
  have hget := mustGetValidator_ok.mp hv
  have hop : v.operatorAddress = op := Table.get_key hget
  obtain ⟨_, h⟩ := guard_eq_ok.mp h
  obtain ⟨staking, hst, h⟩ := bind_eq_ok.mp h
  obtain ⟨amt, hamt, h⟩ := bind_eq_ok.mp h
  obtain ⟨u, _, h⟩ := bind_eq_ok.mp h
  cases h
  obtain ⟨⟨t, ht, _⟩, rfl⟩ := (replaceValidator_ok (by rfl)).mp hst
  obtain ⟨hfits, rfl⟩ := (addTokens_ok ht).mp hamt
  have hleaving : x.staking.leaving [op] = v.tokens.toList := by
    rw [StakingState.leaving_cons hget]
    exact List.append_nil _
  rw [hleaving]
  refine ⟨?_, rfl, hfits, rfl⟩
  subst hop
  refine settled_replace hget (Or.inr ⟨rfl, rfl⟩) ?_ ?_ rfl
  · rw [settled_unbonded]
    rfl
  · rw [settled_unbonded]
    rfl

/-- the validator at an address may be unbonded and reported -/
def Unbondable (r : ℤ) (s : StakingState Addr) (op : Addr) : Prop :=
  ∃ v, s.validators.get op = some v ∧ v.status = .bonded ∧ v.PowerFits r ∧ v.consensusPubkey ≠ none

theorem unbondable_congr (h : s'.validators.get op = s.validators.get op) :
    Unbondable r s' op ↔ Unbondable r s op := by
  unfold Unbondable
  rw [h]

theorem unbondStep_ends_iff :
    (∃ x', unbondStep r height x op = .ok x') ↔ Unbondable r x.staking op ∧
      SumFits x.amtFromBondedToNotBonded (x.staking.leaving [op]) := by
  constructor
  · intro h
    obtain ⟨x', h⟩ := h
    refine ⟨?_, (unbondStep_settled h).2.2.1⟩
    obtain ⟨v, hv, h⟩ := bind_eq_ok.mp h
    obtain ⟨hst, h⟩ := guard_eq_ok.mp h
    obtain ⟨staking, hreplace, h⟩ := bind_eq_ok.mp h
    obtain ⟨amt, _, h⟩ := bind_eq_ok.mp h
    obtain ⟨u, hu, _⟩ := bind_eq_ok.mp h
    exact ⟨v, mustGetValidator_ok.mp hv, not_not.mp hst, ((replaceValidator_ok (by rfl)).mp hreplace).1,
      abciUpdate_ends_iff.mp ⟨u, hu⟩⟩
  · intro h
    obtain ⟨⟨v, hget, hst, hfit, hkey⟩, hsum⟩ := h
    rw [StakingState.leaving_cons hget, show x.staking.leaving [] = [] from rfl,
      List.append_nil] at hsum
    obtain ⟨u, hu⟩ := abciUpdate_ends_iff.mpr hkey
    obtain ⟨t, ht, hpower⟩ := hfit
    exact ⟨_, bind_eq_ok.mpr ⟨v, mustGetValidator_ok.mpr hget, guard_eq_ok.mpr ⟨not_not.mpr hst,
      bind_eq_ok.mpr ⟨_, (replaceValidator_ok (by rfl)).mpr ⟨⟨t, ht, hpower⟩, rfl⟩,
        bind_eq_ok.mpr ⟨_, (addTokens_ok ht).mpr ⟨hsum, rfl⟩, bind_eq_ok.mpr ⟨u, hu, rfl⟩⟩⟩⟩⟩⟩

theorem leaving_snoc {l : List Addr} {a : Addr} {s : StakingState Addr} :
    s.leaving (l ++ [a]) = s.leaving l ++ s.leaving [a] := List.flatMap_append

theorem unbond_settled {l : List Addr} (h : l.foldlM (unbondStep r height) x = .ok x') :
    Settled r height [] l x.staking x'.staking ∧
    x'.amtFromNotBondedToBonded = x.amtFromNotBondedToBonded ∧
    x'.amtFromBondedToNotBonded = x.amtFromBondedToNotBonded + (x.staking.leaving l).sum := by
  refine foldlM_ok (I := fun done t => Settled r height [] done x.staking t.staking ∧
    t.amtFromNotBondedToBonded = x.amtFromNotBondedToBonded ∧
    t.amtFromBondedToNotBonded = x.amtFromBondedToNotBonded + (x.staking.leaving done).sum) h
    ⟨Settled.refl _, rfl, (add_zero _).symm⟩ ?_
  intro done a rest t t' _ hI hstep
  obtain ⟨hone, hin, _, hout⟩ := unbondStep_settled hstep
  refine ⟨hI.1.trans hone (Or.inr rfl), hin.trans hI.2.1, ?_⟩
  rw [hout, hI.2.2, hI.1.leaving, leaving_snoc, List.sum_append, add_assoc]

theorem unbond_ends_iff {l : List Addr} (hl : l.Nodup) :
    (∃ x', l.foldlM (unbondStep r height) x = .ok x') ↔
      (∀ a ∈ l, Unbondable r x.staking a) ∧
        SumFits x.amtFromBondedToNotBonded (x.staking.leaving l) := by
  induction l generalizing x with
  | nil => exact iff_of_true ⟨x, rfl⟩ (by simp [StakingState.leaving, SumFits])
  | cons a l ih =>
    obtain ⟨hnew, hl⟩ := List.nodup_cons.mp hl
    have hcons : x.staking.leaving (a :: l) = x.staking.leaving [a] ++ x.staking.leaving l := by
      unfold StakingState.leaving
      rw [← List.flatMap_append, List.singleton_append]
    -- unbonding this validator changes nothing for the others
    have hrest : ∀ y, unbondStep r height x a = .ok y →
        ((∃ x', l.foldlM (unbondStep r height) y = .ok x') ↔ (∀ b ∈ l, Unbondable r x.staking b) ∧
          SumFits (x.amtFromBondedToNotBonded + (x.staking.leaving [a]).sum)
            (x.staking.leaving l)) := by
      intro y hy
      obtain ⟨hone, _, _, hout⟩ := unbondStep_settled hy
      rw [ih hl, hout, hone.leaving]
      refine and_congr_left' (forall₂_congr (fun b hb => ?_))
      refine unbondable_congr (hone.get_other List.not_mem_nil (fun he => ?_))
      rw [List.mem_singleton.mp he] at hb
      exact hnew hb
    rw [List.forall_mem_cons, hcons, sumFits_append]
    constructor
    · rintro ⟨x', h⟩
      obtain ⟨y, hy, h⟩ := foldlM_cons_ok.mp h
      obtain ⟨hun, hsum⟩ := unbondStep_ends_iff.mp ⟨y, hy⟩
      obtain ⟨huns, hsums⟩ := (hrest y hy).mp ⟨x', h⟩
      exact ⟨⟨hun, huns⟩, hsum, hsums⟩
    · rintro ⟨⟨hun, huns⟩, hsum, hsums⟩
      obtain ⟨y, hy⟩ := unbondStep_ends_iff.mpr ⟨hun, hsum⟩
      obtain ⟨x', hx'⟩ := (hrest y hy).mpr ⟨huns, hsums⟩
      exact ⟨x', foldlM_cons_ok.mpr ⟨y, hy, hx'⟩⟩

variable [LE Addr] [DecidableLE Addr]

/-- the operator addresses the call reads from the power index, and those it bonds -/
def StakingState.read (r : ℤ) (s : StakingState Addr) : List Addr :=
  s.readOps r s.maxValidators s.powerIndexOrder

def StakingState.bonds (r : ℤ) (s : StakingState Addr) : List Addr :=
  s.metOps r s.maxValidators s.powerIndexOrder

/-- the operator addresses that have a last power and are not met, in their order -/
def StakingState.noLongerBonded (r : ℤ) (s : StakingState Addr) : List Addr :=
  ((s.lastValidatorPower.rows.filter fun e => decide (e.1 ∉ s.bonds r)).map Prod.fst).insertionSort
    (· ≤ ·)

theorem mem_noLongerBonded :
    op ∈ s.noLongerBonded r ↔ op ∈ s.lastValidatorPower.keys ∧ op ∉ s.bonds r := by
  unfold StakingState.noLongerBonded
  rw [List.mem_insertionSort, List.mem_map]
  constructor
  · rintro ⟨e, he, rfl⟩
    obtain ⟨he, hnot⟩ := List.mem_filter.mp he
    exact ⟨List.mem_map_of_mem he, of_decide_eq_true hnot⟩
  · rintro ⟨hk, hnot⟩
    obtain ⟨e, he, rfl⟩ := List.mem_map.mp hk
    exact ⟨e, List.mem_filter.mpr ⟨he, decide_eq_true hnot⟩, rfl⟩

theorem nodup_noLongerBonded : (s.noLongerBonded r).Nodup :=
  (List.perm_insertionSort _ _).nodup_iff.mpr (s.lastValidatorPower.nodup_filter _)

/-- the loops, with the second over the addresses that are not met -/
theorem updateValidatorSet_eq (h : s.updateValidatorSet r height = .ok x) : ∃ y,
    selectValidators r s.maxValidators s.powerIndexOrder (.start s) = .ok y ∧
      (s.noLongerBonded r).foldlM (unbondStep r height) y = .ok x := by
  obtain ⟨y, hy, h⟩ := bind_eq_ok.mp h
  have hlast := (walk_settled height hy).2.1
  refine ⟨y, hy, ?_⟩
  rw [hlast] at h
  exact h

/-- **What the loops did**, if they ended. -/
theorem updateValidatorSet_settled (h : s.updateValidatorSet r height = .ok x) :
    Settled r height (s.bonds r) (s.noLongerBonded r) s x.staking := by
  obtain ⟨y, hy, h⟩ := updateValidatorSet_eq h
  have hall := (walk_settled height hy).1.trans (unbond_settled h).1 (Or.inl rfl)
  rw [List.append_nil, List.nil_append] at hall
  exact hall

theorem updateValidatorSet_amounts (hs : s.powerIndexOrder.Nodup)
    (h : s.updateValidatorSet r height = .ok x) :
    x.amtFromNotBondedToBonded = (s.entering (s.bonds r)).sum ∧
    x.amtFromBondedToNotBonded = (s.leaving (s.noLongerBonded r)).sum := by
  obtain ⟨y, hy, h⟩ := updateValidatorSet_eq h
  obtain ⟨hwalk, _, hout⟩ := walk_settled height hy
  obtain ⟨_, hin, hout'⟩ := unbond_settled h
  have hamount := walk_amount hs hy
  rw [hin, hout', hout, hamount, hwalk.leaving]
  exact ⟨zero_add _, zero_add _⟩

/-- The loops may read what they read from the power index, bond what they meet there, and unbond who
else has a last power, and the tokens of either add up. -/
structure Updatable (r : ℤ) (s : StakingState Addr) : Prop where
  readable : ∀ op ∈ s.read r, Readable r s op
  bondable : ∀ op ∈ s.bonds r, Bondable r s.lastValidatorPower s op
  unbondable : ∀ op ∈ s.lastValidatorPower.keys, op ∉ s.bonds r → Unbondable r s op
  bonded : SumFits 0 (s.entering (s.bonds r))
  unbonded : SumFits 0 (s.leaving (s.noLongerBonded r))

/-- **When they end.** -/
theorem updateValidatorSet_ends_iff (height : ℤ) (hs : s.powerIndexOrder.Nodup) :
    (∃ x, s.updateValidatorSet r height = .ok x) ↔ Updatable r s := by
  have hwalk : (∃ x, selectValidators r s.maxValidators s.powerIndexOrder (.start s) = .ok x) ↔
      ((∀ op ∈ s.read r, Readable r s op) ∧
        ∀ op ∈ s.bonds r, Bondable r s.lastValidatorPower s op) ∧
        SumFits 0 (s.entering (s.bonds r)) := walk_ends_iff (x := .start s) hs
  -- the walk changes nothing about those it did not meet
  have hrest : ∀ y, selectValidators r s.maxValidators s.powerIndexOrder (.start s) = .ok y →
      ((∃ x, (s.noLongerBonded r).foldlM (unbondStep r height) y = .ok x) ↔
        (∀ op ∈ s.lastValidatorPower.keys, op ∉ s.bonds r → Unbondable r s op) ∧
          SumFits 0 (s.leaving (s.noLongerBonded r))) := by
    intro y hy
    obtain ⟨hset, _, hout⟩ := walk_settled height hy
    rw [unbond_ends_iff nodup_noLongerBonded, hout, hset.leaving]
    refine and_congr_left' ?_
    have hkept : ∀ op, op ∉ s.bonds r → (Unbondable r y.staking op ↔ Unbondable r s op) :=
      fun op hop => unbondable_congr (hset.get_other hop List.not_mem_nil)
    constructor
    · intro h op hop hnot
      exact (hkept op hnot).mp (h op (mem_noLongerBonded.mpr ⟨hop, hnot⟩))
    · intro h op hop
      obtain ⟨hkey, hnot⟩ := mem_noLongerBonded.mp hop
      exact (hkept op hnot).mpr (h op hkey hnot)
  constructor
  · rintro ⟨x, h⟩
    obtain ⟨y, hy, h⟩ := updateValidatorSet_eq h
    obtain ⟨⟨hread, hbond⟩, hin⟩ := hwalk.mp ⟨y, hy⟩
    obtain ⟨hunbond, hout⟩ := (hrest y hy).mp ⟨x, h⟩
    exact ⟨hread, hbond, hunbond, hin, hout⟩
  · intro h
    obtain ⟨y, hy⟩ := hwalk.mpr ⟨⟨h.readable, h.bondable⟩, h.bonded⟩
    obtain ⟨x, hx⟩ := (hrest y hy).mpr ⟨h.unbondable, h.unbonded⟩
    refine ⟨x, bind_eq_ok.mpr ⟨y, hy, ?_⟩⟩
    rw [(walk_settled height hy).2.1]
    exact hx

end

end MeChain
