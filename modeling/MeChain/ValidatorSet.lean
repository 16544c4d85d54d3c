import MeChain.Bank
import MeChain.Staking

/-!
# The validator set at the end of a block

`ApplyAndReturnValidatorSetUpdates` walks the power index from the highest power down, bonds the
first validators and reports those whose power differs from the last one reported; whoever is left
among the last powers is unbonded and reported with power zero.  The tokens of those that were bonded
or unbonded then move between two pools.  The consensus engine applies the updates to its own set.

* `ranking`, `selected`   the validators by power, and those the application wants to be active;
* `selectValidators`      the walk over the power index;
* `met`, `reports`        the validators it meets, their keys and powers;
* `selectValidators_fresh`  without last powers it reports exactly these;
* `replaceValidator`      a validator's record replaced and its index entry made anew;
* `updatePools`           the payment between the pools;
* `applyUpdates`          the consensus engine's set after a list of updates;
* `jail`                  a validator taken out of the power index.

The unbonding queue, completion times and the hooks of other modules are left out: nothing here reads
them.
-/

set_option linter.unusedSectionVars false

namespace MeChain
open Fallible

variable {Addr : Type} [SdkAddress Addr] [DecidableEq Addr]

/-- a key and its power in the consensus engine; power zero removes the key -/
abbrev ValidatorUpdate := PubKey × ℤ

/-! ## the consensus engine -/

/-- one update of the consensus engine's set -/
def applyUpdate (set : Index PubKey ℤ) (u : ValidatorUpdate) : Index PubKey ℤ :=
  if u.2 = 0 then set.del u.1 else set.put u

def applyUpdates (set : Index PubKey ℤ) (updates : List ValidatorUpdate) : Index PubKey ℤ :=
  updates.foldl applyUpdate set

/-! ## the staking keeper -/

namespace StakingState

/-- `mustGetValidator` -/
def mustGetValidator (s : StakingState Addr) (op : Addr) : Res (Validator Addr) :=
  match s.validators.get op with
  | some v => .ok v
  | none => goPanic "validator record not found for address"

/-- `Jail`, by consensus address -/
def jail (r : ℤ) (s : StakingState Addr) (consAddr : Addr) : Res (StakingState Addr) := do
  let e ← deref (s.validatorsByConsAddr.get consAddr)
  let v ← s.mustGetValidator e.2
  if v.jailed then goPanic "cannot jail already jailed validator"
  else (s.setValidator { v with jailed := true }).deleteValidatorByPowerIndex r v

def setLastValidatorPower (s : StakingState Addr) (op : Addr) (power : ℤ) : StakingState Addr :=
  { s with lastValidatorPower := s.lastValidatorPower.put (op, power) }

/-- the record of a validator replaced, and its entry in the power index entered anew, which a jailed
validator does not get back -/
def replaceValidator (r : ℤ) (s : StakingState Addr) (v v' : Validator Addr) :
    Res (StakingState Addr) := do
  let s ← s.deleteValidatorByPowerIndex r v
  (s.setValidator v').setValidatorByPowerIndex r v'

/-- `unbondedToBonded` and `unbondingToBonded`; a bonded validator stays as it is -/
def bondValidator (r : ℤ) (s : StakingState Addr) (v : Validator Addr) : Res (StakingState Addr) :=
  match v.status with
  | .bonded => .ok s
  | .unspecified => goPanic "unexpected validator status"
  | _ => s.replaceValidator r v { v with status := .bonded }

end StakingState

/-- `ABCIValidatorUpdate` -/
def Validator.abciUpdate (v : Validator Addr) (power : ℤ) : Res ValidatorUpdate :=
  match v.consensusPubkey with
  | some pk => .ok (pk, power)
  | none => goPanic "expecting a public key"

/-- what the walk over the power index carries along: the store, the last powers not met yet, the
updates so far, the tokens of those bonded and of those unbonded -/
structure Selection (Addr : Type) where
  staking : StakingState Addr
  last : Index Addr ℤ
  updates : List ValidatorUpdate
  amtFromNotBondedToBonded : ℤ
  amtFromBondedToNotBonded : ℤ

def Selection.start (s : StakingState Addr) : Selection Addr := ⟨s, s.lastValidatorPower, [], 0, 0⟩

/-- `GetTokens`, added up -/
def addTokens (amt : ℤ) (v : Validator Addr) : Res ℤ := do
  let t ← deref v.tokens
  SdkInt.add amt t

/-- the tokens that have to be in the other pool, when a validator is bonded that was not -/
def addBonded (amt : ℤ) (v : Validator Addr) : Res ℤ :=
  if v.status = .bonded then .ok amt else addTokens amt v

/-- bond one validator, and report it unless its last power is the same -/
def Selection.select (r : ℤ) (x : Selection Addr) (v : Validator Addr) (power : ℤ) :
    Res (Selection Addr) := do
  let staking ← x.staking.bondValidator r v
  let amt ← addBonded x.amtFromNotBondedToBonded v
  let x := { x with staking := staking, amtFromNotBondedToBonded := amt }
  if x.last.get v.operatorAddress = some (v.operatorAddress, power) then
    .ok { x with last := x.last.del v.operatorAddress }
  else do
    let u ← v.abciUpdate power
    .ok { x with
      staking := staking.setLastValidatorPower v.operatorAddress power
      last := x.last.del v.operatorAddress
      updates := x.updates ++ [u] }

/-- the walk over the power index: at most `n` validators, none without power -/
def selectValidators (r : ℤ) : Nat → List Addr → Selection Addr → Res (Selection Addr)
  | 0, _, x => .ok x
  | _ + 1, [], x => .ok x
  | n + 1, op :: ops, x => do
    let v ← x.staking.mustGetValidator op
    if v.jailed then goPanic "should never retrieve a jailed validator from the power store"
    else do
      let power ← tokensToConsensusPower r v.tokens
      if power = 0 then .ok x
      else do
        let x ← x.select r v power
        selectValidators r n ops x

/-- `bondedToUnbonding` of a validator that is no longer selected, reported with power zero -/
def unbondStep (r height : ℤ) (x : Selection Addr) (op : Addr) : Res (Selection Addr) := do
  let v ← x.staking.mustGetValidator op
  if v.status ≠ .bonded then goPanic "bad state transition bondedToUnbonding"
  else do
    let staking ← x.staking.replaceValidator r v
      { v with status := .unbonding, unbondingHeight := height }
    let amt ← addTokens x.amtFromBondedToNotBonded v
    let u ← v.abciUpdate 0
    .ok { x with
      staking := staking.deleteLastValidatorPower op
      updates := x.updates ++ [u]
      amtFromBondedToNotBonded := amt }

/-- the consensus power of a validator -/
def Validator.power (r : ℤ) (v : Validator Addr) : ℤ := consensusPower r (v.tokens.getD 0)

/-- the key of a validator with its power -/
def Validator.report (r : ℤ) (v : Validator Addr) : Option ValidatorUpdate :=
  v.consensusPubkey.map fun pk => (pk, v.power r)

/-- the key and power of the validator at an address -/
def StakingState.reportAt (r : ℤ) (s : StakingState Addr) (op : Addr) : Option ValidatorUpdate :=
  (s.validators.get op).bind (Validator.report r)

section
variable [LE Addr] [DecidableLE Addr]

/-- the order of the power index: higher powers first, equal powers by operator address -/
def EntryBefore (e f : (ℤ × Addr) × Addr) : Prop :=
  f.1.1 < e.1.1 ∨ e.1.1 = f.1.1 ∧ e.1.2 ≤ f.1.2

instance : DecidableRel (fun e f : (ℤ × Addr) × Addr => EntryBefore e f) :=
  fun _ _ => inferInstanceAs (Decidable (_ ∨ _))

/-- the operator addresses as the power index lists them -/
def StakingState.powerIndexOrder (s : StakingState Addr) : List Addr :=
  (s.validatorsByPowerIndex.rows.insertionSort EntryBefore).map Prod.snd

/-- the loops of `ApplyAndReturnValidatorSetUpdates` -/
def StakingState.updateValidatorSet (r height : ℤ) (s : StakingState Addr) : Res (Selection Addr) := do
  let x ← selectValidators r s.maxValidators s.powerIndexOrder (.start s)
  let noLongerBonded := (x.last.rows.map Prod.fst).insertionSort (· ≤ ·)
  noLongerBonded.foldlM (unbondStep r height) x

/-- the validators that the walk over the power index meets, up to the first without power -/
def StakingState.met (r : ℤ) (s : StakingState Addr) : List (Validator Addr) :=
  ((s.powerIndexOrder.take s.maxValidators).filterMap s.validators.get).takeWhile
    fun v => v.power r ≠ 0

/-- their keys and powers -/
def StakingState.reports (r : ℤ) (s : StakingState Addr) : List ValidatorUpdate :=
  ((s.powerIndexOrder.take s.maxValidators).filterMap (s.reportAt r)).takeWhile fun u => u.2 ≠ 0

/-! ## the pools -/

namespace App

/-- the coins of one token pool sent to the other -/
def sendTokens (cfg : Config Addr) (ctx : Context) (s : App Addr) (senderPool recipientPool : String)
    (tokens : ℤ) : Res (App Addr) := do
  let coin ← newCoin s.staking.bondDenom tokens
  panicOnError (s.sendCoinsFromModuleToModule cfg ctx senderPool recipientPool [coin])

def bondedTokensToNotBonded (cfg : Config Addr) (ctx : Context) (s : App Addr) (tokens : ℤ) :
    Res (App Addr) :=
  s.sendTokens cfg ctx cfg.names.bondedPool cfg.names.notBondedPool tokens

def notBondedTokensToBonded (cfg : Config Addr) (ctx : Context) (s : App Addr) (tokens : ℤ) :
    Res (App Addr) :=
  s.sendTokens cfg ctx cfg.names.notBondedPool cfg.names.bondedPool tokens

/-- one payment for the difference -/
def updatePools (cfg : Config Addr) (ctx : Context) (s : App Addr)
    (amtFromNotBondedToBonded amtFromBondedToNotBonded : ℤ) : Res (App Addr) :=
  if amtFromBondedToNotBonded < amtFromNotBondedToBonded then do
    let amt ← SdkInt.sub amtFromNotBondedToBonded amtFromBondedToNotBonded
    s.notBondedTokensToBonded cfg ctx amt
  else if amtFromNotBondedToBonded < amtFromBondedToNotBonded then do
    let amt ← SdkInt.sub amtFromBondedToNotBonded amtFromNotBondedToBonded
    s.bondedTokensToNotBonded cfg ctx amt
  else .ok s

def applyAndReturnValidatorSetUpdates (cfg : Config Addr) (ctx : Context) (s : App Addr) :
    Res (App Addr × List ValidatorUpdate) := do
  let x ← s.staking.updateValidatorSet cfg.powerReduction ctx.blockHeight
  let s ← { s with staking := x.staking }.updatePools cfg ctx x.amtFromNotBondedToBonded
    x.amtFromBondedToNotBonded
  .ok (s, x.updates)

end App

/-! ## the selection, from the validator table -/

/-- the entry of a validator in the power index -/
def Validator.entry (r : ℤ) (v : Validator Addr) : (ℤ × Addr) × Addr :=
  (powerKey r v.tokens v.operatorAddress, v.operatorAddress)

/-- `v` ranks before `w`: it has more power, or as much and a smaller operator address -/
def RanksBefore (r : ℤ) (v w : Validator Addr) : Prop :=
  w.power r < v.power r ∨ v.power r = w.power r ∧ v.operatorAddress ≤ w.operatorAddress

instance (r : ℤ) : DecidableRel (fun v w : Validator Addr => RanksBefore r v w) :=
  fun _ _ => inferInstanceAs (Decidable (_ ∨ _))

/-- the validators that are not jailed, the most powerful first -/
def StakingState.ranking (r : ℤ) (s : StakingState Addr) : List (Validator Addr) :=
  (s.validators.rows.filter fun v => !v.jailed).insertionSort (RanksBefore r)

/-- the validators with the top `maxValidators` powers, as far as they have power -/
def StakingState.selected (r : ℤ) (s : StakingState Addr) : List (Validator Addr) :=
  ((s.ranking r).take s.maxValidators).takeWhile fun v => v.power r ≠ 0

/-- their keys and powers: what the consensus engine should have -/
def StakingState.activeSet (r : ℤ) (s : StakingState Addr) : List ValidatorUpdate :=
  (s.selected r).filterMap (Validator.report r)

end

/-! ## the walk without last powers -/

section
variable {r : ℤ} {n : Nat} {ops : List Addr} {x x' : Selection Addr} {v : Validator Addr}

theorem mustGetValidator_ok {s : StakingState Addr} {op : Addr} :
    s.mustGetValidator op = .ok v ↔ s.validators.get op = some v := by
  unfold StakingState.mustGetValidator
  cases s.validators.get op with
  | none => simp [goPanic]
  | some w => simp

/-- the power index after the entry of `v` was deleted and that of `v'` made -/
def reenter (r : ℤ) (v v' : Validator Addr) (powers : Index (ℤ × Addr) Addr) :
    Index (ℤ × Addr) Addr :=
  let powers := powers.del (powerKey r v.tokens v.operatorAddress)
  if v'.jailed then powers
  else powers.put (powerKey r v'.tokens v'.operatorAddress, v'.operatorAddress)

theorem replaceValidator_ok {s s' : StakingState Addr} {v' : Validator Addr}
    (ht : v'.tokens = v.tokens) : s.replaceValidator r v v' = .ok s' ↔
    (∃ t, v.tokens = some t ∧ Int64.fits (consensusPower r t)) ∧
      s' = { s with
        validators := s.validators.put v'
        validatorsByPowerIndex := reenter r v v' s.validatorsByPowerIndex } := by
  constructor
  · intro h
    obtain ⟨t, hdel, h⟩ := bind_eq_ok.mp h
    obtain ⟨htok, rfl⟩ := StakingState.deleteValidatorByPowerIndex_ok.mp hdel
    obtain ⟨_, rfl⟩ := StakingState.setValidatorByPowerIndex_ok.mp h
    exact ⟨htok, rfl⟩
  · intro h
    obtain ⟨htok, rfl⟩ := h
    exact bind_eq_ok.mpr ⟨_, StakingState.deleteValidatorByPowerIndex_ok.mpr ⟨htok, rfl⟩,
      StakingState.setValidatorByPowerIndex_ok.mpr ⟨fun _ => ht ▸ htok, rfl⟩⟩

theorem bondValidator_ok {s s' : StakingState Addr} (h : s.bondValidator r v = .ok s') :
    (v.status = .bonded ∧ s' = s) ∨
      s.replaceValidator r v { v with status := .bonded } = .ok s' := by
  unfold StakingState.bondValidator at h
  cases hst : v.status with
  | bonded =>
    simp only [hst] at h
    cases h
    exact Or.inl ⟨rfl, rfl⟩
  | unspecified => simp [hst, goPanic] at h
  | unbonded =>
    simp only [hst] at h
    exact Or.inr h
  | unbonding =>
    simp only [hst] at h
    exact Or.inr h

theorem abciUpdate_ok {power : ℤ} {u : ValidatorUpdate} :
    v.abciUpdate power = .ok u ↔ ∃ pk, v.consensusPubkey = some pk ∧ u = (pk, power) := by
  unfold Validator.abciUpdate
  cases v.consensusPubkey with
  | none => simp [goPanic]
  | some pk => simp [eq_comm]

/-- every validator of the store has a key -/
def StakingState.Keyed (s : StakingState Addr) : Prop :=
  ∀ v ∈ s.validators.rows, v.consensusPubkey ≠ none

instance (s : StakingState Addr) : Decidable s.Keyed :=
  inferInstanceAs (Decidable (∀ v ∈ s.validators.rows, _))

theorem bondValidator_report {s s' : StakingState Addr}
    (hv : s.validators.get v.operatorAddress = some v) (h : s.bondValidator r v = .ok s') :
    s'.reportAt r = s.reportAt r ∧ (s.Keyed → s'.Keyed) := by
  rcases bondValidator_ok h with ⟨_, rfl⟩ | h
  · exact ⟨rfl, fun hk => hk⟩
  · obtain ⟨_, rfl⟩ := (replaceValidator_ok (by rfl)).mp h
    constructor
    · funext op
      unfold StakingState.reportAt
      show ((s.validators.put { v with status := .bonded }).get op).bind _ = _
      rw [Table.get_put]
      by_cases hop : op = v.operatorAddress
      · rw [if_pos hop, hop, hv]
        rfl
      · rw [if_neg hop]
    · intro hk w hw
      rcases Table.mem_put.mp hw with rfl | ⟨hw, _⟩
      · exact hk v (Table.mem_of_get hv)
      · exact hk w hw

theorem select_fresh {power : ℤ} (hlast : x.last.rows = [])
    (hv : x.staking.validators.get v.operatorAddress = some v) (h : x.select r v power = .ok x') :
    x'.last.rows = [] ∧
    (∃ pk, v.consensusPubkey = some pk ∧ x'.updates = x.updates ++ [(pk, power)]) ∧
    x'.staking.reportAt r = x.staking.reportAt r ∧ (x.staking.Keyed → x'.staking.Keyed) := by
  obtain ⟨staking, hst, h⟩ := bind_eq_ok.mp h
  obtain ⟨amt, _, h⟩ := bind_eq_ok.mp h
  have hnone : x.last.get v.operatorAddress = none := by
    rw [Table.get_eq_none_iff, Table.keys, hlast]
    exact List.not_mem_nil
  dsimp only at h
  rw [hnone, if_neg (by simp)] at h
  obtain ⟨u, hu, h⟩ := bind_eq_ok.mp h
  obtain ⟨pk, hpk, rfl⟩ := abciUpdate_ok.mp hu
  cases h
  have hbond := bondValidator_report (r := r) hv hst
  refine ⟨?_, ⟨pk, hpk, rfl⟩, hbond⟩
  show x.last.rows.filter _ = []
  rw [hlast]
  rfl

/-- **The walk without last powers** reports the keys and powers it meets, up to the first validator
without power, and finds nobody to remove. -/
theorem selectValidators_fresh (hlast : x.last.rows = []) (hkeyed : x.staking.Keyed)
    (h : selectValidators r n ops x = .ok x') :
    x'.last.rows = [] ∧ x'.updates = x.updates
      ++ ((ops.take n).filterMap (x.staking.reportAt r)).takeWhile fun u => u.2 ≠ 0 := by
  induction n generalizing ops x with
  | zero =>
    cases h
    exact ⟨hlast, (List.append_nil _).symm⟩
  | succ n ih =>
    cases ops with
    | nil =>
      cases h
      exact ⟨hlast, (List.append_nil _).symm⟩
    | cons op ops =>
      obtain ⟨v, hv, h⟩ := bind_eq_ok.mp h
      have hget := mustGetValidator_ok.mp hv
      have hop : v.operatorAddress = op := Table.get_key hget
      obtain ⟨pk, hpk⟩ := Option.ne_none_iff_exists'.mp (hkeyed v (Table.mem_of_get hget))
      obtain ⟨_, h⟩ := guard_eq_ok.mp h
      obtain ⟨power, hp, h⟩ := bind_eq_ok.mp h
      obtain ⟨t, ht, _, rfl⟩ := tokensToConsensusPower_ok.mp hp
      have hpower : v.power r = consensusPower r t := by rw [Validator.power, ht, Option.getD_some]
      have hreport : x.staking.reportAt r op = some (pk, v.power r) := by
        rw [StakingState.reportAt, hget, Option.bind_some, Validator.report, hpk]
        rfl
      rw [← hpower] at h
      rw [List.take_succ_cons, List.filterMap_cons, hreport]
      dsimp only
      rw [List.takeWhile_cons]
      by_cases h0 : v.power r = 0
      · rw [if_pos h0] at h
        cases h
        rw [if_neg (by simpa using h0), List.append_nil]
        exact ⟨hlast, rfl⟩
      · rw [if_neg h0] at h
        obtain ⟨y, hy, h⟩ := bind_eq_ok.mp h
        rw [← hop] at hget
        obtain ⟨hlast', ⟨pk', hpk', hups⟩, hsame, hkeyed'⟩ := select_fresh (r := r) hlast hget hy
        rw [hpk] at hpk'
        cases hpk'
        obtain ⟨hl, hrest⟩ := ih hlast' (hkeyed' hkeyed) h
        rw [hsame, hups, List.append_assoc] at hrest
        rw [if_pos (by simpa using h0)]
        exact ⟨hl, hrest⟩

end

/-! ## updates without removals -/

section
variable {set : Index PubKey ℤ} {updates : List ValidatorUpdate} {pk : PubKey}

theorem mem_keys_applyUpdates (h : ∀ u ∈ updates, u.2 ≠ 0) (hk : pk ∈ set.keys) :
    pk ∈ (applyUpdates set updates).keys := by
  refine foldl_run (I := fun _ t => pk ∈ Table.keys t) hk ?_
  intro done u rest t hl hI
  rw [applyUpdate, if_neg (h u (by rw [hl]; simp))]
  exact Table.mem_keys_put.mpr (Or.inr hI)

/-- the set after updates that remove nothing and do not contradict each other -/
theorem mem_applyUpdates (h : ∀ u ∈ updates, u.2 ≠ 0)
    (hfun : ∀ u ∈ updates, ∀ w ∈ updates, u.1 = w.1 → u = w) {e : ValidatorUpdate} :
    e ∈ (applyUpdates set updates).rows ↔
      e ∈ updates ∨ e ∈ set.rows ∧ ∀ u ∈ updates, u.1 ≠ e.1 := by
  refine foldl_run (I := fun done t => e ∈ Table.rows t ↔
    e ∈ done ∨ e ∈ set.rows ∧ ∀ u ∈ done, u.1 ≠ e.1) (by simp) ?_
  intro done u rest t hl hI
  have hu : u ∈ updates := by
    rw [hl]
    simp
  rw [applyUpdate, if_neg (h u hu), Table.mem_put, hI]
  simp only [List.mem_append, List.mem_singleton]
  constructor
  · intro he
    rcases he with rfl | ⟨he | ⟨hs, hd⟩, hne⟩
    · exact Or.inl (Or.inr rfl)
    · exact Or.inl (Or.inl he)
    · refine Or.inr ⟨hs, fun w hw => ?_⟩
      rcases hw with hw | rfl
      · exact hd w hw
      · exact hne.symm
  · intro he
    by_cases heu : e = u
    · exact Or.inl heu
    · rcases he with (he | he) | ⟨hs, hd⟩
      · refine Or.inr ⟨Or.inl he, fun hk => heu ?_⟩
        exact hfun e (by rw [hl]; simp [he]) u hu hk
      · exact absurd he heu
      · exact Or.inr ⟨Or.inr ⟨hs, fun w hw => hd w (Or.inl hw)⟩, (hd u (Or.inr rfl)).symm⟩

end

end MeChain
