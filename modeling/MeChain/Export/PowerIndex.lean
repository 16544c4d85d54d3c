import MeChain.Export.FeeProgress
import MeChain.Export.Heights

/-!
# The power index through the zero-height export

The export jails the validators outside the allow list by a write of their records, which leaves their
entries in the power index, and then has the validator set updated from that index.

* `PowerIndexExact`         the index has the entries of the validators that are not jailed;
* `reset_jailed`            who is jailed after the traversal;
* `powerIndexExact_settled` when the index is exact after the updates;
* `exportsIndex_iff`        when the export completes with an exact index.
-/

set_option linter.unusedSectionVars false

namespace MeChain
open Fallible

variable {Addr : Type} [SdkAddress Addr] [DecidableEq Addr] [ValAddress Addr]

/-- the power index contains the entries of the validators that are not jailed, and nothing else -/
def PowerIndexExact (r : ℤ) (s : StakingState Addr) : Prop :=
  ∀ e, e ∈ s.validatorsByPowerIndex.rows ↔
    ∃ v ∈ s.validators.rows, v.jailed = false ∧ e = v.entry r

/-- no address of the list is this one -/
def Unlisted (jailAllowedAddrs : List String) (op : Addr) : Prop :=
  ∀ a ∈ jailAllowedAddrs, valAddressFromBech32 a ≠ .ok op

/-- the allow list compares spellings: an address that no entry stands for is excluded -/
theorem Unlisted.excluded {l : List String} {op : Addr} (h : Unlisted l op) (hl : l ≠ []) :
    Excluded l op :=
  ⟨hl, fun hmem => h _ hmem (ValAddress.valFromBech32_str op)⟩

section
variable {l : List String} {s t : StakingState Addr} {v : Validator Addr} {r height : ℤ}

theorem reset_jailed : (v.reset l).jailed = true ↔ v.jailed = true ∨ Excluded l v.operatorAddress := by
  unfold Validator.reset
  dsimp only
  split
  · rename_i hex
    simp [hex]
  · rename_i hin
    simp [hin]

theorem reset_not_jailed :
    (v.reset l).jailed = false ↔ v.jailed = false ∧ ¬ Excluded l v.operatorAddress := by
  rw [← Bool.not_eq_true, reset_jailed, not_or, Bool.not_eq_true]

@[simp] theorem reset_status : (v.reset l).status = v.status := by
  unfold Validator.reset
  dsimp only
  split <;> rfl

@[simp] theorem reset_consensusPubkey : (v.reset l).consensusPubkey = v.consensusPubkey := by
  unfold Validator.reset
  dsimp only
  split <;> rfl

theorem reset_powerFits : (v.reset l).PowerFits r ↔ v.PowerFits r := by
  unfold Validator.PowerFits
  rw [reset_tokens]

theorem reset_entry : (v.reset l).entry r = v.entry r := by
  unfold Validator.entry
  rw [reset_tokens, reset_operatorAddress]

theorem PowerIndexExact.entered {ops : List Addr} (h : PowerIndexExact r s) :
    Entered r ops (s.resetHeights l) where
  address e he := by
    obtain ⟨v, _, _, rfl⟩ := (h e).mp he
    rfl
  entries w hw _ hj := by
    obtain ⟨v, hv, rfl⟩ := mem_resetHeights.mp hw
    rw [reset_entry]
    exact (h _).mpr ⟨v, hv, (reset_not_jailed.mp hj).1, rfl⟩

/-- **After the updates** the index is exact when every excluded validator that was in it has been
unbonded. -/
theorem powerIndexExact_settled {bonded unbonded : List Addr} (h : PowerIndexExact r s)
    (hset : Settled r height bonded unbonded (s.resetHeights l) t) : PowerIndexExact r t ↔
    ∀ v ∈ s.validators.rows, v.jailed = false → Excluded l v.operatorAddress →
      v.operatorAddress ∈ unbonded := by
  have hpower := hset.power h.entered
  constructor
  · intro hexact v hv hj hex
    by_contra hnot
    have hkept : v.entry r ∈ t.validatorsByPowerIndex.rows := by
      refine (hpower _).mpr ⟨(h _).mpr ⟨v, hv, hj, rfl⟩, fun hgone => ?_⟩
      obtain ⟨w, _, hop, _, he⟩ := hgone
      rw [← entry_operatorAddress he] at hop
      exact hnot hop
    obtain ⟨w, hw, hwj, he⟩ := (hexact _).mp hkept
    obtain ⟨z, hz, rfl⟩ := (mem_settled_reset hset).mp hw
    rw [settled_jailed, reset_not_jailed] at hwj
    rw [settled_entry, reset_entry] at he
    rw [Table.eq_of_key hv hz (entry_operatorAddress he)] at hex
    exact hwj.2 hex
  · intro hall e
    rw [hpower]
    constructor
    · intro he
      obtain ⟨v, hv, hj, rfl⟩ := (h e).mp he.1
      have hin : ¬ Excluded l v.operatorAddress := by
        intro hex
        refine he.2 ⟨v.reset l, mem_resetHeights.mpr ⟨v, hv, rfl⟩, ?_, reset_jailed.mpr (Or.inr hex),
          reset_entry.symm⟩
        rw [reset_operatorAddress]
        exact hall v hv hj hex
      refine ⟨_, (mem_settled_reset hset).mpr ⟨v, hv, rfl⟩, ?_, ?_⟩
      · rw [settled_jailed]
        exact reset_not_jailed.mpr ⟨hj, hin⟩
      · rw [settled_entry, reset_entry]
    · intro he
      obtain ⟨w, hw, hj, rfl⟩ := he
      obtain ⟨v, hv, rfl⟩ := (mem_settled_reset hset).mp hw
      rw [settled_jailed] at hj
      rw [settled_entry, reset_entry]
      refine ⟨(h _).mpr ⟨v, hv, (reset_not_jailed.mp hj).1, rfl⟩, fun hgone => ?_⟩
      obtain ⟨z, hz, _, hzj, he⟩ := hgone
      obtain ⟨v', hv', rfl⟩ := mem_resetHeights.mp hz
      rw [reset_entry] at he
      rw [← Table.eq_of_key hv hv' (entry_operatorAddress he), hj] at hzj
      cases hzj

end

section
variable [LE Addr] [DecidableLE Addr] {x : ExportConfig Addr} {ctx : Context} {l : List String}
  {s s' : App Addr} {r : ℤ}

theorem PowerIndexExact.read {t : StakingState Addr} (h : PowerIndexExact r t) {op : Addr}
    (hop : op ∈ t.read r) : ∃ v, t.validators.get op = some v ∧ v.jailed = false := by
  obtain ⟨e, he, rfl⟩ := List.mem_map.mp (StakingState.readOps_subset op hop)
  obtain ⟨v, hv, hj, rfl⟩ := (h e).mp ((List.perm_insertionSort _ _).mem_iff.mp he)
  exact ⟨v, Table.mem_rows_iff.mp hv, hj⟩

theorem PowerIndexExact.nodup {t : StakingState Addr} (h : PowerIndexExact r t) :
    t.powerIndexOrder.Nodup := by
  have hrows : (t.validatorsByPowerIndex.rows.insertionSort EntryBefore).Nodup :=
    (List.perm_insertionSort _ _).nodup_iff.mpr (List.Nodup.of_map _ t.validatorsByPowerIndex.nodup)
  refine hrows.map_on (fun e he f hf hef => ?_)
  obtain ⟨v, hv, _, rfl⟩ := (h e).mp ((List.perm_insertionSort _ _).mem_iff.mp he)
  obtain ⟨w, hw, _, rfl⟩ := (h f).mp ((List.perm_insertionSort _ _).mem_iff.mp hf)
  rw [Table.eq_of_key hv hw hef]

theorem resetHeights_entering {t : StakingState Addr} (ops : List Addr) :
    (t.resetHeights l).entering ops = t.entering ops := by
  unfold StakingState.entering
  refine congrArg (fun f => List.flatMap f ops) (funext (fun op => ?_))
  rw [resetHeights_get]
  cases t.validators.get op with
  | none => rfl
  | some v => simp [Validator.entering]

theorem resetHeights_leaving {t : StakingState Addr} (ops : List Addr) :
    (t.resetHeights l).leaving ops = t.leaving ops := by
  unfold StakingState.leaving
  refine congrArg (fun f => List.flatMap f ops) (funext (fun op => ?_))
  rw [resetHeights_get]
  cases t.validators.get op with
  | none => rfl
  | some v => simp

/-- the updates after the traversal: the walk may not come to a validator that was just jailed -/
theorem updatable_resetHeights_iff {t : StakingState Addr} : Updatable r (t.resetHeights l) ↔
    Updatable r t ∧ ∀ op ∈ t.read r, ¬ Excluded l op := by
  have hread : ∀ op, Readable r (t.resetHeights l) op ↔ Readable r t op ∧ ¬ Excluded l op := by
    intro op
    unfold Readable
    rw [resetHeights_get]
    cases hv : t.validators.get op with
    | none => simp
    | some v =>
      have hop : v.operatorAddress = op := Table.get_key hv
      simp [reset_not_jailed, reset_powerFits, hop, and_right_comm]
  have hbond : ∀ op, Bondable r t.lastValidatorPower (t.resetHeights l) op ↔
      Bondable r t.lastValidatorPower t op := by
    intro op
    unfold Bondable
    rw [resetHeights_get, resetHeights_powerAt]
    simp
  have hunbond : ∀ op, Unbondable r (t.resetHeights l) op ↔ Unbondable r t op := by
    intro op
    unfold Unbondable
    rw [resetHeights_get]
    simp [reset_powerFits]
  have hpower : (t.resetHeights l).lastValidatorPower = t.lastValidatorPower := rfl
  constructor
  · rintro ⟨hreadable, hbondable, hunbondable, hbonded, hunbonded⟩
    rw [resetHeights_read] at hreadable
    rw [resetHeights_bonds, hpower] at hbondable hunbondable
    rw [resetHeights_bonds, resetHeights_entering] at hbonded
    rw [resetHeights_noLongerBonded, resetHeights_leaving] at hunbonded
    exact ⟨⟨fun op hop => ((hread op).mp (hreadable op hop)).1,
      fun op hop => (hbond op).mp (hbondable op hop),
      fun op hop hnot => (hunbond op).mp (hunbondable op hop hnot), hbonded, hunbonded⟩,
      fun op hop => ((hread op).mp (hreadable op hop)).2⟩
  · rintro ⟨⟨hreadable, hbondable, hunbondable, hbonded, hunbonded⟩, hallowed⟩
    refine ⟨fun op hop => ?_, fun op hop => ?_, fun op hop hnot => ?_, ?_, ?_⟩
    · rw [resetHeights_read] at hop
      exact (hread op).mpr ⟨hreadable op hop, hallowed op hop⟩
    · rw [resetHeights_bonds] at hop
      exact (hbond op).mpr (hbondable op hop)
    · rw [resetHeights_bonds] at hnot
      exact (hunbond op).mpr (hunbondable op hop hnot)
    · rw [resetHeights_bonds, resetHeights_entering]
      exact hbonded
    · rw [resetHeights_noLongerBonded, resetHeights_leaving]
      exact hunbonded

/-- The export completes, with an exact power index and, unless the allow list is empty, every
validator outside it jailed and not bonded. -/
def ExportsIndex (x : ExportConfig Addr) (ctx : Context) (jailAllowedAddrs : List String)
    (s : App Addr) : Prop :=
  ∃ s', prepForZeroHeightGenesis x ctx jailAllowedAddrs s = .ok s' ∧
    PowerIndexExact x.cfg.powerReduction s'.staking ∧
    (jailAllowedAddrs ≠ [] → ∀ v ∈ s'.staking.validators.rows,
      Unlisted jailAllowedAddrs v.operatorAddress → v.jailed = true ∧ v.status ≠ .bonded)

/-- A validator that the export may exclude: it is jailed already and not bonded, or it has a last
power and the walk over the power index does not come to it. -/
def Excludable (r : ℤ) (jailAllowedAddrs : List String) (s : StakingState Addr) (v : Validator Addr) :
    Prop :=
  (v.jailed = true ∧ (Unlisted jailAllowedAddrs v.operatorAddress → v.status ≠ .bonded)) ∨
    (v.operatorAddress ∈ s.lastValidatorPower.keys ∧ v.operatorAddress ∉ s.read r)

theorem Excludable.not_read {t : StakingState Addr} {v : Validator Addr}
    (h : Excludable r l t v) (hexact : PowerIndexExact r t) (hv : v ∈ t.validators.rows) :
    v.operatorAddress ∉ t.read r := by
  intro hread
  rcases h with ⟨hj, _⟩ | ⟨_, hnot⟩
  · obtain ⟨w, hw, hwj⟩ := hexact.read hread
    rw [Table.mem_rows_iff.mp hv] at hw
    cases hw
    rw [hj] at hwj
    cases hwj
  · exact hnot hread

/-! ## when the export completes -/

/-- no invariant that the crisis module knows is broken -/
def ExportConfig.Unbroken (x : ExportConfig Addr) (s : App Addr) : Prop :=
  ∀ broken ∈ x.invariants, broken s = false

theorem assertInvariants_ok : x.assertInvariants s = .ok () ↔ x.Unbroken s := by
  unfold ExportConfig.assertInvariants ExportConfig.Unbroken goPanic
  simp

/-- the token pools can pay for the validators that enter the set and those that leave it -/
def PoolsReady (x : ExportConfig Addr) (ctx : Context) (s : App Addr) : Prop :=
  s.PoolsCover x.cfg ctx
    (s.staking.entering (s.staking.bonds x.cfg.powerReduction)).sum
    (s.staking.leaving (s.staking.noLongerBonded x.cfg.powerReduction)).sum

theorem poolsCover_congr {cfg : Config Addr} {t : App Addr} {into out : ℤ}
    (hdenom : t.staking.bondDenom = s.staking.bondDenom)
    (hb : App.Untouched (newModuleAddress cfg.names.bondedPool) s t)
    (hn : App.Untouched (newModuleAddress cfg.names.notBondedPool) s t) :
    t.PoolsCover cfg ctx into out ↔ s.PoolsCover cfg ctx into out := by
  have hpays : ∀ sender recipient n, App.Untouched (newModuleAddress sender) s t →
      App.Untouched (newModuleAddress recipient) s t →
      (App.PoolPays ctx t sender recipient n ↔ App.PoolPays ctx s sender recipient n) := by
    intro sender recipient n hs hr
    have hkind : t.auth.kindAt (newModuleAddress recipient)
        = s.auth.kindAt (newModuleAddress recipient) := congrArg (Option.map Account.kind) hr.account
    have hfunds : t.spendableCoins ctx (newModuleAddress sender) t.staking.bondDenom
        = s.spendableCoins ctx (newModuleAddress sender) s.staking.bondDenom := by
      unfold App.spendableCoins App.lockedCoins
      rw [hdenom, hs.balance, hs.account]
    constructor
    · intro h
      exact ⟨hdenom ▸ h.denom, hkind ▸ h.recipient, hfunds ▸ h.funds⟩
    · intro h
      exact ⟨hdenom.symm ▸ h.denom, hkind.symm ▸ h.recipient, hfunds.symm ▸ h.funds⟩
  unfold App.PoolsCover
  rw [hpays _ _ _ hn hb, hpays _ _ _ hb hn]

theorem updateValidatorSet_resetHeights_iff {t : StakingState Addr} (height : ℤ)
    (hexact : PowerIndexExact r t) : (∃ y, (t.resetHeights l).updateValidatorSet r height = .ok y) ↔
    Updatable r t ∧ ∀ op ∈ t.read r, ¬ Excluded l op :=
  (updateValidatorSet_ends_iff (s := t.resetHeights l) height hexact.nodup).trans
    updatable_resetHeights_iff

/-- the payment after the fee distribution and the updates, from the state before them -/
theorem updatePools_exported_iff {t : App Addr} {y : Selection Addr} (hpools : x.cfg.PoolsApart)
    (hunpaid : x.cfg.PoolsUnpaid) (hexact : PowerIndexExact x.cfg.powerReduction s.staking)
    (hsound : t.Sound x.cfg) (ht : s.handleFeeDistribution x ctx = .ok t)
    (hy : (s.staking.resetHeights l).updateValidatorSet x.cfg.powerReduction ctx.blockHeight = .ok y) :
    (∃ u, ({ t with staking := y.staking } : App Addr).updatePools x.cfg ctx
      y.amtFromNotBondedToBonded y.amtFromBondedToNotBonded = .ok u) ↔ PoolsReady x ctx s := by
  obtain ⟨hin, hout⟩ := updateValidatorSet_amounts (s := s.staking.resetHeights l) hexact.nodup hy
  rw [resetHeights_bonds, resetHeights_entering] at hin
  rw [resetHeights_noLongerBonded, resetHeights_leaving] at hout
  have hdenom : y.staking.bondDenom = s.staking.bondDenom := by
    rw [(updateValidatorSet_settled hy).frame]
    rfl
  have hb := App.handleFeeDistribution_untouched hpools.1 (blockedAddr_module
    (p := (x.cfg.names.bondedPool, [burner, stakingPerm])) (by simp [ModuleNames.maccPerms])
    hunpaid.1) ht
  have hn := App.handleFeeDistribution_untouched hpools.2 (blockedAddr_module
    (p := (x.cfg.names.notBondedPool, [burner, stakingPerm])) (by simp [ModuleNames.maccPerms])
    hunpaid.2) ht
  rw [hin, hout]
  exact (App.updatePools_ends_iff (s := { t with staking := y.staking }) hsound.bank
    hsound.supply).trans (poolsCover_congr (t := { t with staking := y.staking }) hdenom
      ⟨hb.balance, hb.account⟩
      ⟨hn.balance, hn.account⟩)

/-- **An export that completed** keeps the power index exactly when every validator outside the allow
list is one that may be excluded. -/
theorem exported_index_iff (hexact : PowerIndexExact x.cfg.powerReduction s.staking)
    (h : prepForZeroHeightGenesis x ctx l s = .ok s') :
    (PowerIndexExact x.cfg.powerReduction s'.staking ∧
      (l ≠ [] → ∀ v ∈ s'.staking.validators.rows,
        Unlisted l v.operatorAddress → v.jailed = true ∧ v.status ≠ .bonded)) ↔
    ∀ v ∈ s.staking.validators.rows, Excluded l v.operatorAddress →
      Excludable x.cfg.powerReduction l s.staking v := by
  obtain ⟨hsettled, _⟩ := prepForZeroHeightGenesis_settled h
  obtain ⟨_, _, _, y, _, _, hy, _⟩ := prepForZeroHeightGenesis_ok.mp h
  obtain ⟨_, hallowed⟩ := (updateValidatorSet_resetHeights_iff _ hexact).mp ⟨y, hy⟩
  have hnotread : ∀ op, Excluded l op → op ∉ s.staking.bonds x.cfg.powerReduction :=
    fun op hex hop => hallowed op (StakingState.metOps_subset _ hop) hex
  rw [powerIndexExact_settled hexact hsettled]
  constructor
  · rintro ⟨hout, hjailed⟩ v hv hex
    by_cases hlast : v.operatorAddress ∈ s.staking.lastValidatorPower.keys
    · exact Or.inr ⟨hlast, fun hop => hallowed _ hop hex⟩
    · have hstays : v.operatorAddress ∉ s.staking.noLongerBonded x.cfg.powerReduction :=
        fun hop => hlast (mem_noLongerBonded.mp hop).1
      refine Or.inl ⟨?_, fun hun => ?_⟩
      · by_contra hj
        exact hstays (hout v hv (by simpa using hj) hex)
      · -- its record is written by the traversal only
        have hmem := (mem_settled_reset hsettled).mpr ⟨v, hv, rfl⟩
        rw [settled_other (by rw [reset_operatorAddress]; exact hnotread _ hex)
          (by rwa [reset_operatorAddress])] at hmem
        have hstatus := (hjailed hex.1 _ hmem (by rwa [reset_operatorAddress])).2
        rwa [reset_status] at hstatus
  · intro hall
    have hleaves : ∀ v ∈ s.staking.validators.rows, Excluded l v.operatorAddress →
        v.operatorAddress ∈ s.staking.lastValidatorPower.keys →
        v.operatorAddress ∈ s.staking.noLongerBonded x.cfg.powerReduction :=
      fun v hv hex hlast => mem_noLongerBonded.mpr ⟨hlast, hnotread _ hex⟩
    refine ⟨fun v hv hj hex => ?_, fun hl w hw hun => ?_⟩
    · rcases hall v hv hex with ⟨hjailed, _⟩ | ⟨hlast, _⟩
      · rw [hj] at hjailed
        cases hjailed
      · exact hleaves v hv hex hlast
    · obtain ⟨v, hv, rfl⟩ := (mem_settled_reset hsettled).mp hw
      rw [settled_operatorAddress, reset_operatorAddress] at hun
      have hex := hun.excluded hl
      refine ⟨?_, settled_not_bonded ?_ ?_⟩
      · rw [settled_jailed]
        exact reset_jailed.mpr (Or.inr hex)
      · rw [reset_operatorAddress]
        exact hnotread _ hex
      · rw [reset_operatorAddress, reset_status]
        rcases hall v hv hex with ⟨_, hstatus⟩ | ⟨hlast, _⟩
        · exact Or.inr (hstatus hun)
        · exact Or.inl (hleaves v hv hex hlast)

/-- **When the export keeps the power index.**  From a state whose fees can be distributed: exactly when
no invariant is broken, the validator set could be updated as it was, the token pools can pay for that,
and every validator outside the allow list is one that may be excluded.  All of these but the pools are
needed from any state. -/
theorem exportsIndex_iff (hgov : x.cfg.GovApart) (hpools : x.cfg.PoolsApart)
    (hunpaid : x.cfg.PoolsUnpaid) (hlocal : x.rules.Local)
    (hlist : ∀ a ∈ l, ∃ op : Addr, valAddressFromBech32 a = .ok op)
    (hexact : PowerIndexExact x.cfg.powerReduction s.staking) :
    (App.FeesPayable x ctx s → (ExportsIndex x ctx l s ↔
      x.Unbroken s ∧ Updatable x.cfg.powerReduction s.staking ∧ PoolsReady x ctx s ∧
      ∀ v ∈ s.staking.validators.rows, Excluded l v.operatorAddress →
        Excludable x.cfg.powerReduction l s.staking v)) ∧
    (ExportsIndex x ctx l s →
      x.Unbroken s ∧ Updatable x.cfg.powerReduction s.staking ∧
      ∀ v ∈ s.staking.validators.rows, Excluded l v.operatorAddress →
        Excludable x.cfg.powerReduction l s.staking v) := by
  have hneeded : ExportsIndex x ctx l s →
      x.Unbroken s ∧ Updatable x.cfg.powerReduction s.staking ∧
      ∀ v ∈ s.staking.validators.rows, Excluded l v.operatorAddress →
        Excludable x.cfg.powerReduction l s.staking v := by
    rintro ⟨s', hprep, hindex⟩
    obtain ⟨_, hassert, _, y, _, _, hy, _⟩ := prepForZeroHeightGenesis_ok.mp hprep
    exact ⟨assertInvariants_ok.mp hassert,
      ((updateValidatorSet_resetHeights_iff _ hexact).mp ⟨y, hy⟩).1,
      (exported_index_iff hexact hprep).mp hindex⟩
  refine ⟨fun hfees => ?_, hneeded⟩
  obtain ⟨t, ht, hsound⟩ := App.handleFeeDistribution_total hgov hlocal hfees
  constructor
  · intro h
    obtain ⟨hunbroken, hupdatable, hall⟩ := hneeded h
    obtain ⟨s', hprep, _⟩ := h
    obtain ⟨_, _, t', y, u, ht', hy, hu, _⟩ := prepForZeroHeightGenesis_ok.mp hprep
    rw [ht] at ht'
    cases ht'
    exact ⟨hunbroken, hupdatable,
      (updatePools_exported_iff hpools hunpaid hexact hsound ht hy).mp ⟨u, hu⟩, hall⟩
  · rintro ⟨hunbroken, hupdatable, hready, hall⟩
    have hallowed : ∀ op ∈ s.staking.read x.cfg.powerReduction, ¬ Excluded l op := by
      intro op hop hex
      obtain ⟨v, hv, _⟩ := hexact.read hop
      have hvop : v.operatorAddress = op := Table.get_key hv
      have hmem := Table.mem_of_get hv
      rw [← hvop] at hop hex
      exact (hall v hmem hex).not_read hexact hmem hop
    obtain ⟨y, hy⟩ := (updateValidatorSet_resetHeights_iff ctx.blockHeight hexact).mpr
      ⟨hupdatable, hallowed⟩
    obtain ⟨u, hu⟩ := (updatePools_exported_iff hpools hunpaid hexact hsound ht hy).mpr hready
    have hprep := prepForZeroHeightGenesis_ok.mpr
      ⟨hlist, assertInvariants_ok.mpr hunbroken, t, y, u, ht, hy, hu, rfl⟩
    exact ⟨_, hprep, (exported_index_iff hexact hprep).mpr hall⟩

end

/-! ## a chain with two validators -/

/-- Two bonded validators, `me1val1` with more power, commission and a delegation; the set has room for
`maxValidators`. -/
def pairedChain (maxValidators : Nat) : App String :=
  { App.commissionChain "me1val1" with
    bank := ⟨⟨[⟨newModuleAddress "bonded_tokens_pool", "umec", 5000000⟩,
      ⟨newModuleAddress "distribution", "umec", 5⟩], by decide⟩, ⟨[⟨"umec", 5000005⟩], by decide⟩⟩
    staking := { StakingState.empty with
      validators := ⟨[⟨"me1val1", some "pk1", false, .bonded, some 3000000, some (Dec.ofInt 3000000),
        "node1", 0, "me1dev"⟩, ⟨"me1val2", some "pk2", false, .bonded, some 2000000,
        some (Dec.ofInt 2000000), "node2", 0, "me1dev"⟩], by decide⟩
      delegations := App.commissionRecords.staking.delegations
      validatorsByPowerIndex := ⟨[((3, "me1val1"), "me1val1"), ((2, "me1val2"), "me1val2")],
        by decide⟩
      lastValidatorPower := ⟨[("me1val1", 3), ("me1val2", 2)], by decide⟩
      maxValidators := maxValidators } }

theorem pairedChain_exact (n : Nat) : PowerIndexExact 1000000 (pairedChain n).staking := by
  intro e
  simp [pairedChain, Validator.entry, powerKey, consensusPower]

theorem pairedChain_sound (n : Nat) : (pairedChain n).Sound (Config.fixed "me1admin" "me1dev") := by
  have hsupply : ∀ d, (pairedChain n).bank.supplyOf d = if d = "umec" then 5000005 else 0 :=
    fun d => Table.valueAt_put Table.empty Coin.amount ⟨"umec", 5000005⟩ d
  refine ⟨⟨?_, fun d => ?_⟩, fun d => ?_, fun _ _ => rfl, (App.commissionChain_sound "me1val1").distr⟩
  · show ∀ r ∈ [(⟨newModuleAddress "bonded_tokens_pool", "umec", 5000000⟩ : Balance String),
      ⟨newModuleAddress "distribution", "umec", 5⟩], validDenom r.denom = true ∧ 0 < r.amount
    decide
  · rw [hsupply]
    split
    · decide
    · decide
  · refine (hsupply d).trans ?_
    show _ = (if "umec" = d then (5000000 : ℤ) else 0) + ((if "umec" = d then 5 else 0) + 0)
    by_cases hd : d = "umec"
    · rw [if_pos hd, if_pos hd.symm, if_pos hd.symm]
      rfl
    · rw [if_neg hd, if_neg (Ne.symm hd), if_neg (Ne.symm hd)]
      rfl

theorem pairedChain_feesPayable (n : Nat) :
    App.FeesPayable ExportConfig.fixed .fifty (pairedChain n) := by
  have htotal : ∀ d, (pairedChain n).distr.totalOf d = if "umec" = d then Dec.ofInt 5 else 0 := by
    intro d
    show (if "umec" = d then Dec.ofInt 5 else 0) + 0 + 0 + 0 = _
    rw [add_zero, add_zero, add_zero]
  have hlisted : (pairedChain n).distr.Listed := by
    refine DistrState.listed_of_rows ?_ ?_ ?_ (fun d => ?_)
    · show ∀ e ∈ App.commissionRecords.distr.outstandingRewards.rows, DecCoins.IsValid e.2
      decide
    · show ∀ e ∈ App.commissionRecords.distr.currentRewards.rows, DecCoins.IsValid e.2.rewards
      decide
    · exact ⟨by simp [pairedChain, App.commissionChain, App.commissionRecords], List.Pairwise.nil⟩
    · rw [htotal]
      split
      · decide +kernel
      · decide +kernel
  have hbalance : ∀ d, (pairedChain n).distrBalance (Config.fixed "me1admin" "me1dev") d
      = if "umec" = d then 5 else 0 := by
    intro d
    by_cases hd : "umec" = d
    · subst hd
      rfl
    · rw [if_neg hd]
      exact (Table.valueAt_put Table.empty Balance.amount ⟨newModuleAddress "distribution", "umec", 5⟩
        (newModuleAddress "distribution", d)).trans (if_neg (fun he => hd (Prod.mk.inj he).2.symm))
  refine ⟨pairedChain_sound n, fun d => ?_, ?_, hlisted, fun v hv d => ?_, fun op k hk => ?_,
    fun del hdel k => ?_, fun del hdel => ?_⟩
  · show -Dec.one < Dec.ofInt ((pairedChain n).distrBalance (Config.fixed "me1admin" "me1dev") d)
      - (pairedChain n).distr.totalOf d
    rw [hbalance, htotal]
    split
    · decide
    · decide
  · show ∀ v ∈ (pairedChain 1).staking.validators.rows, DecCoins.IsValid
      (App.commissionRecords.distr.getValidatorAccumulatedCommission v.operatorAddress)
    decide
  · rcases List.mem_cons.mp hv with rfl | hv
    · show Dec.ofInt ((if "umec" = d then (2 : ℤ) else 0) + 0)
          + ((if "umec" = d then Dec.ofInt 3 else 0) + 0) ≤ (if "umec" = d then Dec.ofInt 5 else 0) + 0
      split
      · decide
      · decide
    · rw [List.mem_singleton.mp hv]
      exact le_refl _
  · cases hk
  · rw [List.mem_singleton.mp hdel]
    by_cases hk : k = 1
    · subst hk
      show App.commissionRecords.distr.claims (pairedChain 1).staking.delegations.rows "me1val1" 1
        ≤ App.commissionRecords.distr.references "me1val1" 1
      decide
    · refine le_trans (le_of_eq ?_) (Nat.zero_le _)
      unfold DistrState.claims
      rw [List.countP_eq_zero.mpr (fun e he => by
        rw [List.mem_singleton.mp he, decide_eq_true_eq]
        exact fun h => hk (Option.some.inj h.2).symm)]
      show 0 + 0 + (if k = 1 then 1 else 0) = 0
      rw [if_neg hk]
  · rw [List.mem_singleton.mp hdel]
    have hpayee : App.blockedAddr (Config.fixed "me1admin" "me1dev") "me1del" = false := by decide
    exact ⟨_, _, [⟨"umec", 1000000000000⟩], [⟨"umec", Dec.ofInt 3⟩], rfl, rfl, Nat.one_lt_two, rfl,
      by decide, rfl, by decide, ⟨_, rfl⟩, hpayee⟩

theorem pairedChain_updatable : Updatable 1000000 (pairedChain 1).staking where
  readable op hop := by
    have hread : (pairedChain 1).staking.read 1000000 = ["me1val1"] := by decide
    rw [hread] at hop
    rw [List.mem_singleton.mp hop]
    exact ⟨_, rfl, rfl, 3000000, rfl, by decide⟩
  bondable op hop := by
    have hbonds : (pairedChain 1).staking.bonds 1000000 = ["me1val1"] := by decide
    rw [hbonds] at hop
    rw [List.mem_singleton.mp hop]
    exact ⟨_, rfl, BondStatus.noConfusion, Or.inl (by decide)⟩
  unbondable op hop hnot := by
    rcases List.mem_cons.mp hop with rfl | hop
    · exact absurd (by decide) hnot
    · rw [List.mem_singleton.mp hop]
      exact ⟨_, rfl, rfl, ⟨2000000, rfl, by decide⟩, Option.some_ne_none _⟩
  bonded := by
    have hnone : (pairedChain 1).staking.entering ((pairedChain 1).staking.bonds 1000000) = [] := by
      decide
    rw [hnone]
    trivial
  unbonded := by
    have hone : (pairedChain 1).staking.leaving ((pairedChain 1).staking.noLongerBonded 1000000)
        = [2000000] := by decide
    rw [hone]
    exact ⟨by decide, trivial⟩

theorem pairedChain_ready : PoolsReady .fixed .fifty (pairedChain 1) := by
  have hin : (pairedChain 1).staking.entering ((pairedChain 1).staking.bonds 1000000) = [] := by decide
  have hout : (pairedChain 1).staking.leaving ((pairedChain 1).staking.noLongerBonded 1000000)
      = [2000000] := by decide
  unfold PoolsReady
  rw [show (ExportConfig.fixed.cfg : Config String).powerReduction = 1000000 from rfl, hin, hout]
  refine ⟨fun h => absurd h (by decide), fun _ => ⟨by decide, fun k hk => ?_, by decide⟩⟩
  cases hk

/-- the validator outside the list has lost its place to the other one already: it is unbonded -/
theorem exportsIndex_paired : ExportsIndex .fixed .fifty ["me1val1"] (pairedChain 1) := by
  refine ((exportsIndex_iff (by decide) (by decide) (by decide) RewardRules.unslashed_local
    (fun a _ => ⟨a, rfl⟩) (pairedChain_exact 1)).1 (pairedChain_feesPayable 1)).mpr
    ⟨?_, pairedChain_updatable, pairedChain_ready, ?_⟩
  · show ∀ broken ∈ [moduleAccountsBroken .sdk], broken (pairedChain 1) = false
    decide
  · intro v hv hex
    rcases List.mem_cons.mp hv with rfl | hv
    · exact absurd hex (by decide)
    · rw [List.mem_singleton.mp hv]
      exact Or.inr ⟨by decide, by decide⟩

/-- an active validator outside the list: its record says it is jailed, the power index still has its
entry, and the update of the validator set panics -/
theorem export_panics_on_excluded :
    prepForZeroHeightGenesis .fixed .fifty ["me1val1"] (pairedChain 100)
      = goPanic "should never retrieve a jailed validator from the power store" ∧
    PowerIndexExact 1000000 (pairedChain 100).staking ∧
    App.FeesPayable ExportConfig.fixed .fifty (pairedChain 100) ∧
    ¬ ExportsIndex .fixed .fifty ["me1val1"] (pairedChain 100) := by
  have hpanic : prepForZeroHeightGenesis .fixed .fifty ["me1val1"] (pairedChain 100)
      = goPanic "should never retrieve a jailed validator from the power store" :=
    goPanic_of_check (by decide +kernel)
  refine ⟨hpanic, pairedChain_exact 100, pairedChain_feesPayable 100, fun h => ?_⟩
  obtain ⟨s', hprep, _⟩ := h
  rw [hpanic] at hprep
  cases hprep

end MeChain
