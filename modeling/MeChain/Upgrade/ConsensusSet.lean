import MeChain.TokenPools
import MeChain.Upgrade.ValidatorTable

/-!
# The consensus engine's validator set after `fixValidator`

`fixValidator` deletes the last power of every validator and writes none, so the first
`ApplyAndReturnValidatorSetUpdates` reports every validator it selects and removes nobody.

* `Agree.jail`         a jailing keeps the indexes in step;
* `powerIndexOrder_eq` then the power index lists the validators as their ranking does;
* `lastPowers_run`     no last power is left after the loop;
* `Follows`            the consensus engine has the validators the application selected;
* `follows_iff_leads`  it does when every key of its old set is still selected and the power index
                       leads to the selected validators;
* `leads_of_noCollision`   which it does when no addresses collide;
* `selected_upgraded`  who is selected then, from the state before the upgrade;
* `follows_iff`        before which states the consensus engine follows.
-/

set_option linter.unusedSectionVars false

namespace MeChain
open Fallible

variable {Addr : Type} [SdkAddress Addr] [DecidableEq Addr]

/-! ## jailing -/

section
variable {r : ℤ} {s s' : StakingState Addr}

theorem jail_ok {consAddr : Addr} (h : s.jail r consAddr = .ok s') :
    ∃ v ∈ s.validators.rows, (consAddr, v.operatorAddress) ∈ s.validatorsByConsAddr.rows ∧
      v.jailed = false ∧ s' = { s with
        validators := s.validators.put { v with jailed := true }
        validatorsByPowerIndex :=
          s.validatorsByPowerIndex.del (powerKey r v.tokens v.operatorAddress) } := by
  obtain ⟨e, he, h⟩ := bind_eq_ok.mp h
  obtain ⟨v, hv, h⟩ := bind_eq_ok.mp h
  obtain ⟨hj, h⟩ := guard_eq_ok.mp h
  obtain ⟨_, rfl⟩ := StakingState.deleteValidatorByPowerIndex_ok.mp h
  have hget := mustGetValidator_ok.mp hv
  have hentry : e = (consAddr, v.operatorAddress) :=
    Prod.ext (Table.get_key (deref_ok.mp he)) (Table.get_key hget).symm
  exact ⟨v, Table.mem_of_get hget, hentry ▸ Table.mem_of_get (deref_ok.mp he), by simpa using hj,
    rfl⟩

theorem Agree.jail {consAddr : Addr} (h : Agree r s) (hj : s.jail r consAddr = .ok s') :
    Agree r s' := by
  obtain ⟨v, hv, _, hnj, rfl⟩ := jail_ok hj
  -- the table lists the jailed record in place of `v`, under the same address and key
  have hput (w : Validator Addr) :
      w ∈ (s.validators.put { v with jailed := true }).rows ↔ w = { v with jailed := true } ∨
        w ∈ s.validators.rows ∧ w.operatorAddress ≠ v.operatorAddress := Table.mem_put
  refine ⟨fun w hw => ?_, fun e => ?_, fun e => ?_⟩
  · rcases (hput w).mp hw with rfl | ⟨hw, _⟩
    · exact h.keyed v hv
    · exact h.keyed w hw
  · show e ∈ s.validatorsByConsAddr.rows ↔ _
    rw [h.consAddr]
    constructor
    · intro he
      obtain ⟨w, hw, pk, hpk, rfl⟩ := he
      by_cases hop : w.operatorAddress = v.operatorAddress
      · rw [Table.eq_of_key hw hv hop] at hpk ⊢
        exact ⟨{ v with jailed := true }, (hput _).mpr (Or.inl rfl), pk, hpk, rfl⟩
      · exact ⟨w, (hput w).mpr (Or.inr ⟨hw, hop⟩), pk, hpk, rfl⟩
    · intro he
      obtain ⟨w, hw, pk, hpk, rfl⟩ := he
      rcases (hput w).mp hw with rfl | ⟨hw, _⟩
      · exact ⟨v, hv, pk, hpk, rfl⟩
      · exact ⟨w, hw, pk, hpk, rfl⟩
  · show e ∈ (s.validatorsByPowerIndex.del (powerKey r v.tokens v.operatorAddress)).rows ↔ _
    rw [Table.mem_del, h.power]
    constructor
    · intro he
      obtain ⟨⟨w, hw, hwj, rfl⟩, hne⟩ := he
      refine ⟨w, (hput w).mpr (Or.inr ⟨hw, fun hop => hne ?_⟩), hwj, rfl⟩
      rw [Table.eq_of_key hw hv hop]
    · intro he
      obtain ⟨w, hw, hwj, rfl⟩ := he
      rcases (hput w).mp hw with rfl | ⟨hw, hop⟩
      · cases hwj
      · exact ⟨⟨w, hw, hwj, rfl⟩, fun hk => hop (congrArg Prod.snd hk)⟩

/-- jailings leave the last powers alone and keep the indexes in step -/
theorem jail_run {jailed : List Addr} (h : jailed.foldlM (StakingState.jail r) s = .ok s') :
    s'.lastValidatorPower = s.lastValidatorPower ∧ (Agree r s → Agree r s') := by
  refine foldlM_ok (I := fun _ t => t.lastValidatorPower = s.lastValidatorPower ∧
    (Agree r s → Agree r t)) h ⟨rfl, fun ha => ha⟩ ?_
  intro done a rest t t' _ hI hstep
  refine ⟨?_, fun ha => (hI.2 ha).jail hstep⟩
  rw [← hI.1]
  obtain ⟨v, _, _, _, rfl⟩ := jail_ok hstep
  rfl

end

/-- the record of a validator after the validators with keys of these addresses were jailed -/
def Validator.jailedBy (jailed : List Addr) (v : Validator Addr) : Validator Addr :=
  { v with jailed := v.jailed ||
    v.consensusPubkey.any fun pk => decide ((pubKeyAddress pk : Addr) ∈ jailed) }

theorem jailedBy_nil (v : Validator Addr) : v.jailedBy [] = v := by
  have hnone : (v.consensusPubkey.any fun pk => decide ((pubKeyAddress pk : Addr) ∈ [])) = false := by
    cases v.consensusPubkey <;> simp
  unfold Validator.jailedBy
  rw [hnone, Bool.or_false]

theorem jailedBy_snoc {done : List Addr} {a : Addr} {v : Validator Addr} {pk : PubKey}
    (hpk : v.consensusPubkey = some pk) : v.jailedBy (done ++ [a])
      = if (pubKeyAddress pk : Addr) = a then { v.jailedBy done with jailed := true }
        else v.jailedBy done := by
  unfold Validator.jailedBy
  rw [hpk]
  split <;> simp_all

/-- **The records after the jailings**, when the indexes are in step. -/
theorem jail_records {jailed : List Addr} (h : jailed.foldlM (StakingState.jail r) s = .ok s')
    (hs : Agree r s) : s'.maxValidators = s.maxValidators ∧
      ∀ w, w ∈ s'.validators.rows ↔ ∃ v ∈ s.validators.rows, w = v.jailedBy jailed := by
  have hrun := foldlM_ok (I := fun done t => Agree r t ∧ t.maxValidators = s.maxValidators ∧
    ∀ w, w ∈ t.validators.rows ↔ ∃ v ∈ s.validators.rows, w = v.jailedBy done) h
    ⟨hs, rfl, fun w => by simp [jailedBy_nil]⟩ (by
      intro done a rest t t' _ hI hstep
      obtain ⟨hagree, hmax, hrows⟩ := hI
      have hagree' := hagree.jail hstep
      obtain ⟨v, hv, hcons, _, rfl⟩ := jail_ok hstep
      refine ⟨hagree', hmax, fun w => ?_⟩
      -- the index leads from the address to the validator with a key of this address
      obtain ⟨x, hx, pk, hpk, he⟩ := (hagree.consAddr _).mp hcons
      obtain rfl := Table.eq_of_key hx hv (congrArg Prod.snd he).symm
      have ha : a = pubKeyAddress pk := congrArg Prod.fst he
      obtain ⟨v0, hv0, rfl⟩ := (hrows x).mp hx
      have hpk0 : v0.consensusPubkey = some pk := hpk
      have hkey : ∀ u ∈ s.validators.rows, ∀ pk', u.consensusPubkey = some pk' →
          (pubKeyAddress pk' : Addr) = a → u = v0 := fun u hu pk' hpk' he' =>
        hs.unique hv0 hu hpk0 hpk' (ha ▸ he'.symm)
      rw [Table.mem_put, hrows]
      constructor
      · rintro (rfl | ⟨⟨u, hu, rfl⟩, hne⟩)
        · refine ⟨v0, hv0, ?_⟩
          rw [jailedBy_snoc hpk0, if_pos ha.symm]
        · obtain ⟨pk', hpk'⟩ := Option.ne_none_iff_exists'.mp (hs.keyed u hu)
          refine ⟨u, hu, ?_⟩
          rw [jailedBy_snoc hpk', if_neg]
          exact fun he' => hne (by rw [hkey u hu pk' hpk' he'])
      · rintro ⟨u, hu, rfl⟩
        obtain ⟨pk', hpk'⟩ := Option.ne_none_iff_exists'.mp (hs.keyed u hu)
        rw [jailedBy_snoc hpk']
        split
        · rename_i he'
          rw [hkey u hu pk' hpk' he']
          exact Or.inl rfl
        · rename_i he'
          refine Or.inr ⟨⟨u, hu, rfl⟩, fun hop => he' ?_⟩
          rw [Table.eq_of_key hu hv0 hop, hpk0] at hpk'
          exact (Option.some.inj hpk') ▸ ha.symm)
  exact hrun.2

/-! ## last powers -/

theorem lastPowers_run {cfg : Config Addr} (hrm : cfg.RemovesKeys) {adminAddr : Addr}
    {l : List (Validator Addr)} {s s' : App Addr}
    (h : l.foldlM (fixValidatorStep cfg adminAddr) s = .ok s') :
    ∀ op ∈ s'.staking.lastValidatorPower.keys,
      op ∈ s.staking.lastValidatorPower.keys ∧ ∀ v ∈ l, op ≠ v.operatorAddress := by
  refine foldlM_ok (I := fun done t => ∀ op ∈ t.staking.lastValidatorPower.keys,
    op ∈ s.staking.lastValidatorPower.keys ∧ ∀ v ∈ done, op ≠ v.operatorAddress) h
    (fun op hop => ⟨hop, fun v hv => absurd hv List.not_mem_nil⟩) ?_
  intro done v rest t t' _ hI hstep op hop
  obtain ⟨stake, pk, owner, _, _, _, rfl⟩ := fixValidatorStep_ok hrm hstep
  obtain ⟨hne, hop⟩ := Table.mem_keys_del.mp hop
  obtain ⟨hold, hdone⟩ := hI op hop
  refine ⟨hold, fun w hw => ?_⟩
  rcases List.mem_append.mp hw with hw | hw
  · exact hdone w hw
  · rw [List.mem_singleton.mp hw]
    exact hne

/-- the last powers are those the consensus engine has -/
structure EngineMatches (set : Index PubKey ℤ) (s : StakingState Addr) : Prop where
  reported : ∀ e ∈ s.lastValidatorPower.rows, ∃ v ∈ s.validators.rows, v.operatorAddress = e.1 ∧
    ∃ u ∈ set.rows, v.consensusPubkey = some u.1 ∧ u.2 = e.2
  active : ∀ u ∈ set.rows, ∃ v ∈ s.validators.rows, v.consensusPubkey = some u.1 ∧
    (v.operatorAddress, u.2) ∈ s.lastValidatorPower.rows

instance (set : Index PubKey ℤ) (s : StakingState Addr) : Decidable (EngineMatches set s) :=
  decidable_of_iff (_ ∧ _) ⟨fun h => ⟨h.1, h.2⟩, fun h => ⟨h.1, h.2⟩⟩

theorem lastPowers_empty {cfg : Config Addr} (hrm : cfg.RemovesKeys) {s s' : App Addr}
    (h : fixValidator cfg s = .ok s') {set : Index PubKey ℤ} (hset : EngineMatches set s.staking) :
    s'.staking.lastValidatorPower.rows = [] := by
  obtain ⟨adminAddr, _, hloop⟩ := fixValidator_ok h
  rw [List.eq_nil_iff_forall_not_mem]
  intro e he
  obtain ⟨hold, hne⟩ := lastPowers_run hrm hloop e.1 (List.mem_map_of_mem he)
  obtain ⟨e', he', hk⟩ := List.mem_map.mp hold
  obtain ⟨v, hv, hop, _⟩ := hset.reported e' he'
  exact hne v hv (hk.symm.trans hop.symm)

/-! ## the ranking and the power index -/

section
variable [LE Addr] [DecidableLE Addr] {r height : ℤ} {s s' : StakingState Addr}
  {set : Index PubKey ℤ} {updates : List ValidatorUpdate}

theorem mem_ranking {v : Validator Addr} :
    v ∈ s.ranking r ↔ v ∈ s.validators.rows ∧ v.jailed = false := by
  rw [StakingState.ranking, List.mem_insertionSort, List.mem_filter]
  simp

theorem mem_of_selected {v : Validator Addr} (h : v ∈ s.selected r) : v ∈ s.validators.rows := by
  have hrank := List.mem_of_mem_take ((List.takeWhile_sublist _).subset h)
  exact (mem_ranking.mp hrank).1

section
variable [Std.IsLinearOrder Addr]

theorem entryBefore_total (e f : (ℤ × Addr) × Addr) : EntryBefore e f ∨ EntryBefore f e := by
  unfold EntryBefore
  rcases lt_trichotomy e.1.1 f.1.1 with h | h | h
  · exact Or.inr (Or.inl h)
  · rcases Std.Total.total (r := fun a b : Addr => a ≤ b) e.1.2 f.1.2 with ho | ho
    · exact Or.inl (Or.inr ⟨h, ho⟩)
    · exact Or.inr (Or.inr ⟨h.symm, ho⟩)
  · exact Or.inl (Or.inl h)

theorem entryBefore_trans {e f g : (ℤ × Addr) × Addr} (h1 : EntryBefore e f)
    (h2 : EntryBefore f g) : EntryBefore e g := by
  unfold EntryBefore at *
  rcases h1 with h1 | ⟨h1, o1⟩
  · rcases h2 with h2 | ⟨h2, _⟩
    · exact Or.inl (h2.trans h1)
    · exact Or.inl (h2 ▸ h1)
  · rcases h2 with h2 | ⟨h2, o2⟩
    · exact Or.inl (h1 ▸ h2)
    · exact Or.inr ⟨h1.trans h2, Std.le_trans o1 o2⟩

theorem entryBefore_key {e f : (ℤ × Addr) × Addr} (h1 : EntryBefore e f) (h2 : EntryBefore f e) :
    e.1 = f.1 := by
  unfold EntryBefore at *
  rcases h1 with h1 | ⟨h1, o1⟩
  · rcases h2 with h2 | ⟨h2, _⟩
    · omega
    · omega
  · rcases h2 with h2 | ⟨_, o2⟩
    · omega
    · exact Prod.ext h1 (Std.le_antisymm o1 o2)

theorem sorted_entries (l : List ((ℤ × Addr) × Addr)) :
    (l.insertionSort EntryBefore).Pairwise EntryBefore := by
  have htotal : Std.Total (fun e f : (ℤ × Addr) × Addr => EntryBefore e f) := ⟨entryBefore_total⟩
  have htrans : IsTrans ((ℤ × Addr) × Addr) EntryBefore := ⟨fun _ _ _ => entryBefore_trans⟩
  exact List.pairwise_insertionSort _ l

/-- **The power index lists the validators as their ranking does**, when it is in step. -/
theorem powerIndexOrder_eq (h : Agree r s) :
    s.powerIndexOrder = (s.ranking r).map Validator.operatorAddress := by
  let nonJailed := s.validators.rows.filter fun v => !v.jailed
  have hmem (e : (ℤ × Addr) × Addr) :
      e ∈ s.validatorsByPowerIndex.rows ↔ e ∈ nonJailed.map (Validator.entry r) := by
    rw [h.power, List.mem_map]
    constructor
    · intro he
      obtain ⟨v, hv, hj, rfl⟩ := he
      exact ⟨v, List.mem_filter.mpr ⟨hv, by rw [hj]; rfl⟩, rfl⟩
    · intro he
      obtain ⟨v, hv, rfl⟩ := he
      obtain ⟨hv, hj⟩ := List.mem_filter.mp hv
      exact ⟨v, hv, by simpa using hj, rfl⟩
  have hnodup : (nonJailed.map (Validator.entry r)).Nodup := by
    refine List.Nodup.of_map Prod.snd ?_
    rw [List.map_map]
    exact s.validators.nodup_filter _
  have hperm := (List.perm_ext_iff_of_nodup s.validatorsByPowerIndex.nodup_rows hnodup).mpr hmem
  have hsort : s.validatorsByPowerIndex.rows.insertionSort EntryBefore
      = (nonJailed.map (Validator.entry r)).insertionSort EntryBefore := by
    refine List.Perm.eq_of_pairwise (fun e f he hf h1 h2 => ?_) (sorted_entries _)
      (sorted_entries _) ?_
    · rw [List.mem_insertionSort] at he hf
      exact Table.eq_of_key he ((hmem f).mpr hf) (entryBefore_key h1 h2)
    · exact (List.perm_insertionSort _ _).trans
        (hperm.trans (List.perm_insertionSort _ _).symm)
  rw [StakingState.powerIndexOrder, hsort, StakingState.ranking,
    ← List.map_insertionSort (r := RanksBefore r) EntryBefore (Validator.entry r) nonJailed
      (fun a _ b _ => Iff.rfl), List.map_map]
  rfl

end

/-! ## keys -/

/-- no two validators have the same key -/
def KeysUnique (s : StakingState Addr) : Prop :=
  ∀ v ∈ s.validators.rows, ∀ w ∈ s.validators.rows, v.consensusPubkey = w.consensusPubkey → v = w

/-- whatever the addresses are, the loop keeps every validator's key and makes no two the same -/
theorem keys_run {cfg : Config Addr} {s s' : App Addr} {adminAddr : Addr} (hrm : cfg.RemovesKeys)
    (h : s.staking.validators.rows.foldlM (fixValidatorStep cfg adminAddr) s = .ok s')
    (hagree : Agree r s.staking) : s'.staking.Keyed ∧ KeysUnique s'.staking := by
  have hrun := validators_run hrm h
  have horigin (w : Validator Addr) (hw : w ∈ s'.staking.validators.rows) :
      ∃ v ∈ s.staking.validators.rows, ∃ owner, w = movedValidator owner v := by
    obtain ⟨v, hv, owner, he⟩ := Rekey.Run.exists_survivor hrun MovedFrom.operatorAddress hw
    exact ⟨v, (Rekey.survivors_sublist _).subset hv, owner, he⟩
  constructor
  · intro w hw
    obtain ⟨v, hv, owner, rfl⟩ := horigin w hw
    exact hagree.keyed v hv
  · intro a ha b hb hk
    obtain ⟨v, hv, owner, he⟩ := horigin a ha
    obtain ⟨w, hw, owner', he'⟩ := horigin b hb
    obtain ⟨pk, hpk⟩ := Option.ne_none_iff_exists'.mp (hagree.keyed v hv)
    have hva : v.consensusPubkey = a.consensusPubkey := by rw [he]; rfl
    have hwb : w.consensusPubkey = b.consensusPubkey := by rw [he']; rfl
    have hwv := hagree.unique hv hw hpk ((hwb.trans (hk.symm.trans hva.symm)).trans hpk) rfl
    refine Table.eq_of_key ha hb ?_
    rw [he, he', hwv]
    rfl

theorem jail_keys {jailed : List Addr} (h : jailed.foldlM (StakingState.jail r) s = .ok s')
    (hs : s.Keyed ∧ KeysUnique s) : s'.Keyed ∧ KeysUnique s' := by
  refine foldlM_ok (I := fun _ t => t.Keyed ∧ KeysUnique t) h hs ?_
  intro done a rest t t' _ hI hstep
  obtain ⟨hkeyed, hunique⟩ := hI
  obtain ⟨v, hv, _, _, rfl⟩ := jail_ok hstep
  -- every record listed now has the key and the address of one that was listed before
  have horigin (w : Validator Addr) (hw : w ∈ (t.validators.put { v with jailed := true }).rows) :
      ∃ x ∈ t.validators.rows, x.consensusPubkey = w.consensusPubkey ∧
        x.operatorAddress = w.operatorAddress := by
    rcases Table.mem_put.mp hw with rfl | ⟨hw, _⟩
    · exact ⟨v, hv, rfl, rfl⟩
    · exact ⟨w, hw, rfl, rfl⟩
  constructor
  · intro w hw
    obtain ⟨x, hx, hk, _⟩ := horigin w hw
    rw [← hk]
    exact hkeyed x hx
  · intro b hb c hc hk
    obtain ⟨x, hx, hkx, hox⟩ := horigin b hb
    obtain ⟨y, hy, hky, hoy⟩ := horigin c hc
    have hxy := hunique x hx y hy (hkx.trans (hk.trans hky.symm))
    exact Table.eq_of_key hb hc (hox.symm.trans ((congrArg _ hxy).trans hoy))

/-- reports of one key are those of one validator -/
theorem KeysUnique.eq_of_report {u w : ValidatorUpdate} (h : KeysUnique s) {a b : Validator Addr}
    (ha : a ∈ s.validators.rows) (hb : b ∈ s.validators.rows) (hu : a.report r = some u)
    (hw : b.report r = some w) (he : u.1 = w.1) : a = b := by
  obtain ⟨pk, hpk, rfl⟩ := Option.map_eq_some_iff.mp hu
  obtain ⟨pk', hpk', rfl⟩ := Option.map_eq_some_iff.mp hw
  exact h a ha b hb (hpk.trans ((congrArg some he).trans hpk'.symm))

/-! ## the first update after the loop -/

/-- what the consensus engine's set should be after the updates of a block: the keys and powers of
the selected validators; a key that is not selected any more is removed by an update, and its
validator is not bonded any more -/
structure Follows (r : ℤ) (set : Index PubKey ℤ) (updates : List ValidatorUpdate)
    (s s' : StakingState Addr) : Prop where
  active : ∀ e, e ∈ (applyUpdates set updates).rows ↔ e ∈ s.activeSet r
  removed : ∀ pk ∈ set.keys, pk ∉ (s.activeSet r).map Prod.fst →
    (pk, 0) ∈ updates ∧
      ∀ v ∈ s'.validators.rows, v.consensusPubkey = some pk → v.status ≠ .bonded

/-- every key of the set is still that of a selected validator -/
def Kept (r : ℤ) (set : Index PubKey ℤ) (s : StakingState Addr) : Prop :=
  ∀ pk ∈ set.keys, pk ∈ (s.activeSet r).map Prod.fst

instance (set : Index PubKey ℤ) : Decidable (Kept r set s) :=
  inferInstanceAs (Decidable (∀ pk ∈ set.keys, _))

/-- The power index leads to the selected validators: its first `maxValidators` entries, up to the
first validator without power, name no other, and leave out none that the set does not have with
this power already. -/
structure Leads (r : ℤ) (set : Index PubKey ℤ) (s : StakingState Addr) : Prop where
  only : ∀ v ∈ s.met r, v ∈ s.selected r
  all : ∀ v ∈ s.selected r, v ∈ s.met r ∨ ∀ u, v.report r = some u → u ∈ set.rows

theorem updates_eq (hlast : s.lastValidatorPower.rows = []) (hkeyed : s.Keyed)
    {x : Selection Addr} (h : s.updateValidatorSet r height = .ok x) : x.updates = s.reports r := by
  obtain ⟨y, hy, h⟩ := bind_eq_ok.mp h
  obtain ⟨hl, hups⟩ := selectValidators_fresh (x := .start s) hlast hkeyed hy
  rw [hl] at h
  cases h
  exact hups

theorem reports_nonzero {u : ValidatorUpdate} (h : u ∈ s.reports r) : u.2 ≠ 0 :=
  of_decide_eq_true (List.all_eq_true.mp List.all_takeWhile u h)

/-- the powers of a list of validators with keys, up to the first without power -/
theorem filterMap_takeWhile {l : List (Validator Addr)} (h : ∀ v ∈ l, v.consensusPubkey ≠ none) :
    (l.filterMap (Validator.report r)).takeWhile (fun u => u.2 ≠ 0)
      = (l.takeWhile fun v => v.power r ≠ 0).filterMap (Validator.report r) := by
  induction l with
  | nil => rfl
  | cons v l ih =>
    obtain ⟨pk, hpk⟩ := Option.ne_none_iff_exists'.mp (h v (List.mem_cons_self ..))
    have hreport : v.report r = some (pk, v.power r) := by rw [Validator.report, hpk]; rfl
    rw [List.filterMap_cons, hreport]
    dsimp only
    rw [List.takeWhile_cons, List.takeWhile_cons]
    by_cases h0 : v.power r = 0
    · rw [if_neg (by simpa using h0), if_neg (by simpa using h0)]
      rfl
    · rw [if_pos (by simpa using h0), if_pos (by simpa using h0), List.filterMap_cons, hreport,
        ih (fun w hw => h w (List.mem_cons_of_mem _ hw))]

theorem mem_of_filterMap_get {ops : List Addr} {v : Validator Addr}
    (h : v ∈ ops.filterMap s.validators.get) : v ∈ s.validators.rows := by
  obtain ⟨op, _, hv⟩ := List.mem_filterMap.mp h
  exact Table.mem_of_get hv

theorem mem_of_met {v : Validator Addr} (h : v ∈ s.met r) : v ∈ s.validators.rows :=
  mem_of_filterMap_get ((List.takeWhile_sublist _).subset h)

theorem reports_eq (hkeyed : s.Keyed) : s.reports r = (s.met r).filterMap (Validator.report r) := by
  unfold StakingState.reports StakingState.met
  rw [← filterMap_takeWhile (fun v hv => hkeyed v (mem_of_filterMap_get hv)),
    List.filterMap_filterMap]
  rfl

/-- nobody is removed, so the engine follows only if nobody has to be -/
theorem kept_of_follows (hups : updates = s.reports r) (hf : Follows r set updates s s') :
    Kept r set s := by
  intro pk hpk
  have hnonzero : ∀ u ∈ updates, u.2 ≠ 0 := fun u hu => reports_nonzero (hups ▸ hu)
  obtain ⟨e, he, rfl⟩ := List.mem_map.mp (mem_keys_applyUpdates hnonzero hpk)
  exact List.mem_map_of_mem ((hf.active e).mp he)

section
variable (hkeyed : s.Keyed) (hunique : KeysUnique s)
include hkeyed hunique

theorem leads_iff : Leads r set s ↔ (∀ u ∈ s.reports r, u ∈ s.activeSet r) ∧
    ∀ u ∈ s.activeSet r, u ∈ s.reports r ∨ u ∈ set.rows := by
  have hreport (v : Validator Addr) (hv : v ∈ s.validators.rows) : ∃ u, v.report r = some u := by
    obtain ⟨pk, hpk⟩ := Option.ne_none_iff_exists'.mp (hkeyed v hv)
    exact ⟨(pk, v.power r), by rw [Validator.report, hpk]; rfl⟩
  rw [reports_eq hkeyed, StakingState.activeSet]
  constructor
  · intro h
    constructor
    · intro u hu
      obtain ⟨v, hv, hvu⟩ := List.mem_filterMap.mp hu
      exact List.mem_filterMap.mpr ⟨v, h.only v hv, hvu⟩
    · intro u hu
      obtain ⟨v, hv, hvu⟩ := List.mem_filterMap.mp hu
      exact (h.all v hv).imp (fun hm => List.mem_filterMap.mpr ⟨v, hm, hvu⟩) (fun hs => hs u hvu)
  · intro h
    constructor
    · intro v hv
      obtain ⟨u, hu⟩ := hreport v (mem_of_met hv)
      obtain ⟨w, hw, hwu⟩ := List.mem_filterMap.mp (h.1 u (List.mem_filterMap.mpr ⟨v, hv, hu⟩))
      rw [hunique.eq_of_report (mem_of_met hv) (mem_of_selected hw) hu hwu rfl]
      exact hw
    · intro v hv
      obtain ⟨u, hu⟩ := hreport v (mem_of_selected hv)
      refine (h.2 u (List.mem_filterMap.mpr ⟨v, hv, hu⟩)).imp (fun hm => ?_) (fun hs w hw => ?_)
      · obtain ⟨w, hw, hwu⟩ := List.mem_filterMap.mp hm
        rw [hunique.eq_of_report (mem_of_selected hv) (mem_of_met hw) hu hwu rfl]
        exact hw
      · rw [hu] at hw
        cases hw
        exact hs

theorem follows_of_apply (hups : updates = s.reports r) :
    Follows r set updates s s' ↔ Kept r set s ∧ Leads r set s := by
  have hnonzero : ∀ u ∈ updates, u.2 ≠ 0 := fun u hu => reports_nonzero (hups ▸ hu)
  -- a key has one power, in the reports and among the selected validators
  have hone {l : List (Validator Addr)} (hl : ∀ v ∈ l, v ∈ s.validators.rows) :
      ∀ u ∈ l.filterMap (Validator.report r), ∀ w ∈ l.filterMap (Validator.report r),
        u.1 = w.1 → u = w := by
    intro u hu w hw he
    obtain ⟨a, ha, hra⟩ := List.mem_filterMap.mp hu
    obtain ⟨b, hb, hrb⟩ := List.mem_filterMap.mp hw
    rw [hunique.eq_of_report (hl a ha) (hl b hb) hra hrb he, hrb] at hra
    exact (Option.some.inj hra).symm
  have hfun : ∀ u ∈ updates, ∀ w ∈ updates, u.1 = w.1 → u = w := by
    rw [hups, reports_eq hkeyed]
    exact hone (fun v hv => mem_of_met hv)
  have hactive : ∀ u ∈ s.activeSet r, ∀ w ∈ s.activeSet r, u.1 = w.1 → u = w :=
    hone (fun v hv => mem_of_selected hv)
  rw [leads_iff hkeyed hunique]
  constructor
  · intro hf
    refine ⟨kept_of_follows hups hf, fun u hu => ?_, fun u hu => ?_⟩
    · exact (hf.active u).mp ((mem_applyUpdates hnonzero hfun).mpr (Or.inl (hups ▸ hu)))
    · rcases (mem_applyUpdates hnonzero hfun).mp ((hf.active u).mpr hu) with hu' | hu'
      · exact Or.inl (hups ▸ hu')
      · exact Or.inr hu'.1
  · intro h
    obtain ⟨hkept, honly, hall⟩ := h
    refine ⟨fun e => ?_, fun pk hpk hnone => absurd (hkept pk hpk) hnone⟩
    rw [mem_applyUpdates hnonzero hfun, hups]
    constructor
    · intro he
      rcases he with he | ⟨hold, hfree⟩
      · exact honly e he
      · -- an old entry without a report: the selected validator of its key has this power
        obtain ⟨u, hu, hk⟩ := List.mem_map.mp (hkept e.1 (List.mem_map_of_mem hold))
        rcases hall u hu with hr | hset
        · exact absurd hk (hfree u hr)
        · rw [← Table.eq_of_key hset hold hk]
          exact hu
    · intro he
      rcases hall e he with hr | hset
      · exact Or.inl hr
      · by_cases hfree : ∀ u ∈ s.reports r, u.1 ≠ e.1
        · exact Or.inr ⟨hset, hfree⟩
        · push Not at hfree
          obtain ⟨u, hu, hk⟩ := hfree
          rw [hactive e he u (honly u hu) hk.symm]
          exact Or.inl hu

end

theorem met_of_agree [Std.IsLinearOrder Addr] (h : Agree r s) : s.met r = s.selected r := by
  have hget {l : List (Validator Addr)} (hl : ∀ v ∈ l, v ∈ s.validators.rows) :
      (l.map Validator.operatorAddress).filterMap s.validators.get = l := by
    rw [List.filterMap_map]
    refine (List.filterMap_congr (fun v hv => ?_)).trans List.filterMap_some
    exact Table.mem_rows_iff.mp (hl v hv)
  rw [StakingState.met, powerIndexOrder_eq h, ← List.map_take,
    hget (fun v hv => (mem_ranking.mp (List.mem_of_mem_take hv)).1)]
  rfl

/-! ## the selection, from the state before the upgrade -/

section
variable [Std.IsLinearOrder Addr]

/-- the validators after the upgrade and the jailings, the most powerful first, without those that are
jailed -/
def StakingState.upgradedRanking (r : ℤ) (jailed : List Addr) (s : StakingState Addr) :
    List (Validator Addr) :=
  ((s.validators.rows.map fun v => (movedValidator "" v).jailedBy jailed).filter
    fun v => !v.jailed).insertionSort (RanksBefore r)

/-- the first `maxValidators` of them, as far as they have power -/
def StakingState.upgradedSelection (r : ℤ) (jailed : List Addr) (s : StakingState Addr) :
    List (Validator Addr) :=
  ((s.upgradedRanking r jailed).take s.maxValidators).takeWhile fun v => v.power r ≠ 0

/-- a validator whatever its owner, which nothing ranks by -/
def Validator.unowned (v : Validator Addr) : Validator Addr := { v with ownerAddress := "" }

theorem ranked_eq {l l' : List (Validator Addr)} (hp : l.Perm l')
    (hn : (l.map Validator.operatorAddress).Nodup) :
    l.insertionSort (RanksBefore r) = l'.insertionSort (RanksBefore r) := by
  have htotal : Std.Total (fun v w : Validator Addr => RanksBefore r v w) :=
    ⟨fun v w => entryBefore_total (v.entry r) (w.entry r)⟩
  have htrans : IsTrans (Validator Addr) (RanksBefore r) :=
    ⟨fun u v w => entryBefore_trans (e := u.entry r) (f := v.entry r) (g := w.entry r)⟩
  refine List.Perm.eq_of_pairwise (fun v w hv hw h1 h2 => ?_) (List.pairwise_insertionSort _ l)
    (List.pairwise_insertionSort _ l') ?_
  · have hkey := entryBefore_key (e := v.entry r) (f := w.entry r) h1 h2
    exact List.inj_on_of_nodup_map hn (List.mem_insertionSort _ |>.mp hv)
      (hp.mem_iff.mpr (List.mem_insertionSort _ |>.mp hw)) (congrArg Prod.snd hkey)
  · exact (List.perm_insertionSort _ _).trans (hp.trans (List.perm_insertionSort _ _).symm)

/-- **The selection after the upgrade and the jailings**, when no addresses collide. -/
theorem selected_upgraded {cfg : Config Addr} {s s1 : App Addr} {s2 : StakingState Addr}
    {jailed : List Addr} (hrm : cfg.RemovesKeys) (hagree : Agree cfg.powerReduction s.staking)
    (hno : NoCollision s.staking.validators.rows) (h1 : fixValidator cfg s = .ok s1)
    (h2 : jailed.foldlM (StakingState.jail cfg.powerReduction) s1.staking = .ok s2) :
    (s2.selected r).map Validator.unowned = s.staking.upgradedSelection r jailed := by
  obtain ⟨adminAddr, _, hloop⟩ := fixValidator_ok h1
  obtain ⟨hmax, hrows⟩ := jail_records h2 (agree_run hrm hloop hagree hno)
  have hrun := validators_run hrm hloop
  have hmaxloop : s1.staking.maxValidators = s.staking.maxValidators := by
    refine foldlM_ok (I := fun _ t => t.staking.maxValidators = s.staking.maxValidators) hloop rfl ?_
    intro done v rest t t' _ hI hstep
    obtain ⟨stake, pk, owner, _, _, _, rfl⟩ := fixValidatorStep_ok hrm hstep
    exact hI
  have hmem (x : Validator Addr) : x ∈ s2.validators.rows.map Validator.unowned ↔
      x ∈ s.staking.validators.rows.map fun v => (movedValidator "" v).jailedBy jailed := by
    rw [List.mem_map, List.mem_map]
    constructor
    · rintro ⟨w, hw, rfl⟩
      obtain ⟨y, hy, rfl⟩ := (hrows w).mp hw
      obtain ⟨v, hv, owner, rfl⟩ := Rekey.Run.exists_survivor hrun MovedFrom.operatorAddress hy
      exact ⟨v, (Rekey.survivors_sublist _).subset hv, rfl⟩
    · rintro ⟨v, hv, rfl⟩
      obtain ⟨owner, hw⟩ := hrun.moved hno hv
      exact ⟨_, (hrows _).mpr ⟨_, hw, rfl⟩, rfl⟩
  have hnodup : ((s2.validators.rows.map Validator.unowned).map Validator.operatorAddress).Nodup := by
    rw [List.map_map]
    exact s2.validators.nodup
  have hnodup' : ((s.staking.validators.rows.map
      fun v => (movedValidator "" v).jailedBy jailed).map Validator.operatorAddress).Nodup := by
    rw [List.map_map]
    exact List.pairwise_map.mpr (hno.imp fun h => h.1)
  have hperm := (List.perm_ext_iff_of_nodup (List.Nodup.of_map _ hnodup)
    (List.Nodup.of_map _ hnodup')).mpr hmem
  have hfilter : (s2.validators.rows.filter fun v => !v.jailed).map Validator.unowned
      = (s2.validators.rows.map Validator.unowned).filter fun v => !v.jailed := by
    rw [List.filter_map]
    rfl
  have hranking : (s2.ranking r).map Validator.unowned = s.staking.upgradedRanking r jailed := by
    rw [StakingState.ranking, StakingState.upgradedRanking,
      List.map_insertionSort (r := RanksBefore r) (RanksBefore r) Validator.unowned _
        (fun _ _ _ _ => Iff.rfl), hfilter]
    exact ranked_eq (hperm.filter _) (hnodup.sublist ((List.filter_sublist).map _))
  rw [StakingState.selected, StakingState.upgradedSelection, hmax, hmaxloop, ← hranking,
    ← List.map_take, List.takeWhile_map]
  rfl

end

/-! ## the upgrade block -/

section
variable {cfg : Config Addr} {ctx : Context} {s s1 s3 : App Addr} {s2 : StakingState Addr}
  {jailed : List Addr}

theorem leads_of_noCollision [Std.IsLinearOrder Addr] (hrm : cfg.RemovesKeys)
    (hagree : Agree cfg.powerReduction s.staking) (hno : NoCollision s.staking.validators.rows)
    (h1 : fixValidator cfg s = .ok s1)
    (h2 : jailed.foldlM (StakingState.jail cfg.powerReduction) s1.staking = .ok s2) :
    Leads cfg.powerReduction set s2 := by
  obtain ⟨adminAddr, _, hloop⟩ := fixValidator_ok h1
  have hmet := met_of_agree ((jail_run h2).2 (agree_run hrm hloop hagree hno))
  refine ⟨fun v hv => ?_, fun v hv => Or.inl ?_⟩
  · rw [← hmet]
    exact hv
  · rw [hmet]
    exact hv

/-- the consensus engine follows when every key of its old set is still selected and the power index
leads to the selected validators -/
theorem follows_iff_leads (hrm : cfg.RemovesKeys) (hagree : Agree cfg.powerReduction s.staking)
    (hset : EngineMatches set s.staking) (h1 : fixValidator cfg s = .ok s1)
    (h2 : jailed.foldlM (StakingState.jail cfg.powerReduction) s1.staking = .ok s2)
    (h3 : ({ s1 with staking := s2 } : App Addr).applyAndReturnValidatorSetUpdates cfg ctx
      = .ok (s3, updates)) :
    Follows cfg.powerReduction set updates s2 s3.staking ↔
    Kept cfg.powerReduction set s2 ∧ Leads cfg.powerReduction set s2 := by
  obtain ⟨adminAddr, _, hloop⟩ := fixValidator_ok h1
  obtain ⟨hkeyed, hunique⟩ := jail_keys h2 (keys_run hrm hloop hagree)
  have hlast : s2.lastValidatorPower.rows = [] := by
    rw [(jail_run h2).1]
    exact lastPowers_empty hrm h1 hset
  obtain ⟨y, hy, _, rfl⟩ := App.applyAndReturn_ok.mp h3
  exact follows_of_apply hkeyed hunique (updates_eq hlast hkeyed hy)

/-- No addresses collide, and every key of the consensus engine's set is that of a validator which the
upgrade and the jailings leave among the `maxValidators` most powerful. -/
structure StaysSelected (r : ℤ) (jailed : List Addr) (set : Index PubKey ℤ) (s : StakingState Addr) :
    Prop where
  apart : NoCollision s.validators.rows
  selected : ∀ pk ∈ set.keys, ∃ v ∈ s.upgradedSelection r jailed, v.consensusPubkey = some pk

theorem kept_iff : Kept r set s2 ↔
    ∀ pk ∈ set.keys, ∃ v ∈ (s2.selected r).map Validator.unowned, v.consensusPubkey = some pk := by
  refine forall₂_congr (fun pk _ => ?_)
  unfold StakingState.activeSet
  rw [List.mem_map]
  constructor
  · rintro ⟨u, hu, rfl⟩
    obtain ⟨v, hv, hr⟩ := List.mem_filterMap.mp hu
    obtain ⟨pk, hpk, rfl⟩ := Option.map_eq_some_iff.mp hr
    exact ⟨v.unowned, List.mem_map_of_mem hv, hpk⟩
  · rintro ⟨w, hw, hpk⟩
    obtain ⟨v, hv, rfl⟩ := List.mem_map.mp hw
    have hpk : v.consensusPubkey = some pk := hpk
    exact ⟨(pk, v.power r), List.mem_filterMap.mpr ⟨v, hv, by rw [Validator.report, hpk]; rfl⟩, rfl⟩

/-- a key that is kept is that of a validator that no other one overwrote -/
theorem survives_of_kept (hrm : cfg.RemovesKeys) (hagree : Agree cfg.powerReduction s.staking)
    (h1 : fixValidator cfg s = .ok s1)
    (h2 : jailed.foldlM (StakingState.jail cfg.powerReduction) s1.staking = .ok s2)
    (hkept : Kept cfg.powerReduction set s2) {v : Validator Addr} {pk : PubKey}
    (hv : v ∈ s.staking.validators.rows) (hpk : v.consensusPubkey = some pk) (hin : pk ∈ set.keys) :
    v ∈ survivors s.staking.validators.rows := by
  obtain ⟨adminAddr, _, hloop⟩ := fixValidator_ok h1
  have hrun := validators_run hrm hloop
  -- every record after the jailings has the key of a validator that survived
  have horigin : ∀ w ∈ s2.validators.rows, ∃ u ∈ survivors s.staking.validators.rows,
      u.consensusPubkey = w.consensusPubkey := by
    refine foldlM_ok (I := fun _ t => ∀ w ∈ t.validators.rows,
      ∃ u ∈ survivors s.staking.validators.rows, u.consensusPubkey = w.consensusPubkey) h2
      (fun w hw => ?_) ?_
    · obtain ⟨u, hu, owner, rfl⟩ := Rekey.Run.exists_survivor hrun MovedFrom.operatorAddress hw
      exact ⟨u, hu, rfl⟩
    · intro done a rest t t' _ hI hstep w hw
      obtain ⟨x, hx, _, _, rfl⟩ := jail_ok hstep
      rcases Table.mem_put.mp hw with rfl | ⟨hw, _⟩
      · exact hI x hx
      · exact hI w hw
  obtain ⟨u, hu, rfl⟩ := List.mem_map.mp (hkept pk hin)
  obtain ⟨w, hw, hr⟩ := List.mem_filterMap.mp hu
  obtain ⟨pk', hpk', rfl⟩ := Option.map_eq_some_iff.mp hr
  obtain ⟨z, hz, hkey⟩ := horigin w (mem_of_selected hw)
  rw [← hagree.unique hv ((Rekey.survivors_sublist _).subset hz) hpk (hkey.trans hpk') rfl]
  exact hz

/-- **The consensus engine follows** when no addresses collide and every key of its old set is that of
a validator still selected after the upgrade and the jailings.  It follows in no other case, unless the
validators that a collision overwrites had no place in the old set. -/
theorem follows_iff [Std.IsLinearOrder Addr] (hrm : cfg.RemovesKeys)
    (hagree : Agree cfg.powerReduction s.staking) (hset : EngineMatches set s.staking)
    (h1 : fixValidator cfg s = .ok s1)
    (h2 : jailed.foldlM (StakingState.jail cfg.powerReduction) s1.staking = .ok s2)
    (h3 : ({ s1 with staking := s2 } : App Addr).applyAndReturnValidatorSetUpdates cfg ctx
      = .ok (s3, updates)) :
    (StaysSelected cfg.powerReduction jailed set s.staking →
      Follows cfg.powerReduction set updates s2 s3.staking) ∧
    ((∀ v ∈ s.staking.validators.rows, v ∉ survivors s.staking.validators.rows →
        ∃ pk ∈ set.keys, v.consensusPubkey = some pk) →
      Follows cfg.powerReduction set updates s2 s3.staking →
        StaysSelected cfg.powerReduction jailed set s.staking) := by
  have hiff := follows_iff_leads hrm hagree hset h1 h2 h3
  constructor
  · intro h
    refine hiff.mpr ⟨kept_iff.mpr ?_, leads_of_noCollision hrm hagree h.apart h1 h2⟩
    rw [selected_upgraded hrm hagree h.apart h1 h2]
    exact h.selected
  · intro hactive hf
    have hkept := (hiff.mp hf).1
    have hall : ∀ v ∈ s.staking.validators.rows, v ∈ survivors s.staking.validators.rows := by
      intro v hv
      by_contra hnot
      obtain ⟨pk, hin, hpk⟩ := hactive v hv hnot
      exact hnot (survives_of_kept hrm hagree h1 h2 hkept hv hpk hin)
    have hno : NoCollision s.staking.validators.rows := by
      refine Rekey.survivors_eq_iff.mp ?_
      refine (Rekey.survivors_sublist _).eq_of_length_le ?_
      exact List.Subperm.length_le (List.subperm_of_subset s.staking.validators.nodup_rows hall)
    refine ⟨hno, ?_⟩
    rw [← selected_upgraded hrm hagree hno h1 h2]
    exact kept_iff.mp hkept

end

end

/-- the end of the upgrade block: the loop, the jailings and the validator updates -/
def upgradeBlock (jailed : List String) (s : App String) :
    Res (App String × StakingState String × App String × List ValidatorUpdate) := do
  let s1 ← fixValidator (Config.fixed "me1admin" "me1dev") s
  let s2 ← jailed.foldlM (StakingState.jail 1000000) s1.staking
  let r ← ({ s1 with staking := s2 } : App String).applyAndReturnValidatorSetUpdates
    (Config.fixed "me1admin" "me1dev") .first
  .ok (s1, s2, r.1, r.2)

theorem upgradeBlock_ok {jailed : List String} {s : App String}
    {q : App String × StakingState String × App String × List ValidatorUpdate}
    (h : upgradeBlock jailed s = .ok q) :
    fixValidator (Config.fixed "me1admin" "me1dev") s = .ok q.1 ∧
    jailed.foldlM (StakingState.jail 1000000) q.1.staking = .ok q.2.1 ∧
    ({ q.1 with staking := q.2.1 } : App String).applyAndReturnValidatorSetUpdates
      (Config.fixed "me1admin" "me1dev") .first = .ok (q.2.2.1, q.2.2.2) := by
  obtain ⟨s1, h1, h⟩ := bind_eq_ok.mp h
  obtain ⟨s2, h2, h⟩ := bind_eq_ok.mp h
  obtain ⟨r, h3, h⟩ := bind_eq_ok.mp h
  cases h
  exact ⟨h1, h2, h3⟩

/-- two active validators, with the last powers the consensus engine has -/
def activeNodes : App String :=
  { twoNodes "node1" "node2" with
    staking := { (twoNodes "node1" "node2").staking with
      lastValidatorPower := (Table.empty.put ("me1val1", 5)).put ("me1val2", 5) } }

/-- the consensus engine's set, with their keys -/
def engineSet : Index PubKey ℤ := (Table.empty.put ("pk1", 5)).put ("pk2", 5)

theorem agree_activeNodes : Agree 1000000 activeNodes.staking :=
  (agree_twoNodes "node1" "node2").congr rfl rfl rfl

theorem follows_activeNodes :
    ∃ q, upgradeBlock [] activeNodes = .ok q ∧
      Follows 1000000 engineSet q.2.2.2 q.2.1 q.2.2.1.staking := by
  obtain ⟨q, hq⟩ := exists_ok_of_isOk (x := upgradeBlock [] activeNodes) (by decide +kernel)
  obtain ⟨h1, h2, h3⟩ := upgradeBlock_ok hq
  have hstays : StaysSelected 1000000 [] engineSet activeNodes.staking :=
    ⟨by decide, by decide +kernel⟩
  exact ⟨q, hq, (follows_iff (fun _ _ => rfl) agree_activeNodes (by decide) h1 h2 h3).1 hstays⟩

/-- a validator jailed in the upgrade block stays in the consensus engine's set -/
theorem jailed_validator_stays :
    Agree 1000000 activeNodes.staking ∧ EngineMatches engineSet activeNodes.staking ∧
    ∃ q, upgradeBlock ["address of pk1"] activeNodes = .ok q ∧
      ¬ Follows 1000000 engineSet q.2.2.2 q.2.1 q.2.2.1.staking := by
  refine ⟨agree_activeNodes, by decide, ?_⟩
  obtain ⟨q, hq, hups, hdropped⟩ := exists_ok_of_check
    (x := upgradeBlock ["address of pk1"] activeNodes)
    (p := fun q => q.2.2.2 = q.2.1.reports 1000000 ∧ ¬ Kept 1000000 engineSet q.2.1)
    (by decide +kernel)
  exact ⟨q, hq, fun hf => hdropped (kept_of_follows hups hf)⟩

end MeChain
