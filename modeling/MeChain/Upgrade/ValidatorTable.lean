import MeChain.Lib.Rekey
import MeChain.Upgrade.FixValidator

/-!
# When `fixValidator` keeps every validator

The new operator addresses are chosen by moniker, and they are written while other validators still
sit under their old ones: the loop moves the rows of the validator table to new keys.
`NoCollision` says that no new address is chosen twice and that none is the old address of a
validator that comes later.

* `Agree`              the validator table and its two indexes agree;
* `Agree.drop`, `Agree.add`   one validator out, one validator in;
* `validators_run`     the validator table after the loop, whatever the addresses are;
* `noneLost_iff`       no validator is lost or merged exactly when there is no collision.
-/

set_option linter.unusedSectionVars false

namespace MeChain
open Fallible

variable {Addr : Type} [SdkAddress Addr] [DecidableEq Addr]

/-! ## the table and its indexes -/

/-- Every validator has a key; the consensus index maps the address of every key to the operator
address of its validator; the power index has one entry for every validator that is not jailed. -/
structure Agree (r : ℤ) (s : StakingState Addr) : Prop where
  keyed : ∀ v ∈ s.validators.rows, v.consensusPubkey ≠ none
  consAddr : ∀ e, e ∈ s.validatorsByConsAddr.rows ↔
    ∃ v ∈ s.validators.rows, ∃ pk, v.consensusPubkey = some pk ∧
      e = (pubKeyAddress pk, v.operatorAddress)
  power : ∀ e, e ∈ s.validatorsByPowerIndex.rows ↔
    ∃ v ∈ s.validators.rows, v.jailed = false ∧
      e = (powerKey r v.tokens v.operatorAddress, v.operatorAddress)

section
variable {r : ℤ} {s : StakingState Addr} {v : Validator Addr} {pk : PubKey}

theorem Agree.unique (h : Agree r s) {w : Validator Addr} {pk' : PubKey}
    (hv : v ∈ s.validators.rows) (hw : w ∈ s.validators.rows) (hpk : v.consensusPubkey = some pk)
    (hpk' : w.consensusPubkey = some pk')
    (he : (pubKeyAddress pk : Addr) = pubKeyAddress pk') : w = v := by
  have h1 := (h.consAddr (pubKeyAddress pk, v.operatorAddress)).mpr ⟨v, hv, pk, hpk, rfl⟩
  have h2 := (h.consAddr (pubKeyAddress pk', w.operatorAddress)).mpr ⟨w, hw, pk', hpk', rfl⟩
  have heq := Table.eq_of_key h2 h1 he.symm
  exact Table.eq_of_key hw hv (congrArg Prod.snd heq)

/-- the store without one validator -/
def dropped (r : ℤ) (v : Validator Addr) (pk : PubKey) (s : StakingState Addr) :
    StakingState Addr :=
  { s with
    validators := s.validators.del v.operatorAddress
    validatorsByConsAddr := s.validatorsByConsAddr.del (pubKeyAddress pk)
    validatorsByPowerIndex :=
      s.validatorsByPowerIndex.del (powerKey r v.tokens v.operatorAddress) }

/-- the store with one validator more -/
def added (r : ℤ) (v : Validator Addr) (pk : PubKey) (s : StakingState Addr) : StakingState Addr :=
  { s with
    validators := s.validators.put v
    validatorsByConsAddr := s.validatorsByConsAddr.put (pubKeyAddress pk, v.operatorAddress)
    validatorsByPowerIndex := if v.jailed then s.validatorsByPowerIndex
      else s.validatorsByPowerIndex.put
        (powerKey r v.tokens v.operatorAddress, v.operatorAddress) }

theorem Agree.drop (h : Agree r s) (hv : v ∈ s.validators.rows) (hpk : v.consensusPubkey = some pk) :
    Agree r (dropped r v pk s) where
  keyed w hw := h.keyed w (Table.mem_del.mp hw).1
  consAddr e := by
    show e ∈ (s.validatorsByConsAddr.del (pubKeyAddress pk)).rows ↔
      ∃ w ∈ (s.validators.del v.operatorAddress).rows, _
    rw [Table.mem_del, h.consAddr]
    constructor
    · intro he
      obtain ⟨⟨w, hw, pk', hpk', rfl⟩, hne⟩ := he
      refine ⟨w, Table.mem_del.mpr ⟨hw, fun hop => hne ?_⟩, pk', hpk', rfl⟩
      rw [Table.eq_of_key hw hv hop, hpk] at hpk'
      cases hpk'
      rfl
    · intro he
      obtain ⟨w, hw, pk', hpk', rfl⟩ := he
      obtain ⟨hw, hop⟩ := Table.mem_del.mp hw
      refine ⟨⟨w, hw, pk', hpk', rfl⟩, fun hca => hop ?_⟩
      rw [h.unique hv hw hpk hpk' hca.symm]
  power e := by
    show e ∈ (s.validatorsByPowerIndex.del (powerKey r v.tokens v.operatorAddress)).rows ↔
      ∃ w ∈ (s.validators.del v.operatorAddress).rows, _
    rw [Table.mem_del, h.power]
    constructor
    · intro he
      obtain ⟨⟨w, hw, hj, rfl⟩, hne⟩ := he
      refine ⟨w, Table.mem_del.mpr ⟨hw, fun hop => hne ?_⟩, hj, rfl⟩
      rw [Table.eq_of_key hw hv hop]
    · intro he
      obtain ⟨w, hw, hj, rfl⟩ := he
      obtain ⟨hw, hop⟩ := Table.mem_del.mp hw
      exact ⟨⟨w, hw, hj, rfl⟩, fun hk => hop (congrArg Prod.snd hk)⟩

theorem Agree.add (h : Agree r s) (hpk : v.consensusPubkey = some pk)
    (hop : v.operatorAddress ∉ s.validators.keys)
    (hca : s.validatorsByConsAddr.get (pubKeyAddress pk) = none) : Agree r (added r v pk s) where
  keyed w hw := by
    rcases Table.mem_put.mp hw with rfl | ⟨hw, _⟩
    · rw [hpk]
      simp
    · exact h.keyed w hw
  consAddr e := by
    show e ∈ (s.validatorsByConsAddr.put (pubKeyAddress pk, v.operatorAddress)).rows ↔
      ∃ w ∈ (s.validators.put v).rows, _
    rw [Table.mem_put, h.consAddr]
    constructor
    · intro he
      rcases he with rfl | ⟨⟨w, hw, pk', hpk', rfl⟩, _⟩
      · exact ⟨v, Table.mem_put.mpr (Or.inl rfl), pk, hpk, rfl⟩
      · exact ⟨w, Table.mem_put.mpr (Or.inr ⟨hw, fun e =>
          hop (e ▸ List.mem_map_of_mem hw)⟩), pk', hpk', rfl⟩
    · intro he
      obtain ⟨w, hw, pk', hpk', rfl⟩ := he
      rcases Table.mem_put.mp hw with rfl | ⟨hw, _⟩
      · rw [hpk] at hpk'
        cases hpk'
        exact Or.inl rfl
      · refine Or.inr ⟨⟨w, hw, pk', hpk', rfl⟩, fun hk => ?_⟩
        have hmem := (h.consAddr (pubKeyAddress pk', w.operatorAddress)).mpr ⟨w, hw, pk', hpk', rfl⟩
        have hget := Table.mem_rows_iff.mp hmem
        rw [show (pubKeyAddress pk' : Addr) = pubKeyAddress pk from hk, hca] at hget
        cases hget
  power e := by
    cases hj : v.jailed with
    | true =>
      show e ∈ (if v.jailed then s.validatorsByPowerIndex else _ : Index (ℤ × Addr) Addr).rows ↔
        ∃ w ∈ (s.validators.put v).rows, _
      rw [if_pos hj, h.power]
      constructor
      · intro he
        obtain ⟨w, hw, hwj, rfl⟩ := he
        exact ⟨w, Table.mem_put.mpr (Or.inr ⟨hw, fun e =>
          hop (e ▸ List.mem_map_of_mem hw)⟩), hwj, rfl⟩
      · intro he
        obtain ⟨w, hw, hwj, rfl⟩ := he
        rcases Table.mem_put.mp hw with rfl | ⟨hw, _⟩
        · rw [hj] at hwj
          cases hwj
        · exact ⟨w, hw, hwj, rfl⟩
    | false =>
      show e ∈ (if v.jailed then s.validatorsByPowerIndex else s.validatorsByPowerIndex.put
          (powerKey r v.tokens v.operatorAddress, v.operatorAddress)).rows ↔
        ∃ w ∈ (s.validators.put v).rows, _
      rw [if_neg (by rw [hj]; simp), Table.mem_put, h.power]
      constructor
      · intro he
        rcases he with rfl | ⟨⟨w, hw, hwj, rfl⟩, _⟩
        · exact ⟨v, Table.mem_put.mpr (Or.inl rfl), hj, rfl⟩
        · exact ⟨w, Table.mem_put.mpr (Or.inr ⟨hw, fun e =>
            hop (e ▸ List.mem_map_of_mem hw)⟩), hwj, rfl⟩
      · intro he
        obtain ⟨w, hw, hwj, rfl⟩ := he
        rcases Table.mem_put.mp hw with rfl | ⟨hw, hne⟩
        · exact Or.inl rfl
        · exact Or.inr ⟨⟨w, hw, hwj, rfl⟩, fun hk => hne (congrArg Prod.snd hk)⟩

theorem Agree.congr (h : Agree r s) {t : StakingState Addr} (h1 : t.validators = s.validators)
    (h2 : t.validatorsByConsAddr = s.validatorsByConsAddr)
    (h3 : t.validatorsByPowerIndex = s.validatorsByPowerIndex) : Agree r t := by
  cases s
  cases t
  cases h1
  cases h2
  cases h3
  exact ⟨h.keyed, h.consAddr, h.power⟩

/-! ## one iteration -/

variable {owner : String} {stake : Stake Addr}

/-- moving a validator that is there is taking it out and adding its new record -/
theorem Agree.move (h : Agree r s) (hv : v ∈ s.validators.rows) (hpk : v.consensusPubkey = some pk)
    (hnew : newOperatorAddress v = v.operatorAddress ∨ newOperatorAddress v ∉ s.validators.keys) :
    Agree r (movedStaking r owner v pk stake s) := by
  have hdrop := h.drop hv hpk
  have hkeys : newOperatorAddress v ∉ (dropped r v pk s).validators.keys := by
    intro hk
    obtain ⟨hne, hk⟩ := Table.mem_keys_del.mp hk
    exact hnew.elim hne (fun hn => hn hk)
  have hadd := Agree.add (v := movedValidator owner v) hdrop hpk hkeys (Table.get_del_self _ _)
  have hget : s.validators.get v.operatorAddress = some v := Table.mem_rows_iff.mp hv
  have hcons : (s.dropKeys v.operatorAddress).validatorsByConsAddr
      = s.validatorsByConsAddr.del (pubKeyAddress pk) := by
    unfold StakingState.dropKeys
    rw [hget]
    dsimp only
    rw [hpk]
  refine hadd.congr rfl ?_ rfl
  show (s.dropKeys v.operatorAddress).validatorsByConsAddr.put _ = _
  rw [hcons]
  rfl

end

/-! ## the run -/

/-- no new operator address is chosen twice, and none is the old address of a later validator -/
abbrev NoCollision (l : List (Validator Addr)) : Prop :=
  Rekey.NoCollision Validator.operatorAddress newOperatorAddress l

/-- the validators that are still there after the loop: no later one takes or deletes their place -/
abbrev survivors (l : List (Validator Addr)) : List (Validator Addr) :=
  Rekey.survivors Validator.operatorAddress newOperatorAddress l

/-- `w` was written for `v` -/
def MovedFrom (v w : Validator Addr) : Prop := ∃ owner, w = movedValidator owner v

theorem MovedFrom.operatorAddress (v w : Validator Addr) (h : MovedFrom v w) :
    w.operatorAddress = newOperatorAddress v := by
  obtain ⟨owner, rfl⟩ := h
  rfl

/-- the validator table after the validators of `done` were visited -/
abbrev ValidatorRun (done : List (Validator Addr)) (s t : StakingState Addr) : Prop :=
  Rekey.Run newOperatorAddress MovedFrom done s.validators t.validators

section
variable {cfg : Config Addr} {s s' : App Addr} {adminAddr : Addr}

theorem ValidatorRun.step {done : List (Validator Addr)} {v : Validator Addr} {r : ℤ}
    {owner : String} {pk : PubKey} {stake : Stake Addr} {s t : StakingState Addr}
    (h : ValidatorRun done s t) :
    ValidatorRun (done ++ [v]) s (movedStaking r owner v pk stake t) :=
  Rekey.Run.step h MovedFrom.operatorAddress ⟨owner, rfl⟩

/-- **The validator table after the loop**, collisions or not. -/
theorem validators_run (hrm : cfg.RemovesKeys)
    (h : s.staking.validators.rows.foldlM (fixValidatorStep cfg adminAddr) s = .ok s') :
    ValidatorRun s.staking.validators.rows s.staking s'.staking := by
  refine foldlM_ok (I := fun done t => ValidatorRun done s.staking t.staking) h
    (Rekey.Run.start _) ?_
  intro done v rest t t' _ hI hstep
  obtain ⟨stake, pk, owner, _, _, _, rfl⟩ := fixValidatorStep_ok hrm hstep
  exact hI.step

/-- without collisions every validator of the listing is there under its new address -/
theorem ValidatorRun.moved {s t : StakingState Addr} (h : ValidatorRun s.validators.rows s t)
    (hno : NoCollision s.validators.rows) {v : Validator Addr} (hv : v ∈ s.validators.rows) :
    ∃ owner, movedValidator owner v ∈ t.validators.rows := by
  rw [← Rekey.survivors_eq_iff.mpr hno] at hv
  obtain ⟨w, ⟨owner, rfl⟩, hw⟩ := Rekey.Run.moved h v hv
  exact ⟨owner, hw⟩

/-- without collisions the indexes stay in step -/
theorem agree_run (hrm : cfg.RemovesKeys)
    (h : s.staking.validators.rows.foldlM (fixValidatorStep cfg adminAddr) s = .ok s')
    (hpre : Agree cfg.powerReduction s.staking) (hno : NoCollision s.staking.validators.rows) :
    Agree cfg.powerReduction s'.staking := by
  refine (foldlM_ok (I := fun done t => ValidatorRun done s.staking t.staking ∧
    Agree cfg.powerReduction t.staking) h ⟨Rekey.Run.start _, hpre⟩ ?_).2
  intro done v rest t t' hl hI hstep
  obtain ⟨hmoved, hagree⟩ := hI
  obtain ⟨stake, pk, owner, _, hpk, _, rfl⟩ := fixValidatorStep_ok hrm hstep
  exact ⟨hmoved.step, hagree.move (Rekey.Run.waiting hmoved hno hl) hpk
    (Rekey.Run.free hmoved hno hl)⟩

end

/-! ## no validator lost, none merged -/

/-- What the change of addresses should leave of the validators: as many as before, every consensus
key with exactly one of them, addresses distinct, the indexes in step, and every validator under its
new address with its scaled power. -/
structure NoneLost (r : ℤ) (s s' : StakingState Addr) : Prop where
  length : s'.validators.length = s.validators.length
  keyed : ∀ v ∈ s.validators.rows,
    ∃! w, w ∈ s'.validators.rows ∧ w.consensusPubkey = v.consensusPubkey
  distinct : (s'.validators.rows.map Validator.operatorAddress).Nodup
  agree : Agree r s'
  moved : ∀ v ∈ s.validators.rows, ∃ owner, movedValidator owner v ∈ s'.validators.rows
  power : ∀ v ∈ s.validators.rows, v.jailed = false →
    (powerKey r (v.tokens.map fun a => 100 * a) (newOperatorAddress v), newOperatorAddress v)
      ∈ s'.validatorsByPowerIndex.rows

theorem noneLost_of_noCollision {r : ℤ} {s s' : StakingState Addr}
    (h : ValidatorRun s.validators.rows s s') (hno : NoCollision s.validators.rows)
    (hpre : Agree r s) (hpost : Agree r s') : NoneLost r s s' where
  length := by
    rw [Rekey.Run.length h, Rekey.survivors_eq_iff.mpr hno]
    rfl
  keyed v hv := by
    obtain ⟨owner, hw⟩ := h.moved hno hv
    cases hpk : v.consensusPubkey with
    | none => exact absurd hpk (hpre.keyed v hv)
    | some pk =>
      exact ⟨movedValidator owner v, ⟨hw, hpk⟩, fun x hx => hpost.unique hw hx.1 hpk hx.2 rfl⟩
  distinct := s'.validators.nodup
  agree := hpost
  moved v hv := h.moved hno hv
  power v hv hj := by
    obtain ⟨owner, hw⟩ := h.moved hno hv
    exact (hpost.power _).mpr ⟨movedValidator owner v, hw, hj, rfl⟩

/-- **No validator is lost or merged exactly when there is no collision.** -/
theorem noneLost_iff {cfg : Config Addr} {s s' : App Addr} (hrm : cfg.RemovesKeys)
    (h : fixValidator cfg s = .ok s') (hpre : Agree cfg.powerReduction s.staking) :
    NoneLost cfg.powerReduction s.staking s'.staking ↔ NoCollision s.staking.validators.rows := by
  obtain ⟨adminAddr, _, hloop⟩ := fixValidator_ok h
  have hrun := validators_run hrm hloop
  constructor
  · intro hpost
    -- as many validators as before: all of them survived
    have hlen := hpost.length
    rw [Rekey.Run.length hrun] at hlen
    exact Rekey.noCollision_of_length hlen
  · intro hno
    exact noneLost_of_noCollision hrun hno hpre (agree_run hrm hloop hpre hno)

/-- a bonded validator with 5 ME of tokens -/
def nodeValidator (op : String) (pk : PubKey) (moniker : String) : Validator String :=
  ⟨op, some pk, false, .bonded, some 5000000, some (Dec.ofInt 5000000), moniker, 0, "me1dev"⟩

def nodeStake (staker op : String) : Stake String :=
  ⟨staker, op, some (Dec.ofInt 5000000), 0, 0, some 5000000, 0⟩

/-- two validators with these monikers, the admin's stake in each -/
def twoNodes (moniker1 moniker2 : String) : App String :=
  { App.empty with
    staking :=
      { added 1000000 (nodeValidator "me1val2" "pk2" moniker2) "pk2"
          (added 1000000 (nodeValidator "me1val1" "pk1" moniker1) "pk1" .empty) with
        stakes := (Table.empty.put (nodeStake "me1admin" "me1val1")).put
          (nodeStake "me1admin" "me1val2") } }

theorem Agree.empty (r : ℤ) : Agree r (StakingState.empty : StakingState Addr) where
  keyed _ hv := absurd hv List.not_mem_nil
  consAddr _ := ⟨fun h => absurd h List.not_mem_nil, fun ⟨_, hv, _⟩ => absurd hv List.not_mem_nil⟩
  power _ := ⟨fun h => absurd h List.not_mem_nil, fun ⟨_, hv, _⟩ => absurd hv List.not_mem_nil⟩

theorem agree_twoNodes (moniker1 moniker2 : String) :
    Agree 1000000 (twoNodes moniker1 moniker2).staking := by
  have h0 : Agree 1000000 (StakingState.empty : StakingState String) := Agree.empty 1000000
  have h1 : Agree 1000000 (added 1000000 (nodeValidator "me1val1" "pk1" moniker1) "pk1" .empty) :=
    h0.add rfl List.not_mem_nil rfl
  have h2 : Agree 1000000 (added 1000000 (nodeValidator "me1val2" "pk2" moniker2) "pk2"
      (added 1000000 (nodeValidator "me1val1" "pk1" moniker1) "pk1" .empty)) :=
    h1.add rfl (show "me1val2" ∉ ["me1val1"] by decide)
    (show (Table.empty.put ("address of pk1", "me1val1") : Index String String).get
      "address of pk2" = none by decide)
  exact h2.congr rfl rfl rfl

theorem noneLost_node1_node2 :
    ∃ s', fixValidator (Config.fixed "me1admin" "me1dev") (twoNodes "node1" "node2") = .ok s' ∧
      NoneLost 1000000 (twoNodes "node1" "node2").staking s'.staking := by
  obtain ⟨s', hs'⟩ := exists_ok_of_isOk (x := fixValidator (Config.fixed "me1admin" "me1dev")
    (twoNodes "node1" "node2")) (by decide +kernel)
  exact ⟨s', hs', (noneLost_iff (fun _ _ => rfl) hs' (agree_twoNodes _ _)).mpr (by decide)⟩

/-- two validators that chose one moniker become one -/
theorem fixValidator_merges_node1_node1 :
    Agree 1000000 (twoNodes "node1" "node1").staking ∧
    ∃ s', fixValidator (Config.fixed "me1admin" "me1dev") (twoNodes "node1" "node1") = .ok s' ∧
      ¬ NoneLost 1000000 (twoNodes "node1" "node1").staking s'.staking := by
  obtain ⟨s', hs', hlen⟩ := exists_ok_of_check (x := fixValidator (Config.fixed "me1admin" "me1dev")
    (twoNodes "node1" "node1")) (p := fun s' => s'.staking.validators.length = 1) (by decide +kernel)
  refine ⟨agree_twoNodes _ _, s', hs', fun h => ?_⟩
  have hcount := h.length
  rw [hlen] at hcount
  revert hcount
  decide

end MeChain
