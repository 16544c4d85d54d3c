import MeChain.Export.PowerIndex

/-!
# The allow list of the export

The entries of the list are checked by decoding them, and then looked up by their text.

* `NewlyJailed`         validators that were not jailed, and are;
* `JailsByAddress`      the export jails those that no entry of the list stands for;
* `jailsByAddress_iff`  when it does;
* `Letters`             addresses with two spellings, as bech32 has them.
-/

set_option linter.unusedSectionVars false

namespace MeChain
open Fallible

variable {Addr : Type} [SdkAddress Addr] [DecidableEq Addr] [ValAddress Addr]

/-- the validator was not jailed, and is -/
def NewlyJailed (s t : StakingState Addr) (op : Addr) : Prop :=
  (∃ v, s.validators.get op = some v ∧ v.jailed = false) ∧
    ∃ w, t.validators.get op = some w ∧ w.jailed = true

/-- The validators that become jailed are those that were not and whose address no entry of the list
decodes to. -/
def JailsByAddress (jailAllowedAddrs : List String) (s t : StakingState Addr) : Prop :=
  ∀ v ∈ s.validators.rows, NewlyJailed s t v.operatorAddress ↔
    v.jailed = false ∧ Unlisted jailAllowedAddrs v.operatorAddress

/-- Every validator that the list allows, unless it is jailed already, is in it as the chain prints its
address. -/
def PrintedAsListed (jailAllowedAddrs : List String) (s : StakingState Addr) : Prop :=
  ∀ v ∈ s.validators.rows, v.jailed = false →
    (∃ a ∈ jailAllowedAddrs, valAddressFromBech32 a = .ok v.operatorAddress) →
    valStr v.operatorAddress ∈ jailAllowedAddrs

section
variable {l : List String} {s t : StakingState Addr} {v : Validator Addr} {op : Addr}

theorem not_unlisted :
    ¬ Unlisted l op ↔ ∃ a ∈ l, valAddressFromBech32 a = .ok op := by
  unfold Unlisted
  simp only [ne_eq, not_forall, not_not, exists_prop]

/-- what jails a validator, if the records are those of the traversal but for what the updates of the
validator set write -/
theorem newlyJailed_iff {height : ℤ} {b u : List Addr} (hv : v ∈ s.validators.rows)
    (ht : t.validators.get v.operatorAddress
      = (s.validators.get v.operatorAddress).map fun v => (v.reset l).settled height b u) :
    NewlyJailed s t v.operatorAddress ↔ v.jailed = false ∧ Excluded l v.operatorAddress := by
  have hget : s.validators.get v.operatorAddress = some v := Table.mem_rows_iff.mp hv
  rw [hget, Option.map_some] at ht
  have hjailed : ((v.reset l).settled height b u).jailed = true ↔
      v.jailed = true ∨ Excluded l v.operatorAddress := by
    rw [settled_jailed, reset_jailed]
  constructor
  · intro h
    obtain ⟨⟨v', hv', hj⟩, w, hw, hwj⟩ := h
    obtain rfl : v = v' := Option.some.inj (hget.symm.trans hv')
    rw [ht, Option.some.injEq] at hw
    rcases hjailed.mp (hw ▸ hwj) with hj' | hex
    · rw [hj] at hj'
      cases hj'
    · exact ⟨hj, hex⟩
  · intro h
    exact ⟨⟨v, hget, h.1⟩, _, ht, hjailed.mpr (.inr h.2)⟩

/-- to be excluded and to be unlisted are the same for addresses that are listed as printed -/
theorem excluded_iff_unlisted (hl : l ≠ []) : (Excluded l op ↔ Unlisted l op) ↔
    ((∃ a ∈ l, valAddressFromBech32 a = .ok op) → valStr op ∈ l) := by
  constructor
  · intro h hlisted
    by_contra hnot
    exact not_unlisted.mpr hlisted (h.mp ⟨hl, hnot⟩)
  · intro h
    refine ⟨fun hex => ?_, fun hun => hun.excluded hl⟩
    by_contra hlisted
    exact hex.2 (h (not_unlisted.mp hlisted))

theorem jailsByAddress_of_records {height : ℤ} {b u : List Addr} (hl : l ≠ [])
    (ht : ∀ op, t.validators.get op
      = (s.validators.get op).map fun v => (v.reset l).settled height b u) :
    JailsByAddress l s t ↔ PrintedAsListed l s := by
  refine forall_congr' (fun v => forall_congr' (fun hv => ?_))
  rw [newlyJailed_iff hv (ht _), and_congr_right_iff]
  exact forall_congr' (fun _ => excluded_iff_unlisted hl)

variable [LE Addr] [DecidableLE Addr] {x : ExportConfig Addr} {ctx : Context}

/-- **The list is honoured by address exactly when** its spellings are those the chain prints: after
the traversal, and in every export that completes. -/
theorem jailsByAddress_iff (hl : l ≠ []) (s : App Addr) :
    (JailsByAddress l s.staking (s.staking.resetHeights l) ↔ PrintedAsListed l s.staking) ∧
      ∀ s', prepForZeroHeightGenesis x ctx l s = .ok s' →
        (JailsByAddress l s.staking s'.staking ↔ PrintedAsListed l s.staking) := by
  constructor
  · have hrecords : ∀ op, (s.staking.resetHeights l).validators.get op
        = (s.staking.validators.get op).map fun v => (v.reset l).settled 0 [] [] := by
      intro op
      rw [resetHeights_get, funext (fun _ => settled_nil : ∀ v : Validator Addr,
        (v.reset l).settled 0 [] [] = v.reset l)]
    exact jailsByAddress_of_records hl hrecords
  · intro s' h
    exact jailsByAddress_of_records hl
      (exportedStaking_of_settled (prepForZeroHeightGenesis_settled h).1).validators

end

/-! ## addresses with two spellings -/

/-- a spelling in lower case -/
def lowerCase (s : String) : String := String.ofList (s.toList.map Char.toLower)

def upperCase (s : String) : String := String.ofList (s.toList.map Char.toUpper)

/-- Addresses as bech32 spells them: decoding accepts an address in lower and in upper case, and
printing it gives lower case. -/
abbrev Letters := { s : String // lowerCase s = s }

/-- the address with this spelling, if it is in lower case -/
def Letters.of (s : String) : Letters := if h : lowerCase s = s then ⟨s, h⟩ else ⟨"", rfl⟩

def Letters.decode (s : String) : Except Error Letters :=
  if h : lowerCase s = s then .ok ⟨s, h⟩
  else if upperCase s = s then .ok (.of (lowerCase s))
  else .error ⟨.invalidAddress, "decoding bech32 failed: string not all lowercase or all uppercase"⟩

instance lettersAddress : SdkAddress Letters where
  newModuleAddress name := .of ("module/" ++ name)
  accAddressFromBech32 := Letters.decode
  mustAccAddressFromBech32 s := .of s
  str a := a.1
  pubKeyAddress pk := .of ("address of " ++ pk)
  fromBech32_str a := dif_pos a.2

instance lettersValAddress : ValAddress Letters where
  valAddressFromBech32 := Letters.decode
  valStr a := a.1
  valFromBech32_str a := dif_pos a.2

/-- a validator that is not bonded -/
def lettersValidator (op : String) (jailed : Bool) : Validator Letters :=
  ⟨.of op, some "pk1", jailed, .unbonded, some 100, some (Dec.ofInt 100), "node1", 0, "me1dev"⟩

/-- three validators, the last of them jailed -/
def lettersChain : App Letters :=
  { App.empty with
    bank := ⟨⟨[⟨newModuleAddress "not_bonded_tokens_pool", "umec", 300⟩], by decide⟩,
      ⟨[⟨"umec", 300⟩], by decide⟩⟩
    staking := { StakingState.empty with
      validators := ⟨[lettersValidator "me1val1" false, lettersValidator "me1val2" false,
        lettersValidator "me1val3" true], by decide +kernel⟩ } }

def ExportConfig.letters : ExportConfig Letters where
  cfg := {
    names := .sdk
    powerReduction := 1000000
    getGlobalAdminAddr _ := .ok (.of "me1admin")
    getDevOperatorAddress _ := "me1dev"
    removeValidatorKeys := StakingState.dropKeys }
  rules := .unslashed
  invariants := [moduleAccountsBroken .sdk]

/-- one validator is listed, as it is printed; the second is jailed, the third stays so -/
theorem jailsByAddress_lower :
    ∃ s', prepForZeroHeightGenesis .letters .fifty ["me1val1"] lettersChain = .ok s' ∧
      JailsByAddress ["me1val1"] lettersChain.staking s'.staking ∧
      (["me1val1", "me1val2", "me1val3"].map fun op =>
        (s'.staking.validators.get (.of op)).map Validator.jailed)
          = [some false, some true, some true] := by
  obtain ⟨s', hs', hjailed⟩ := exists_ok_of_check
    (x := prepForZeroHeightGenesis .letters .fifty ["me1val1"] lettersChain)
    (p := fun s' => (["me1val1", "me1val2", "me1val3"].map fun op =>
      (s'.staking.validators.get (.of op)).map Validator.jailed)
        = [some false, some true, some true])
    (by decide +kernel)
  refine ⟨s', hs', ?_, hjailed⟩
  refine ((jailsByAddress_iff (List.cons_ne_nil _ _) lettersChain).2 s' hs').mpr ?_
  intro v hv hj hlisted
  obtain ⟨a, ha, hdecode⟩ := hlisted
  rw [List.mem_singleton.mp ha] at hdecode
  have hop : v.operatorAddress = .of "me1val1" :=
    (Except.ok.inj (hdecode.symm.trans (by decide +kernel :
      (valAddressFromBech32 "me1val1" : Except Error Letters) = .ok (.of "me1val1"))))
  rw [hop]
  decide +kernel

/-- The validator is listed in upper case, and jailed. -/
theorem jailsByAddress_upper_false : ¬ ∀ (l : List String) (s s' : App Letters), l ≠ [] →
    (∀ a ∈ l, ∃ op : Letters, valAddressFromBech32 a = .ok op) →
    prepForZeroHeightGenesis .letters .fifty l s = .ok s' →
    JailsByAddress l s.staking s'.staking := by
  intro hall
  obtain ⟨s', hs', hjailed⟩ := exists_ok_of_check
    (x := prepForZeroHeightGenesis .letters .fifty ["ME1VAL1"] lettersChain)
    (p := fun s' => ((s'.staking.validators.get (.of "me1val1")).map Validator.jailed = some true))
    (by decide +kernel)
  have hdecode : (valAddressFromBech32 "ME1VAL1" : Except Error Letters) = .ok (.of "me1val1") := by
    decide +kernel
  have hmem : lettersValidator "me1val1" false ∈ lettersChain.staking.validators.rows :=
    List.mem_cons_self ..
  have hlaw := hall ["ME1VAL1"] lettersChain s' (List.cons_ne_nil _ _)
    (fun a ha => List.mem_singleton.mp ha ▸ ⟨_, hdecode⟩) hs' _ hmem
  obtain ⟨w, hw, hwj⟩ := Option.map_eq_some_iff.mp hjailed
  have hbefore := Table.mem_rows_iff.mp hmem
  have hnew := hlaw.mp ⟨⟨_, hbefore, rfl⟩, w, hw, hwj⟩
  exact hnew.2 "ME1VAL1" (List.mem_singleton_self _) hdecode

end MeChain
