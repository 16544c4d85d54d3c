import MeChain.Upgrade.ResetExponent

/-!
# `fixValidator`: new operator addresses, powers and stakes times 100

The loop visits the validators listed before it started.  Each validator is deleted under its old
operator address and its last power record is dropped; then its record, its index entries and the
admin's stake are written under the operator address that its moniker selects.

* `newOperatorAddress`     the switch over the monikers;
* `fixValidatorStep_ok`    everything one iteration does, from the snapshot of the validator;
* `fixValidator_ok`        a successful run is a loop of such iterations.
-/

set_option linter.unusedSectionVars false

namespace MeChain
open Fallible

/-- the addresses of the 27 nodes, by moniker -/
def nodeAddresses : List (String × String) :=
  [("node1", "me1fm7xpeu2uxp03afq4ea9v27l5krvq29yqnc7nn"),
   ("node2", "me1fp67zvjqmhl3xc7dstepht7nh46jtzxcalytwk"),
   ("node3", "me16a9ku63u7766zvrgpuyzpu6fvmmt0mjf57jn2z"),
   ("node4", "me1cfhxhmtjr6c9h332fdd6enenvr6f6er658508e"),
   ("node5", "me1vevcep3q6gg5q8rfha2naggmrnclgsapv3grcd"),
   ("node6", "me1a8uw8uswg3puyr70hj7yuaxp894900dfayqxx7"),
   ("node7", "me1mmgy7xl9zktyd6ajpxqfajuzyc0x6wpjuwgpkn"),
   ("node8", "me1wylamlxz8juklcywmfnrjeevkuszzv4r2gd9hd"),
   ("node9", "me1hx609plt8tyrptuxsntmvhcgfl9rejerr24p06"),
   ("node10", "me109vphldcx95cl486pguzll8c6teufatn57wgfx"),
   ("node11", "me1ypmq0dt6y983jf24jpw8u97xm66au0ltfsdlhc"),
   ("node12", "me1nhkxkc8pn4mstug3fd38xad9swu85wxzzzn7ga"),
   ("node13", "me18y5rykc4293v50el4yn4fan9gf5qna86evpym5"),
   ("node14", "me1ldav99eec6nm3vp2n8lhza4j792znqfuhecrlg"),
   ("node15", "me1k8fypadjt6z8yt4ufpx2v639har40w6245k3xj"),
   ("node16", "me1k9pdvavle7n6fe7w9seezazlqqs72g835p6qxa"),
   ("node17", "me1t4atmvxqaffpwxjkpm5lxt83q3ja9y5d8nr64j"),
   ("node18", "me14m0dhjc6rs084y427ptnjyc4hfefxhzmyedrga"),
   ("node19", "me1asfkp2ua7splwaf6lqqru3akcrw2l3dupvmewp"),
   ("node20", "me1685gnusadlv86tl73h935626qnsr8u830msdsc"),
   ("node21", "me16d4act7my9tshkxulvr75ntdwc0334pxknck05"),
   ("node22", "me1vlnx284eqf5hlz59y4zdnfx0de5j8zjds5ny4z"),
   ("node23", "me1kmu7alqc8vlhmy3l4wcw8ephva42asaapt4qn3"),
   ("node24", "me1z4s5n9uqk6yjwca83vezahvnwp3xn9gusjwyze"),
   ("node25", "me15lvx9x4e248jjpdxspstg4knwkyew6hhtrcu5j"),
   ("node26", "me1v8wtd9qk9v08np3dd4khxgqwhvv59zgypzf7g7"),
   ("node27", "me1ar9pkzk02eu0qksm7pzuhkcvd2stshvgur75aj")]

variable {Addr : Type} [SdkAddress Addr] [DecidableEq Addr]

/-- the address the switch over the monikers assigns, if any -/
def nodeAddress (Addr : Type) [SdkAddress Addr] (moniker : String) : Option Addr :=
  (nodeAddresses.lookup moniker).map mustAccAddressFromBech32

/-- the operator address after the switch -/
def newOperatorAddress (v : Validator Addr) : Addr :=
  (nodeAddress Addr v.moniker).getD v.operatorAddress

/-! ## scaling -/

/-- `Mul(sdk.NewInt(exponentMultiplier))` of an amount that may be nil -/
def scaleInt : Option ℤ → Res (Option ℤ)
  | none => .ok none
  | some x => do
    let y ← SdkInt.mul x exponentMultiplier
    .ok (some y)

/-- `Mul(sdk.NewDec(exponentMultiplier))` of shares that may be nil -/
def scaleDec : Option Dec → Res (Option Dec)
  | none => .ok none
  | some x => do
    let y ← Dec.mul x (Dec.ofInt exponentMultiplier)
    .ok (some y)

theorem scaleInt_ok {x y : Option ℤ} :
    scaleInt x = .ok y ↔ (∀ a, x = some a → SdkInt.Fits (100 * a)) ∧ y = x.map fun a => 100 * a := by
  cases x with
  | none => simp [scaleInt, eq_comm]
  | some a =>
    have hmul : a * exponentMultiplier = 100 * a := mul_comm _ _
    constructor
    · intro h
      obtain ⟨b, hb, h⟩ := bind_eq_ok.mp h
      cases h
      obtain ⟨hf, rfl⟩ := SdkInt.mul_ok.mp hb
      rw [hmul] at *
      exact ⟨fun c hc => Option.some.inj hc ▸ hf, rfl⟩
    · intro h
      refine bind_eq_ok.mpr ⟨100 * a, SdkInt.mul_ok.mpr ?_, by rw [h.2]; rfl⟩
      rw [hmul]
      exact ⟨h.1 a rfl, rfl⟩

theorem scaleDec_ok {x y : Option Dec} :
    scaleDec x = .ok y ↔ (∀ a, x = some a → Dec.Fits (100 * a)) ∧ y = x.map fun a => 100 * a := by
  cases x with
  | none => simp [scaleDec, eq_comm]
  | some a =>
    constructor
    · intro h
      obtain ⟨b, hb, h⟩ := bind_eq_ok.mp h
      cases h
      obtain ⟨hf, rfl⟩ := Dec.mul_ofInt_ok.mp hb
      exact ⟨fun c hc => Option.some.inj hc ▸ hf, rfl⟩
    · intro h
      exact bind_eq_ok.mpr ⟨100 * a, Dec.mul_ofInt_ok.mpr ⟨h.1 a rfl, rfl⟩, by rw [h.2]; rfl⟩

/-! ## the loop -/

/-- the switch over the monikers, on the validator and on the admin's stake -/
def selectNode (validator : Validator Addr) (stake : Stake Addr) : Validator Addr × Stake Addr :=
  match nodeAddress Addr validator.moniker with
  | some a => ({ validator with operatorAddress := a }, { stake with validatorAddress := a })
  | none => (validator, stake)

/-- the part of an iteration that writes: the scaled stake, then the scaled validator -/
def writeScaled (cfg : Config Addr) (s : App Addr) (staking : StakingState Addr)
    (validator : Validator Addr) (stake : Stake Addr) : Res (App Addr) := do
  let shares ← scaleDec stake.shares
  let amount ← scaleInt stake.amount
  let staking := staking.setStake { stake with shares := shares, amount := amount }
  let devOperatorAddr := cfg.getDevOperatorAddress { s with staking := staking }
  let validator := { validator with ownerAddress := devOperatorAddr }
  let staking ← staking.setValidatorByConsAddr validator
  let tokens ← scaleInt validator.tokens
  let stakerShares ← scaleDec validator.stakerShares
  let validator := { validator with tokens := tokens, stakerShares := stakerShares }
  let staking := staking.setValidator validator
  let staking ← staking.setValidatorByPowerIndex cfg.powerReduction validator
  App.afterValidatorCreated { s with staking := staking } validator.operatorAddress

/-- one iteration, for one validator of the snapshot -/
def fixValidatorStep (cfg : Config Addr) (adminAddr : Addr) (s : App Addr)
    (validator : Validator Addr) : Res (App Addr) :=
  match s.staking.getStake adminAddr validator.operatorAddress with
  | none => goError .other "not found stake"
  | some stake => do
    let staking := cfg.removeValidatorKeys s.staking validator.operatorAddress
    let staking := staking.deleteLastValidatorPower validator.operatorAddress
    let staking ← staking.deleteValidatorByPowerIndex cfg.powerReduction validator
    let r := selectNode validator stake
    writeScaled cfg s staking r.1 r.2

def fixValidator (cfg : Config Addr) (s : App Addr) : Res (App Addr) := do
  let adminAddr ← cfg.getGlobalAdminAddr s
  s.staking.validators.rows.foldlM (fixValidatorStep cfg adminAddr) s

/-! ## one iteration -/

/-- the record written for a validator -/
def movedValidator (owner : String) (v : Validator Addr) : Validator Addr :=
  { v with
    operatorAddress := newOperatorAddress v
    ownerAddress := owner
    tokens := v.tokens.map fun a => 100 * a
    stakerShares := v.stakerShares.map fun a => 100 * a }

/-- the admin's stake written for a validator -/
def movedStake (v : Validator Addr) (stake : Stake Addr) : Stake Addr :=
  { stake with
    validatorAddress := newOperatorAddress v
    shares := stake.shares.map fun a => 100 * a
    amount := stake.amount.map fun a => 100 * a }

/-- the power index after a validator was moved -/
def movedPowers (r : ℤ) (v : Validator Addr) (powers : Index (ℤ × Addr) Addr) :
    Index (ℤ × Addr) Addr :=
  let powers := powers.del (powerKey r v.tokens v.operatorAddress)
  if v.jailed then powers
  else powers.put (powerKey r (v.tokens.map fun a => 100 * a) (newOperatorAddress v),
    newOperatorAddress v)

/-- the staking store after a validator was moved -/
def movedStaking (r : ℤ) (owner : String) (v : Validator Addr) (pk : PubKey) (stake : Stake Addr)
    (s : StakingState Addr) : StakingState Addr :=
  { s with
    validators := (s.validators.del v.operatorAddress).put (movedValidator owner v)
    validatorsByConsAddr :=
      (s.dropKeys v.operatorAddress).validatorsByConsAddr.put (pubKeyAddress pk, newOperatorAddress v)
    validatorsByPowerIndex := movedPowers r v s.validatorsByPowerIndex
    lastValidatorPower := s.lastValidatorPower.del v.operatorAddress
    stakes := s.stakes.put (movedStake v stake) }

/-- the numbers of a validator and of the admin's stake stay in range -/
structure Movable (r : ℤ) (v : Validator Addr) (stake : Stake Addr) : Prop where
  tokens : ∃ t, v.tokens = some t ∧ Int64.fits (consensusPower r t) ∧ SdkInt.Fits (100 * t) ∧
    (v.jailed = false → Int64.fits (consensusPower r (100 * t)))
  stakerShares : ∀ x, v.stakerShares = some x → Dec.Fits (100 * x)
  shares : ∀ x, stake.shares = some x → Dec.Fits (100 * x)
  amount : ∀ x, stake.amount = some x → SdkInt.Fits (100 * x)

theorem selectNode_eq {v : Validator Addr} {stake : Stake Addr}
    (h : stake.validatorAddress = v.operatorAddress) : selectNode v stake
      = ({ v with operatorAddress := newOperatorAddress v },
        { stake with validatorAddress := newOperatorAddress v }) := by
  unfold selectNode newOperatorAddress
  cases nodeAddress Addr v.moniker with
  | some a => rfl
  | none =>
    cases stake
    dsimp only at h ⊢
    rw [h]
    rfl

theorem getStake_validator {s : StakingState Addr} {a op : Addr} {stake : Stake Addr}
    (h : s.getStake a op = some stake) : stake.validatorAddress = op := by
  have hkey : stake.key = (a, op) := Table.get_key h
  exact congrArg Prod.snd hkey

theorem writeScaled_ok {cfg : Config Addr} {s s' : App Addr} {st : StakingState Addr}
    {v : Validator Addr} {stake : Stake Addr} :
    writeScaled cfg s st v stake = .ok s' ↔
    ∃ pk owner, v.consensusPubkey = some pk ∧
      (∀ x, stake.shares = some x → Dec.Fits (100 * x)) ∧
      (∀ x, stake.amount = some x → SdkInt.Fits (100 * x)) ∧
      (∀ x, v.tokens = some x → SdkInt.Fits (100 * x)) ∧
      (∀ x, v.stakerShares = some x → Dec.Fits (100 * x)) ∧
      (v.jailed = false → ∃ t, v.tokens = some t ∧
        Int64.fits (consensusPower cfg.powerReduction (100 * t))) ∧
      owner = cfg.getDevOperatorAddress { s with
        staking := { st with stakes := st.stakes.put { stake with
          shares := stake.shares.map fun a => 100 * a
          amount := stake.amount.map fun a => 100 * a } } } ∧
      s' = { s with
        staking := { st with
          validators := st.validators.put { v with
            ownerAddress := owner
            tokens := v.tokens.map fun a => 100 * a
            stakerShares := v.stakerShares.map fun a => 100 * a }
          validatorsByConsAddr :=
            st.validatorsByConsAddr.put (pubKeyAddress pk, v.operatorAddress)
          validatorsByPowerIndex := if v.jailed then st.validatorsByPowerIndex
            else st.validatorsByPowerIndex.put
              (powerKey cfg.powerReduction (v.tokens.map fun a => 100 * a) v.operatorAddress,
                v.operatorAddress)
          stakes := st.stakes.put { stake with
            shares := stake.shares.map fun a => 100 * a
            amount := stake.amount.map fun a => 100 * a } }
        distr := s.distr.initializeValidator v.operatorAddress
        slashing := s.slashing.addPubkey pk } := by
  constructor
  · intro h
    obtain ⟨shares, hshares, h⟩ := bind_eq_ok.mp h
    obtain ⟨amount, hamount, h⟩ := bind_eq_ok.mp h
    obtain ⟨st2, h2, h⟩ := bind_eq_ok.mp h
    obtain ⟨consAddr, hcons, h2⟩ := bind_eq_ok.mp h2
    cases h2
    obtain ⟨tokens, htokens, h⟩ := bind_eq_ok.mp h
    obtain ⟨stakerShares, hstaker, h⟩ := bind_eq_ok.mp h
    obtain ⟨st3, h3, h⟩ := bind_eq_ok.mp h
    obtain ⟨pk, hpk, rfl⟩ := getConsAddr_ok.mp hcons
    obtain ⟨fshares, rfl⟩ := scaleDec_ok.mp hshares
    obtain ⟨famount, rfl⟩ := scaleInt_ok.mp hamount
    obtain ⟨ftokens, rfl⟩ := scaleInt_ok.mp htokens
    obtain ⟨fstaker, rfl⟩ := scaleDec_ok.mp hstaker
    obtain ⟨hpow, rfl⟩ := StakingState.setValidatorByPowerIndex_ok.mp h3
    obtain ⟨pk', hpk', rfl⟩ := (App.afterValidatorCreated_ok (Table.get_put_self _ _)).mp h
    rw [hpk] at hpk'
    cases hpk'
    refine ⟨pk, _, hpk, fshares, famount, ftokens, fstaker, fun hj => ?_, rfl, rfl⟩
    obtain ⟨t, ht, hf⟩ := hpow hj
    obtain ⟨x, hx, rfl⟩ := Option.map_eq_some_iff.mp ht
    exact ⟨x, hx, hf⟩
  · intro h
    obtain ⟨pk, owner, hpk, fshares, famount, ftokens, fstaker, hpow, rfl, rfl⟩ := h
    refine bind_eq_ok.mpr ⟨_, scaleDec_ok.mpr ⟨fshares, rfl⟩, ?_⟩
    refine bind_eq_ok.mpr ⟨_, scaleInt_ok.mpr ⟨famount, rfl⟩, ?_⟩
    refine bind_eq_ok.mpr ⟨_, bind_eq_ok.mpr ⟨_, getConsAddr_ok.mpr ⟨pk, hpk, rfl⟩, rfl⟩, ?_⟩
    refine bind_eq_ok.mpr ⟨_, scaleInt_ok.mpr ⟨ftokens, rfl⟩, ?_⟩
    refine bind_eq_ok.mpr ⟨_, scaleDec_ok.mpr ⟨fstaker, rfl⟩, ?_⟩
    refine bind_eq_ok.mpr ⟨_, StakingState.setValidatorByPowerIndex_ok.mpr ⟨fun hj => ?_, rfl⟩, ?_⟩
    · obtain ⟨t, ht, hf⟩ := hpow hj
      exact ⟨100 * t, by rw [ht]; rfl, hf⟩
    · exact (App.afterValidatorCreated_ok (Table.get_put_self _ _)).mpr ⟨pk, hpk, rfl⟩

/-- **Everything one iteration does.** -/
theorem fixValidatorStep_ok {cfg : Config Addr} (hrm : cfg.RemovesKeys) {adminAddr : Addr}
    {s s' : App Addr} {v : Validator Addr} (h : fixValidatorStep cfg adminAddr s v = .ok s') :
    ∃ stake pk owner, s.staking.getStake adminAddr v.operatorAddress = some stake ∧
      v.consensusPubkey = some pk ∧ Movable cfg.powerReduction v stake ∧
      s' = { s with
        staking := movedStaking cfg.powerReduction owner v pk stake s.staking
        distr := s.distr.initializeValidator (newOperatorAddress v)
        slashing := s.slashing.addPubkey pk } := by
  unfold fixValidatorStep at h
  cases hst : s.staking.getStake adminAddr v.operatorAddress with
  | none => simp [hst, goError] at h
  | some stake =>
    simp only [hst] at h
    obtain ⟨st1, h1, h⟩ := bind_eq_ok.mp h
    obtain ⟨⟨t, ht, hfit⟩, rfl⟩ := StakingState.deleteValidatorByPowerIndex_ok.mp h1
    rw [selectNode_eq (getStake_validator hst)] at h
    obtain ⟨pk, owner, hpk, f1, f2, f3, f4, f5, _, rfl⟩ := writeScaled_ok.mp h
    refine ⟨stake, pk, owner, rfl, hpk, ⟨⟨t, ht, hfit, f3 t ht, fun hj => ?_⟩, f4, f1, f2⟩, ?_⟩
    · obtain ⟨t', ht', hf⟩ := f5 hj
      rw [ht] at ht'
      cases ht'
      exact hf
    · rw [hrm, StakingState.dropKeys_eq]
      rfl

/-! ## the run -/

theorem fixValidator_ok {cfg : Config Addr} {s s' : App Addr} (h : fixValidator cfg s = .ok s') :
    ∃ adminAddr, cfg.getGlobalAdminAddr s = .ok adminAddr ∧
      s.staking.validators.rows.foldlM (fixValidatorStep cfg adminAddr) s = .ok s' :=
  bind_eq_ok.mp h

end MeChain
