import MeChain.Cmd.ModuleAccounts
import MeChain.Cmd.StakePool

/-!
# Runs of the genesis commands

An operator prepares a file with the two commands, in some order, some of them more than once.  A command
that fails does not write the file.

* `Stage`              what a run comes to: whether the modules have been added, and the coins of the
                       stake pool;
* `fundsOf`            the coins, read off the list of commands;
* `Represents`         a file at a stage;
* `represents_run`     every run is at the stage of its commands;
* `genesis_runs`       what that says about the accounts and the balances of the file.

The first command that succeeds puts the account of the stake pool into the file, and no later one can
fund it.
-/

set_option linter.unusedSectionVars false

namespace MeChain
open Fallible

/-! ## the commands -/

inductive GenesisCommand where
  | addGenesisModuleAccounts (perms : List (String × List String))
  | addGenesisModuleAccount (moduleName coinsArg : String)
deriving DecidableEq

variable (Addr : Type) [SdkAddress Addr] [DecidableEq Addr]

def GenesisCommand.exec (x : GenesisConfig) (g : GenesisState) : GenesisCommand → Res GenesisState
  | .addGenesisModuleAccounts perms => MeChain.addGenesisModuleAccounts Addr perms g
  | .addGenesisModuleAccount moduleName coinsArg =>
    MeChain.addGenesisModuleAccount Addr x moduleName coinsArg g

/-- the file after a command -/
def GenesisCommand.after (x : GenesisConfig) (g : GenesisState) (c : GenesisCommand) : GenesisState :=
  match c.exec Addr x g with
  | .ok g' => g'
  | .error _ => g

def afterCommands (x : GenesisConfig) (g : GenesisState) (cmds : List GenesisCommand) : GenesisState :=
  cmds.foldl (GenesisCommand.after Addr x) g

/-- the permissions are those of the binary, in the order of some enumeration -/
def GenesisCommand.Enumerates (n : ModuleNames) : GenesisCommand → Prop
  | .addGenesisModuleAccounts perms => perms.Perm n.maccPerms
  | .addGenesisModuleAccount _ _ => True

/-! ## stages -/

/-- what a run comes to -/
structure Stage where
  modules : Bool
  funds : Option Coins
deriving DecidableEq

/-- the coins that `add-genesis-module-account` puts into the stake pool of this file -/
def accepted (x : GenesisConfig) (g : GenesisState) (moduleName coinsArg : String) : Option Coins :=
  match addGenesisModuleAccount Addr x moduleName coinsArg g, x.parseCoinsNormalized coinsArg with
  | .ok _, .ok coins => some coins
  | _, _ => none

namespace Stage

/-- the stake pool has its account -/
def pooled (st : Stage) : Bool := st.modules || st.funds.isSome

def next (x : GenesisConfig) (g : GenesisState) (st : Stage) : GenesisCommand → Stage
  | .addGenesisModuleAccounts _ => { st with modules := true }
  | .addGenesisModuleAccount moduleName coinsArg =>
    if st.pooled then st else { st with funds := accepted Addr x g moduleName coinsArg }

/-- the permission entries with an account in the file -/
def entries (n : ModuleNames) (st : Stage) : List (String × List String) :=
  if st.modules then n.maccPerms
  else if st.funds.isSome then [(n.stakePool, [stakingPerm])]
  else []

end Stage

def stageOf (x : GenesisConfig) (g : GenesisState) (cmds : List GenesisCommand) : Stage :=
  cmds.foldl (Stage.next Addr x g) ⟨false, none⟩

/-- the coins of the first command that succeeds, if it is one for the stake pool -/
def fundsOf (x : GenesisConfig) (g : GenesisState) : List GenesisCommand → Option Coins
  | [] => none
  | .addGenesisModuleAccounts _ :: _ => none
  | .addGenesisModuleAccount moduleName coinsArg :: cmds =>
    match accepted Addr x g moduleName coinsArg with
    | some coins => some coins
    | none => fundsOf x g cmds

section
variable {Addr} {x : GenesisConfig} {g : GenesisState} {cmds : List GenesisCommand} {st : Stage}

theorem foldl_next_pooled (h : st.pooled = true) :
    (cmds.foldl (Stage.next Addr x g) st).funds = st.funds := by
  induction cmds generalizing st with
  | nil => rfl
  | cons c cmds ih =>
    rw [List.foldl_cons]
    cases c with
    | addGenesisModuleAccounts perms => exact ih rfl
    | addGenesisModuleAccount moduleName coinsArg =>
      rw [Stage.next, if_pos h]
      exact ih h

theorem stageOf_funds : (stageOf Addr x g cmds).funds = fundsOf Addr x g cmds := by
  unfold stageOf
  induction cmds with
  | nil => rfl
  | cons c cmds ih =>
    rw [List.foldl_cons]
    cases c with
    | addGenesisModuleAccounts perms => exact foldl_next_pooled rfl
    | addGenesisModuleAccount moduleName coinsArg =>
      rw [Stage.next, if_neg (by decide), fundsOf]
      cases accepted Addr x g moduleName coinsArg with
      | none => exact ih
      | some coins => exact foldl_next_pooled rfl

theorem foldl_next_modules : (cmds.foldl (Stage.next Addr x g) st).modules = true ↔
    st.modules = true ∨ ∃ perms, .addGenesisModuleAccounts perms ∈ cmds := by
  induction cmds generalizing st with
  | nil => simp
  | cons c cmds ih =>
    rw [List.foldl_cons, ih]
    cases c with
    | addGenesisModuleAccounts perms => simp [Stage.next]
    | addGenesisModuleAccount moduleName coinsArg =>
      have hsame : (st.next Addr x g (.addGenesisModuleAccount moduleName coinsArg)).modules
          = st.modules := by
        simp only [Stage.next]
        split <;> rfl
      rw [hsame]
      simp

theorem stageOf_modules : (stageOf Addr x g cmds).modules = true ↔
    ∃ perms, .addGenesisModuleAccounts perms ∈ cmds := by
  rw [stageOf, foldl_next_modules]
  simp

end

/-! ## files at a stage -/

/-- A file at a stage of a run that started with `g`: the accounts of the stage have been added, each
with a number of its own, and the coins of the stake pool. -/
structure Represents (x : GenesisConfig) (g : GenesisState) (st : Stage) (g' : GenesisState) :
    Prop where
  accounts : (g'.auth.map GenesisAccount.unnumbered).Perm
    (g.auth.map GenesisAccount.unnumbered ++ (st.entries x.names).map (accountOf Addr))
  numbers : st.pooled = true → (g'.auth.map GenesisAccount.accountNumber).Nodup
  unwritten : st.pooled = false → g' = g
  unfunded : st.funds = none → g'.bank = g.bank
  funded : ∀ coins, st.funds = some coins →
    (∀ c ∈ coins, c.denom = baseMEDenom → c.amount = x.totalBaseCoinsAmount) ∧
    g.bank.supply.safeAdd coins.sort = .ok g'.bank.supply ∧
    g'.bank.balances.Perm (g.bank.balances ++
      [⟨SdkAddress.str (newModuleAddress x.names.stakePool : Addr), coins.sort⟩])

/-- no module has an account yet -/
def NoModules (n : ModuleNames) (g : GenesisState) : Prop :=
  ∀ p ∈ n.maccPerms, Missing Addr g.auth p

/-- the modules have different addresses -/
def ModulesApart (n : ModuleNames) : Prop :=
  n.maccPerms.Pairwise fun p q => addressOf Addr p ≠ addressOf Addr q

section
variable {Addr} {x : GenesisConfig} {g g' : GenesisState} {st : Stage} {n : ModuleNames}
  {accs : List GenesisAccount} {us : List GenesisAccount} {p q : String × List String}

theorem mem_stakePool : (n.stakePool, [stakingPerm]) ∈ n.maccPerms := by simp [ModuleNames.maccPerms]

theorem entries_subset : st.entries n ⊆ n.maccPerms := by
  unfold Stage.entries
  split_ifs
  · exact List.Subset.refl _
  · exact List.cons_subset.mpr ⟨mem_stakePool, List.nil_subset _⟩
  · exact List.nil_subset _

/-- the stake pool is the first to get an account -/
theorem mem_entries_stakePool : (n.stakePool, [stakingPerm]) ∈ st.entries n ↔ st.pooled = true := by
  unfold Stage.entries Stage.pooled
  split_ifs with hm hf
  · simp [hm, mem_stakePool]
  · simp [hf]
  · simp [hm, hf]

theorem address_inj (hapart : ModulesApart Addr n) (hp : p ∈ n.maccPerms) (hq : q ∈ n.maccPerms)
    (h : addressOf Addr p = addressOf Addr q) : p = q := by
  have hnodup : (n.maccPerms.map (addressOf Addr)).Nodup := List.pairwise_map.mpr hapart
  exact List.inj_on_of_nodup_map hnodup hp hq h

theorem contains_of_perm (h : (accs.map GenesisAccount.unnumbered).Perm us) {y : Addr} :
    Contains accs y ↔ Contains us y := by
  constructor
  · rintro ⟨a, ha, hy⟩
    exact ⟨a.unnumbered, h.mem_iff.mp (List.mem_map_of_mem ha), hy⟩
  · rintro ⟨u, hu, hy⟩
    obtain ⟨a, ha, rfl⟩ := List.mem_map.mp (h.mem_iff.mpr hu)
    exact ⟨a, ha, hy⟩

theorem Represents.contains_iff (h : Represents Addr x g st g') (hnone : NoModules Addr x.names g)
    (hapart : ModulesApart Addr x.names) (hp : p ∈ x.names.maccPerms) :
    Contains g'.auth (addressOf Addr p) ↔ p ∈ st.entries x.names := by
  rw [contains_of_perm h.accounts]
  constructor
  · rintro ⟨u, hu, hy⟩
    rcases List.mem_append.mp hu with hu | hu
    · obtain ⟨a, ha, rfl⟩ := List.mem_map.mp hu
      exact absurd ⟨a, ha, hy⟩ (hnone p hp)
    · obtain ⟨q, hq, rfl⟩ := List.mem_map.mp hu
      rwa [← address_inj hapart (entries_subset hq) hp (spells_accountOf.mp hy)]
  · intro hmem
    exact ⟨accountOf Addr p, List.mem_append_right _ (List.mem_map_of_mem hmem),
      spells_accountOf.mpr rfl⟩

/-! ## one command -/

theorem entries_complete (hnodup : n.maccPerms.Nodup) (hentries : (st.entries n).Nodup) :
    (st.entries n ++ n.maccPerms.filter (· ∉ st.entries n)).Perm n.maccPerms := by
  refine (List.perm_ext_iff_of_nodup ?_ hnodup).mpr (fun p => ?_)
  · refine List.nodup_append'.mpr ⟨hentries, hnodup.filter _, fun p hp hp' => ?_⟩
    exact of_decide_eq_true (List.mem_filter.mp hp').2 hp
  · rw [List.mem_append, List.mem_filter, decide_eq_true_iff]
    constructor
    · rintro (hp | ⟨hp, _⟩)
      · exact entries_subset hp
      · exact hp
    · intro hp
      by_cases hmem : p ∈ st.entries n
      · exact Or.inl hmem
      · exact Or.inr ⟨hp, hmem⟩

theorem nodup_maccPerms : n.maccPerms.Nodup :=
  List.Nodup.of_map Prod.fst (show (n.maccPerms.map Prod.fst).Nodup from n.distinct)

theorem nodup_entries : (st.entries n).Nodup := by
  unfold Stage.entries
  split_ifs
  · exact nodup_maccPerms
  · exact List.nodup_singleton _
  · exact List.nodup_nil

/-- all modules: whatever the stage was, every module has an account now -/
theorem represents_modules (hnames : x.names.NotBlank) (hapart : ModulesApart Addr x.names)
    (hnone : NoModules Addr x.names g) {perms : List (String × List String)}
    (hperms : perms.Perm x.names.maccPerms) (h : Represents Addr x g st g') :
    Represents Addr x g { st with modules := true }
      (GenesisCommand.after Addr x g' (.addGenesisModuleAccounts perms)) := by
  have hexec := addGenesisModuleAccounts_ok.mpr ⟨acceptable_of_perm hnames hperms,
    (rfl : ({ g' with auth := sanitizeGenesisAccounts (perms.foldl (extend Addr) g'.auth) } :
      GenesisState) = _)⟩
  have hafter : GenesisCommand.after Addr x g' (.addGenesisModuleAccounts perms) =
      { g' with auth := sanitizeGenesisAccounts (perms.foldl (extend Addr) g'.auth) } := by
    rw [GenesisCommand.after, GenesisCommand.exec, hexec]
  have hmissing : x.names.maccPerms.filter (Missing Addr g'.auth)
      = x.names.maccPerms.filter (· ∉ st.entries x.names) :=
    List.filter_congr (fun p hp => decide_eq_decide.mpr (not_congr (h.contains_iff hnone hapart hp)))
  rw [hafter]
  refine {
    accounts := ?_
    numbers := fun _ => List.pairwise_map.mpr Relabel.makeDistinct_distinct
    unwritten := fun hp => absurd hp (by simp [Stage.pooled])
    unfunded := h.unfunded
    funded := h.funded }
  have hall := @unnumbered_perm Addr _ _ _ g'.auth _ ((hperms.pairwise_iff Ne.symm).mpr hapart) hperms
  rw [hmissing] at hall
  refine (hall.trans (h.accounts.append_right _)).trans ?_
  rw [List.append_assoc, ← List.map_append]
  exact ((entries_complete nodup_maccPerms nodup_entries).map _).append_left _

theorem addStakePool_auth {coins : Coins} (h : addStakePool Addr x coins g = .ok g') :
    Missing Addr g.auth (x.names.stakePool, [stakingPerm]) ∧ g'.auth = sanitizeGenesisAccounts
      (g.auth ++ [accountOf Addr (x.names.stakePool, [stakingPerm])]) := by
  obtain ⟨a, ha, h⟩ := bind_eq_ok.mp h
  obtain ⟨_, _, h⟩ := bind_eq_ok.mp h
  obtain ⟨hmissing, h⟩ := guard_eq_ok.mp h
  obtain ⟨supply, _, h⟩ := bind_eq_ok.mp h
  obtain ⟨_, rfl⟩ := newModuleAccount_ok.mp ha
  cases h
  exact ⟨hmissing, rfl⟩

theorem accepted_eq_some {moduleName coinsArg : String} {coins : Coins} :
    accepted Addr x g moduleName coinsArg = some coins ↔
      x.parseCoinsNormalized coinsArg = .ok coins ∧
        ∃ g', addGenesisModuleAccount Addr x moduleName coinsArg g = .ok g' := by
  unfold accepted
  split
  · rename_i g' coins' hexec hparse
    simp [hexec, hparse]
  · rename_i hno
    constructor
    · intro h
      cases h
    · rintro ⟨hparse, g', hexec⟩
      exact absurd hparse (hno g' coins hexec)

theorem addGenesisModuleAccount_parsed {moduleName coinsArg : String}
    (h : addGenesisModuleAccount Addr x moduleName coinsArg g = .ok g') :
    ∃ coins, x.parseCoinsNormalized coinsArg = .ok coins := by
  obtain ⟨_, h⟩ := guard_eq_ok.mp h
  obtain ⟨coins, hcoins, _⟩ := bind_eq_ok.mp h
  exact ⟨coins, wrap_ok.mp hcoins⟩

/-- the stake pool: it is funded when no command has succeeded before -/
theorem represents_stakePool (hsanitize : ∀ l, (x.sanitizeGenesisBalances l).Perm l)
    (hapart : ModulesApart Addr x.names) (hnone : NoModules Addr x.names g)
    (moduleName coinsArg : String) (h : Represents Addr x g st g') :
    Represents Addr x g (st.next Addr x g (.addGenesisModuleAccount moduleName coinsArg))
      (GenesisCommand.after Addr x g' (.addGenesisModuleAccount moduleName coinsArg)) := by
  unfold Stage.next GenesisCommand.after GenesisCommand.exec
  dsimp only
  by_cases hp : st.pooled = true
  · -- the address of the stake pool is taken
    rw [if_pos hp]
    cases hexec : addGenesisModuleAccount Addr x moduleName coinsArg g' with
    | error e => exact h
    | ok g1 =>
      obtain ⟨coins, hparse⟩ := addGenesisModuleAccount_parsed hexec
      obtain ⟨hmissing, _⟩ := addStakePool_auth (addGenesisModuleAccount_ok hparse hexec).2
      exact absurd ((h.contains_iff hnone hapart mem_stakePool).mpr (mem_entries_stakePool.mpr hp))
        hmissing
  · have hpooled : st.pooled = false := Bool.eq_false_iff.mpr hp
    obtain rfl := h.unwritten hpooled
    obtain ⟨hmodules, hfunds⟩ := Bool.or_eq_false_iff.mp hpooled
    rw [if_neg hp]
    cases hexec : addGenesisModuleAccount Addr x moduleName coinsArg g' with
    | error e =>
      have hno : accepted Addr x g' moduleName coinsArg = none := by
        unfold accepted
        rw [hexec]
      have hsame : ({ st with funds := none } : Stage) = st := by
        cases st with
        | mk modules funds => cases funds with
          | none => rfl
          | some coins => cases hfunds
      rw [hno, hsame]
      exact h
    | ok g1 =>
      obtain ⟨coins, hparse⟩ := addGenesisModuleAccount_parsed hexec
      obtain ⟨hamounts, hpool⟩ := addGenesisModuleAccount_ok hparse hexec
      obtain ⟨_, hauth⟩ := addStakePool_auth hpool
      obtain ⟨supply, hsupply, hbank⟩ := addStakePool_ok hpool
      have hyes : accepted Addr x g' moduleName coinsArg = some coins :=
        accepted_eq_some.mpr ⟨hparse, g1, hexec⟩
      rw [hyes]
      refine {
        accounts := ?_
        numbers := fun _ => by
          rw [hauth]
          exact List.pairwise_map.mpr Relabel.makeDistinct_distinct
        unwritten := fun hp => absurd hp (by simp [Stage.pooled])
        unfunded := fun hf => by cases hf
        funded := fun coins' hc => ?_ }
      · rw [hauth]
        have hperm : ((sanitizeGenesisAccounts (g'.auth ++
            [accountOf Addr (x.names.stakePool, [stakingPerm])])).map GenesisAccount.unnumbered).Perm
            ((g'.auth ++ [accountOf Addr (x.names.stakePool, [stakingPerm])]).map
              GenesisAccount.unnumbered) := Relabel.makeDistinct_perm
        rw [List.map_append] at hperm
        simp only [Stage.entries, hmodules, Bool.false_eq_true, if_false, Option.isSome_some, if_true]
        exact hperm
      · cases hc
        rw [hbank]
        exact ⟨hamounts, hsupply, hsanitize _⟩

/-! ## runs -/

/-- **Every run is at the stage of its commands.** -/
theorem represents_run (hnames : x.names.NotBlank) (hapart : ModulesApart Addr x.names)
    (hsanitize : ∀ l, (x.sanitizeGenesisBalances l).Perm l) (hnone : NoModules Addr x.names g)
    {cmds : List GenesisCommand} (hcmds : ∀ c ∈ cmds, c.Enumerates x.names)
    (h : Represents Addr x g st g') :
    Represents Addr x g (cmds.foldl (Stage.next Addr x g) st)
      (cmds.foldl (GenesisCommand.after Addr x) g') := by
  induction cmds generalizing st g' with
  | nil => exact h
  | cons c cmds ih =>
    rw [List.forall_mem_cons] at hcmds
    rw [List.foldl_cons, List.foldl_cons]
    refine ih hcmds.2 ?_
    cases c with
    | addGenesisModuleAccounts perms => exact represents_modules hnames hapart hnone hcmds.1 h
    | addGenesisModuleAccount moduleName coinsArg =>
      exact represents_stakePool hsanitize hapart hnone moduleName coinsArg h

theorem represents_first : Represents Addr x g ⟨false, none⟩ g where
  accounts := by
    show List.Perm _ (_ ++ [])
    rw [List.append_nil]
  numbers := fun h => by cases h
  unwritten := fun _ => rfl
  unfunded := fun _ => rfl
  funded := fun _ h => by cases h

theorem Represents.distinct (h : Represents Addr x g st g') (hapart : ModulesApart Addr x.names)
    (hnone : NoModules Addr x.names g) (hdistinct : DistinctAddresses Addr g.auth) :
    DistinctAddresses Addr g'.auth := by
  have hsymm : ∀ {a b : GenesisAccount}, (∀ y : Addr, Spells a.address y → ¬ Spells b.address y) →
      ∀ y : Addr, Spells b.address y → ¬ Spells a.address y := fun hab y hb ha => hab y ha hb
  have hall : DistinctAddresses Addr (g'.auth.map GenesisAccount.unnumbered) := by
    refine (h.accounts.pairwise_iff hsymm).mpr (List.pairwise_append.mpr ⟨?_, ?_, ?_⟩)
    · exact List.pairwise_map.mpr hdistinct
    · refine List.pairwise_map.mpr (nodup_entries.imp_of_mem (fun hp hq hne y hy hy' => hne ?_))
      exact address_inj hapart (entries_subset hp) (entries_subset hq)
        ((spells_accountOf.mp hy).trans (spells_accountOf.mp hy').symm)
    · intro u hu v hv y hy hy'
      obtain ⟨a, ha, rfl⟩ := List.mem_map.mp hu
      obtain ⟨p, hp, rfl⟩ := List.mem_map.mp hv
      refine hnone p (entries_subset hp) ⟨a, ha, ?_⟩
      rwa [spells_accountOf.mp hy']
  exact List.pairwise_map.mp hall

theorem Represents.everyModule (h : Represents Addr x g st g') (hmodules : st.modules = true)
    (hdistinct : DistinctAddresses Addr g'.auth) : EveryModule Addr x.names g'.auth := by
  intro p hp
  have hentry : p ∈ st.entries x.names := by
    rw [Stage.entries, if_pos hmodules]
    exact hp
  have hmem := h.accounts.mem_iff.mpr
    (List.mem_append_right _ (List.mem_map_of_mem (f := accountOf Addr) hentry))
  obtain ⟨b, hb, hba⟩ := List.mem_map.mp hmem
  have haddress : b.unnumbered.address = (accountOf Addr p).address := by rw [hba]
  have hkind : b.unnumbered.kind = .module p.1 p.2 := by
    rw [hba]
    rfl
  refine ⟨b, accountsAt_of_distinct hdistinct hb ?_, hkind⟩
  show Spells b.unnumbered.address (addressOf Addr p)
  rw [haddress]
  exact spells_accountOf.mpr rfl

/-- a stage with funds: the coins are in the supply and in the stake pool, and nowhere else -/
theorem Represents.poolFunded (h : Represents Addr x g st g') {coins : Coins}
    (hfunds : st.funds = some coins) (hvalid : g.bank.Valid Addr)
    (hfree : NoPoolBalance Addr x g.bank) (hcoins : coins.sort.IsValid) :
    PoolFunded Addr x coins g g' := by
  obtain ⟨hamounts, hsupply, hperm⟩ := h.funded coins hfunds
  have hsort : ∀ d, coins.sort.amountOf d = coins.amountOf d :=
    BankState.amountOf_perm Coins.sort_perm
  have hcredited : ∀ d, g'.bank.balanceOf (newModuleAddress x.names.stakePool : Addr) d =
      g.bank.balanceOf (newModuleAddress x.names.stakePool : Addr) d + coins.amountOf d := by
    intro d
    rw [← hsort]
    exact balanceOf_append hperm
  refine ⟨valid_append hvalid hfree hcoins hperm hsupply, hcredited, fun d => ?_, ?_⟩
  · rw [← hsort]
    exact Coins.amountOf_safeAdd hsupply d
  · rw [hcredited, balanceOf_none hfree, zero_add]
    exact total_of_isValid hamounts hcoins

/-- **What any run of the commands leaves behind.**  No address has two accounts and no account of the
operator is lost; every module has its account once the modules were added, whether before or after
the stake pool; and the stake pool is funded once, by the first command that succeeds, or not at all. -/
theorem genesis_runs (hnames : x.names.NotBlank) (hapart : ModulesApart Addr x.names)
    (hsanitize : ∀ l, (x.sanitizeGenesisBalances l).Perm l)
    (hdistinct : DistinctAddresses Addr g.auth) (hnone : NoModules Addr x.names g)
    (hvalid : g.bank.Valid Addr) (hfree : NoPoolBalance Addr x g.bank)
    (cmds : List GenesisCommand) (hcmds : ∀ c ∈ cmds, c.Enumerates x.names) :
    DistinctAddresses Addr (afterCommands Addr x g cmds).auth ∧
    (∀ a ∈ g.auth, ∃ b ∈ (afterCommands Addr x g cmds).auth, b.unnumbered = a.unnumbered) ∧
    ((∃ perms, .addGenesisModuleAccounts perms ∈ cmds) →
      EveryModule Addr x.names (afterCommands Addr x g cmds).auth) ∧
    (fundsOf Addr x g cmds = none → (afterCommands Addr x g cmds).bank = g.bank) ∧
    ∀ coins, fundsOf Addr x g cmds = some coins → coins.sort.IsValid →
      PoolFunded Addr x coins g (afterCommands Addr x g cmds) := by
  have hrun : Represents Addr x g (stageOf Addr x g cmds) (afterCommands Addr x g cmds) :=
    represents_run hnames hapart hsanitize hnone hcmds represents_first
  have hdistinct' := hrun.distinct hapart hnone hdistinct
  refine ⟨hdistinct', fun a ha => ?_, fun hmodules => ?_, fun hfunds => ?_, fun coins hfunds hcoins => ?_⟩
  · have hmem := hrun.accounts.mem_iff.mpr
      (List.mem_append_left _ (List.mem_map_of_mem (f := GenesisAccount.unnumbered) ha))
    exact List.mem_map.mp hmem
  · exact hrun.everyModule (stageOf_modules.mpr hmodules) hdistinct'
  · exact hrun.unfunded (stageOf_funds.trans hfunds)
  · exact hrun.poolFunded (stageOf_funds.trans hfunds) hvalid hfree hcoins

end

/-- the stake pool, then the modules, then the stake pool again -/
def poolTwice : List GenesisCommand :=
  [.addGenesisModuleAccount "stake_tokens_pool" "1MEC,50zinc",
    .addGenesisModuleAccounts ModuleNames.sdk.maccPerms,
    .addGenesisModuleAccount "stake_tokens_pool" "1MEC"]

/-- a file with the account of an operator, who has coins -/
def operatorGenesis : GenesisState :=
  { fundedGenesis with auth := [⟨"me1alice", none, 0, 0, .base⟩] }

theorem genesis_runs_twice :
    (∃ b ∈ (afterCommands String oneMec operatorGenesis poolTwice).auth, b.address = "me1alice") ∧
    EveryModule String ModuleNames.sdk (afterCommands String oneMec operatorGenesis poolTwice).auth ∧
    PoolFunded String oneMec [⟨"umec", 100000000⟩, ⟨"zinc", 50⟩] operatorGenesis
      (afterCommands String oneMec operatorGenesis poolTwice) := by
  have hnone : NoModules String ModuleNames.sdk operatorGenesis := by
    unfold NoModules
    decide +kernel
  have hapart : ModulesApart String ModuleNames.sdk := by
    unfold ModulesApart
    decide +kernel
  have hcmds : ∀ c ∈ poolTwice, c.Enumerates ModuleNames.sdk := by
    simp [poolTwice, GenesisCommand.Enumerates]
  have hmodules : .addGenesisModuleAccounts ModuleNames.sdk.maccPerms ∈ poolTwice := by
    simp [poolTwice]
  have hfree : NoPoolBalance String oneMec operatorGenesis.bank := by
    intro e he
    rw [List.mem_singleton.mp he]
    decide
  obtain ⟨_, hkept, hevery, _, hfunded⟩ := @genesis_runs String _ _ oneMec operatorGenesis
    (by decide +kernel) hapart (fun _ => List.Perm.refl _) (List.pairwise_singleton _ _) hnone
    fundedGenesis_valid hfree poolTwice hcmds
  refine ⟨?_, hevery ⟨_, hmodules⟩, hfunded _ (by decide +kernel) (by decide +kernel)⟩
  obtain ⟨b, hb, he⟩ := hkept _ (List.mem_singleton_self _)
  exact ⟨b, hb, congrArg GenesisAccount.address he⟩

end MeChain
