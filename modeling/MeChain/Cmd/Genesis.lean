import Mathlib.Data.List.Sort
import Mathlib.Data.String.Basic
import MeChain.Lib.Relabel
import MeChain.State

/-!
# The genesis commands

`add-genesis-m-accounts` adds the accounts of all modules to the auth genesis, and
`add-genesis-module-account` the account of the stake pool, with its coins, to auth and bank genesis.

* `GenesisAccount`, `GenesisBalance`   the entries of the file, with their addresses as spelled there;
* `sanitizeGenesisAccounts`            account numbers made distinct, accounts sorted by them;
* `Coins.safeAdd`                      the merge of two coin lists;
* `addGenesisModuleAccounts`, `addGenesisModuleAccount`   the two commands.

Reading and writing the file, and the sections of other modules, are left out.
-/

set_option linter.unusedSectionVars false

namespace MeChain
open Fallible Relabel

/-! ## the file -/

/-- An account of the auth genesis.  Nothing ties a module account to the address of its name. -/
structure GenesisAccount where
  address : String
  pubKey : Option PubKey
  accountNumber : Nat
  sequence : Nat
  kind : AccountKind
deriving DecidableEq, Repr

structure GenesisBalance where
  address : String
  coins : Coins
deriving DecidableEq, Repr

structure BankGenesis where
  balances : List GenesisBalance
  supply : Coins
deriving DecidableEq, Repr

/-- the sections of the file that the commands write -/
structure GenesisState where
  auth : List GenesisAccount
  bank : BankGenesis
deriving DecidableEq, Repr

def GenesisState.empty : GenesisState := ⟨[], ⟨[], []⟩⟩

/-- the account number is what `SanitizeGenesisAccounts` replaces -/
instance : Labelled GenesisAccount where
  label := GenesisAccount.accountNumber
  relabel n a := { a with accountNumber := n }
  label_relabel _ _ := rfl
  relabel_label _ := rfl
  relabel_relabel _ _ _ := rfl

/-- an account without its number -/
def GenesisAccount.unnumbered (a : GenesisAccount) : GenesisAccount := { a with accountNumber := 0 }

section
variable {Addr : Type} [SdkAddress Addr] [DecidableEq Addr]

/-- `s` is a spelling of the address `x` -/
def Spells (s : String) (x : Addr) : Prop := (accAddressFromBech32 s : Except Error Addr) = .ok x

instance (s : String) (x : Addr) : Decidable (Spells s x) :=
  match h : (accAddressFromBech32 s : Except Error Addr) with
  | .ok y => decidable_of_iff (y = x) (by simp [Spells, h])
  | .error e => isFalse (by simp [Spells, h])

theorem spells_str {x y : Addr} : Spells (SdkAddress.str x) y ↔ x = y := by
  rw [Spells, SdkAddress.fromBech32_str, Except.ok.injEq]

/-- `GenesisAccounts.Contains` -/
def Contains (accs : List GenesisAccount) (x : Addr) : Prop := ∃ a ∈ accs, Spells a.address x

instance (accs : List GenesisAccount) (x : Addr) : Decidable (Contains accs x) :=
  inferInstanceAs (Decidable (∃ a ∈ accs, _))

end

/-- `SanitizeGenesisAccounts` -/
def sanitizeGenesisAccounts (genAccs : List GenesisAccount) : List GenesisAccount :=
  makeDistinct genAccs

/-! ## new accounts -/

/-- `unicode.IsSpace` -/
def isSpace (c : Char) : Bool :=
  (9 ≤ c.toNat && c.toNat ≤ 13) || (0x2000 ≤ c.toNat && c.toNat ≤ 0x200a) ||
    [0x20, 0x85, 0xa0, 0x1680, 0x2028, 0x2029, 0x202f, 0x205f, 0x3000].contains c.toNat

/-- nothing is left of the string by `strings.TrimSpace` -/
def blank (s : String) : Bool := s.toList.all isSpace

section
variable (Addr : Type) [SdkAddress Addr] [DecidableEq Addr]

/-- the account of a module, with number zero -/
def moduleAccount (name : String) (permissions : List String) : GenesisAccount where
  address := SdkAddress.str (newModuleAddress name : Addr)
  pubKey := none
  accountNumber := 0
  sequence := 0
  kind := .module name permissions

/-- `NewModuleAccount`, for the base account of the address of the name -/
def newModuleAccount (name : String) (permissions : List String) : Res GenesisAccount :=
  if permissions.any blank then goPanic "module permission is empty"
  else .ok (moduleAccount Addr name permissions)

/-- `ModuleAccount.Validate`; a base account without a key is valid -/
def validateModuleAccount (a : GenesisAccount) (name : String) : Res Unit :=
  if blank name then goError .other "module account name cannot be blank"
  else if a.address ≠ SdkAddress.str (newModuleAddress name : Addr) then
    goError .other s!"address {a.address} cannot be derived from the module name '{name}'"
  else .ok ()

/-! ## all module accounts -/

/-- one iteration of the loop over the permissions: an address that is taken is reported and passed
over -/
def addModuleAccount (accs : List GenesisAccount) (p : String × List String) :
    Res (List GenesisAccount) := do
  let genAccount ← newModuleAccount Addr p.1 p.2
  let _ ← wrap "failed to validate new genesis account"
    (validateModuleAccount Addr genAccount p.1)
  if Contains accs (newModuleAddress p.1 : Addr) then .ok accs else .ok (accs ++ [genAccount])

/-- `AddGenesisModuleAccountsCmd`, when the map of the permissions is enumerated in this order -/
def addGenesisModuleAccounts (perms : List (String × List String)) (g : GenesisState) :
    Res GenesisState := do
  let accs ← perms.foldlM (addModuleAccount Addr) g.auth
  .ok { g with auth := sanitizeGenesisAccounts accs }

end

/-! ## the stake pool -/

namespace Coins

/-- sorted by denomination, which may occur more than once -/
def IsSorted (cs : Coins) : Prop := cs.Pairwise (fun a b => a.denom ≤ b.denom)

instance (cs : Coins) : Decidable cs.IsSorted := inferInstanceAs (Decidable (List.Pairwise _ cs))

/-- `Coins.Sort` -/
def sort (cs : Coins) : Coins := cs.insertionSort (fun a b => a.denom ≤ b.denom)

/-- the denominations of a list, in order -/
def denoms (cs : Coins) : List String := ((cs.map Coin.denom).dedup).insertionSort (· ≤ ·)

/-- the coins of one denomination added up -/
def combine (cs : Coins) (d : String) : Res Coin := do
  let amount ← (cs.filter fun c => c.denom = d).foldlM (fun sum c => SdkInt.add sum c.amount) 0
  .ok ⟨d, amount⟩

/-- `Coins.Add`: the coins of both lists, by denomination -/
def safeAdd (cs csB : Coins) : Res Coins :=
  if ¬ cs.IsSorted then goPanic "Coins (self) must be sorted"
  else if ¬ csB.IsSorted then goPanic "Wrong argument: coins must be sorted"
  else do
    let sums ← (denoms (cs ++ csB)).mapM (combine (cs ++ csB))
    .ok (sums.filter fun c => c.amount ≠ 0)

end Coins

/-- the constants of the mint and staking modules, and the SDK functions whose code is not here -/
structure GenesisConfig where
  names : ModuleNames
  totalBaseCoinsAmount : ℤ
  parseCoinsNormalized : String → Res Coins
  sanitizeGenesisBalances : List GenesisBalance → List GenesisBalance

section
variable (Addr : Type) [SdkAddress Addr] [DecidableEq Addr]

/-- the account and the balance of the stake pool in the file; `coins` have been checked -/
def addStakePool (x : GenesisConfig) (coins : Coins) (g : GenesisState) : Res GenesisState := do
  let moduleAddress : Addr := newModuleAddress x.names.stakePool
  let genAccount ← newModuleAccount Addr x.names.stakePool [stakingPerm]
  let _ ← wrap "failed to validate new genesis account"
    (validateModuleAccount Addr genAccount x.names.stakePool)
  if Contains g.auth moduleAddress then
    goError .other s!"cannot add account at existing address {SdkAddress.str moduleAddress}"
  else do
    let supply ← g.bank.supply.safeAdd coins
    .ok {
      auth := sanitizeGenesisAccounts (g.auth ++ [genAccount])
      bank := {
        balances := x.sanitizeGenesisBalances
          (g.bank.balances ++ [⟨SdkAddress.str moduleAddress, coins⟩])
        supply := supply } }

/-- `AddGenesisModuleAccountCmd`; the coins are sorted in place -/
def addGenesisModuleAccount (x : GenesisConfig) (moduleName coinsArg : String) (g : GenesisState) :
    Res GenesisState :=
  if x.names.stakePool ≠ moduleName then
    goError .other "module name is err, please input correct stake tokens pool module name"
  else do
    let coins ← wrap "failed to parse coins" (x.parseCoinsNormalized coinsArg)
    if ∃ coin ∈ coins, coin.denom = baseMEDenom ∧ coin.amount ≠ x.totalBaseCoinsAmount then
      goError .other "coins amount is err, please input correct coins amount"
    else addStakePool Addr x coins.sort g

end

end MeChain
