import MeChain.Lib.Fallible
import MeChain.Lib.Loop
import MeChain.Lib.Cursor
import MeChain.Lib.Varint
import MeChain.Lib.Wire
import MeChain.Lib.Table
import MeChain.Lib.Rekey
import MeChain.Lib.Relabel
import MeChain.Lib.IPv4
import MeChain.Lib.Json
import MeChain.Lib.JsonObject
import MeChain.Sdk
import MeChain.DecCoins
import MeChain.State
import MeChain.Auth
import MeChain.Bank
import MeChain.Vesting
import MeChain.Staking
import MeChain.ValidatorSet
import MeChain.ValidatorUpdates
import MeChain.BankProgress
import MeChain.Distribution
import MeChain.Payouts
import MeChain.Ante.FeeDeduct
import MeChain.Ante.Exempt
import MeChain.Ante.Charge
import MeChain.Ante.Contract
import MeChain.Ante.Priority
import MeChain.Ante.MinGasPrice
import MeChain.Ante.Split
import MeChain.Ante.Units
import MeChain.Ante.Options
import MeChain.Ante.Mempool
import MeChain.Upgrade.ResetExponent
import MeChain.Upgrade.Balances
import MeChain.Upgrade.Renumber
import MeChain.Upgrade.Vesting
import MeChain.Upgrade.ClearWay
import MeChain.Upgrade.Occupied
import MeChain.Upgrade.Numbering
import MeChain.Upgrade.FixValidator
import MeChain.Upgrade.ValidatorTable
import MeChain.Upgrade.Stakes
import MeChain.Upgrade.References
import MeChain.Upgrade.Rewards
import MeChain.Upgrade.Backing
import MeChain.Upgrade.Progress
import MeChain.Upgrade.Abort
import MeChain.Upgrade.ConsensusSet
import MeChain.Export.Genesis
import MeChain.Export.Heights
import MeChain.Export.PowerIndex
import MeChain.Export.FeeDistribution
import MeChain.Cmd.Genesis
import MeChain.Cmd.ModuleAccounts
import MeChain.Cmd.StakePool
import MeChain.Cmd.GenesisRuns
import MeChain.Cmd.Config
import MeChain.Cmd.Testnet
import MeChain.Export.AllowList
import MeChain.Chain.Payments
import MeChain.Chain.Sane
import MeChain.Chain.Runs
import MeChain.Chain.ExportAgain
import MeChain.CheckIn.Decode
import MeChain.CheckIn.Skip
import MeChain.CheckIn.Unmarshal
import MeChain.CheckIn.Marshal
import MeChain.CheckIn.Messages
import MeChain.CheckIn.Server
import MeChain.Client.ProtobufJs
import MeChain.Client.Codec
import MeChain.Client.CheckIn
import MeChain.Client.Staking
import MeChain.Client.Store
import MeChain.Client.StoreRuns
import MeChain.Client.Pages
