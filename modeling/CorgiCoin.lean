import CorgiCoin.BlockCodec
import CorgiCoin.OrphanBlocks
import CorgiCoin.OrphanTxs
import CorgiCoin.Framing
import CorgiCoin.PoolRuns
import CorgiCoin.Tip
import CorgiCoin.Flags
import CorgiCoin.Headers
import CorgiCoin.MostWork
import CorgiCoin.BridgePayments
import CorgiCoin.BridgeScan
import CorgiCoin.BridgeChanges
import CorgiCoin.WebKeys
import CorgiCoin.AddrManReload
import CorgiCoin.ExplorerChain
import CorgiCoin.ExplorerTables
import CorgiCoin.WalletKeys
import CorgiCoin.WalletSeed
import CorgiCoin.BanList
import CorgiCoin.KeyPool
import CorgiCoin.WorkCache
import CorgiCoin.AuxMining
import CorgiCoin.BurnScript
import CorgiCoin.Address
import CorgiCoin.Accounts
import CorgiCoin.MinWork
import CorgiCoin.Markers
import CorgiCoin.MedianTime
import CorgiCoin.MerkleTree
import CorgiCoin.Lwma
import CorgiCoin.CoinSelection
import CorgiCoin.WebPayment
import CorgiCoin.AvailableCoins
import CorgiCoin.CreateTransaction
import CorgiCoin.LoadBlockIndex
import CorgiCoin.MultiSig
import CorgiCoin.ScriptLimits
import CorgiCoin.SigOpBound
import CorgiCoin.SignedBytes
import CorgiCoin.StandardScripts
import CorgiCoin.MainChain
import CorgiCoin.Locator
import CorgiCoin.ListTransactions
import CorgiCoin.ListSinceBlock
import CorgiCoin.SupportingTxs
import CorgiCoin.CombinedSigs
import CorgiCoin.FindAndDelete
import CorgiCoin.SignRawTransaction
import CorgiCoin.TimeData
import CorgiCoin.AddrManEvict
import CorgiCoin.SeedWrites
import CorgiCoin.Mnemonic
import CorgiCoin.Phrases
import CorgiCoin.Base58Strings
import CorgiCoin.Bech32Errors
import CorgiCoin.Unlocking
import CorgiCoin.PassphraseSteps
import CorgiCoin.Mpi
import CorgiCoin.CompactTargets
import CorgiCoin.ScriptNumbers
import CorgiCoin.FeeRange
import CorgiCoin.WideInt
import CorgiCoin.ReadBack
import CorgiCoin.ExplorerUnwind
import CorgiCoin.MoneyText
import CorgiCoin.ExtKeys
import CorgiCoin.Base64
import CorgiCoin.DumpText
import CorgiCoin.WalletDump
import CorgiCoin.LockedSeed
import CorgiCoin.BlockTemplate
import CorgiCoin.MinerValidator
import CorgiCoin.MinedBlock
import CorgiCoin.Spendable
import CorgiCoin.MultisigAddress
import CorgiCoin.SignatureCache
import CorgiCoin.Inventory
import CorgiCoin.Requests
import CorgiCoin.Alerts
import CorgiCoin.BlockDownload
