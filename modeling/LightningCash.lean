import LightningCash.Lib.Digits
import LightningCash.Lib.Except
import LightningCash.Lib.Refines
import LightningCash.Lib.Codec
import LightningCash.Lib.Worklist
import LightningCash.Lib.OrderStat
import LightningCash.Lib.Matching
import LightningCash.Lib.Brackets
import LightningCash.Lib.Ancestors
import LightningCash.Lib.XorChecksum
import LightningCash.Lib.Halving
import LightningCash.Lib.Selection
import LightningCash.Lib.AListSum
import LightningCash.Lib.UpdateAll
import LightningCash.Arith.BaseUint
import LightningCash.Arith.Spec
import LightningCash.Arith.Shift
import LightningCash.Arith.Division
import LightningCash.Arith.Compact
import LightningCash.Arith.Uint256
import LightningCash.Arith.Modular
import LightningCash.Chain.Params
import LightningCash.Chain.SkipList
import LightningCash.Pow.DarkGravityWave
import LightningCash.Pow.DarkGravityWaveSpec
import LightningCash.Pow.HiveWork
import LightningCash.Primitives.Transaction
import LightningCash.Validation.HiveProof
import LightningCash.Validation.HiveProof3
import LightningCash.Validation.CheckBlock
import LightningCash.Validation.ActivateBestChain
import LightningCash.Chain.ActiveChain
import LightningCash.Script.Script
import LightningCash.Script.Interpreter
import LightningCash.Script.FlagMonotone
import LightningCash.Script.Encoding
import LightningCash.Script.ScriptNum
import LightningCash.Script.GetOp
import LightningCash.Script.MultiSig
import LightningCash.Script.Conditionals
import LightningCash.Serialize.Serialize
import LightningCash.Serialize.Compressor
import LightningCash.Coins.Coin
import LightningCash.Primitives.TransactionSerialize
import LightningCash.Primitives.BlockEncodings
import LightningCash.Util.StrEncodings
import LightningCash.Util.Bech32
import LightningCash.Net.NetAddress
import LightningCash.Mempool.DescendantCache
import LightningCash.Consensus.TimeLocks
import LightningCash.Script.TimeLockChecker
import LightningCash.Consensus.VersionBits
import LightningCash.Consensus.TxVerify
import LightningCash.Coins.CoinsViewCache
import LightningCash.Validation.DisconnectBlock
import LightningCash.Consensus.Issuance
import LightningCash.Validation.BeeCost
import LightningCash.Wallet.BeeCreation
import LightningCash.Wallet.CoinSelection
import LightningCash.Mining.BusyBees
