import Lithium.AuxPowComplete
import Lithium.CheckQueue
import Lithium.Coins.Stack
import Lithium.Consensus.Timelocks
import Lithium.Difficulty
import Lithium.HeadersSync.Credit
import Lithium.HeadersSync.Honest
import Lithium.MedianTime
import Lithium.NetProcessing.LargePayloads
import Lithium.Rpc.AuxpowWork
import Lithium.Scheduler
import Lithium.Script.Conditions
import Lithium.Script.Multisig
import Lithium.ServiceQueue
import Lithium.TransactionEncoding
import Lithium.Txmempool.Runs
import Lithium.Validation.Deployments
import Lithium.Validation.Linking
import Lithium.Validation.MempoolScripts
import Lithium.Validation.Money
import Lithium.Validation.Snapshot
import Lithium.Validation.StoredBlocks
import Lithium.Versionbits.Cache
import Lithium.Wallet.Balances
import Lithium.Wallet.Restart
