import Belcoin.Crypto
import Belcoin.Queue
import Belcoin.Cluster
import Belcoin.Ledger.Supply
import Belcoin.Ledger.Coins
import Belcoin.Ledger.Exclusive
import Belcoin.Ledger.Authority
import Belcoin.Ledger.Finish
import Belcoin.Ledger.Alike
import Belcoin.Ledger.History
import Belcoin.Ledger.Indexes
import Belcoin.Ledger.Timelock
import Belcoin.Ledger.Inert
import Belcoin.Mempool
import Belcoin.RpcServer
import Belcoin.Encoding
import Belcoin.Waiting
import Belcoin.Requests
import Belcoin.Raft
import Belcoin.Overlap
import Belcoin.Agreement
import Belcoin.Restart
import Belcoin.Wallet
import Belcoin.Balance
import Belcoin.Order
import Belcoin.Answers
import Belcoin.SyncObj.Replicas
import Belcoin.SyncObj.Connection
