import Kaia.Istanbul.Types
import Kaia.Foundation.Runs
import Kaia.Foundation.Shuffle
import Kaia.Validator.Basic
import Kaia.Validator.Committee
import Kaia.Validator.CommitteeSize
import Kaia.Foundation.Cache
import Kaia.Backend.CommittedSeals
import Kaia.Backend.SignatureCache
import Kaia.Backend.SnapshotJson
import Kaia.Foundation.Heap
import Kaia.Core.Locks
import Kaia.Core.Votes
import Kaia.Core.RoundChange
import Kaia.Core.Seals
import Kaia.Core.Agreement
import Kaia.State.Roots
import Kaia.State.Copy
import Kaia.State.Mutators
import Kaia.Account.MultiSig
import Kaia.Account.Unextend
import Kaia.Transaction.Canonical
import Kaia.Foundation.Patricia
import Kaia.Governance.Tally
import Kaia.Governance.Accepted
import Kaia.Governance.Contract
import Kaia.Foundation.Producers
import Kaia.Trie.Crash
import Kaia.Trie.RangeSound
import Kaia.Validator.Filter
import Kaia.System.Conservation
import Kaia.Validator.Proposer
import Kaia.Governance.Engine
import Kaia.Governance.Pending
import Kaia.Backend.HeaderHash
import Kaia.Reward.Overflow
import Kaia.Reward.Reported
import Kaia.Reward.Staking
import Kaia.Reward.Supply
import Kaia.Core.Backlog
import Kaia.Backend.Regen
import Kaia.TxPool.Priced
import Kaia.TxPool.Truncate
import Kaia.TxPool.Validate
import Kaia.TxPool.Throttle
import Kaia.TxPool.TxSortedMap
import Kaia.VM.Access
import Kaia.VM.Analysis
import Kaia.Datasync.Kafka
import Kaia.Bridge.ItemSortedMap
import Kaia.Core.Certificates
import Kaia.State.Transparency
import Kaia.Trie.Persistence
