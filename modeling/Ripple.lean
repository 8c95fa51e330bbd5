import Ripple.Protocol.IOUAmount
import Ripple.Protocol.STObjectLaws
import Ripple.Ledger.DirectoryPaging
import Ripple.Ledger.BookDirs
import Ripple.Tx.InvariantCheck
import Ripple.Paths.StrandFlow
import Ripple.SHAMap.UpperBound
import Ripple.SHAMap.Difference
import Ripple.SHAMap.Codec
import Ripple.SHAMap.Acquire
import Ripple.App.Replay
import Ripple.App.Publish
import Ripple.Misc.ValidatorRuns
import Ripple.Misc.AmendmentRuns
import Ripple.Core.JobAccounting
import Ripple.LedgerTrie.Canonical
import Ripple.LedgerTrie.PreferredWalk
import Ripple.Validations.Grounded
import Ripple.RCLValidations.Ledger
import Ripple.Consensus.Disputes
import Ripple.TxQ.Blockers
import Ripple.PeerFinder.Endpoints
import Ripple.Ledger.StateTable
import Ripple.Ledger.PaymentSandbox
import Ripple.App.SkipList
import Ripple.App.ValidatedRange
import Ripple.NodeStore.Varint
