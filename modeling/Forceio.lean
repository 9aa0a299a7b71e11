import Forceio.Chain.DoubleConfirm
import Forceio.Chain.Quorum
import Forceio.Chain.SchedulePipeline
import Forceio.Chain.Unwind
import Forceio.Chain.Descendants
import Forceio.Chain.SignatureKeys
import Forceio.Chain.UsedKeys
import Forceio.Chain.InputTransactions
import Forceio.Chain.TransactionRoot
import Forceio.Chain.Billing
import Forceio.Chain.AccountLimits
import Forceio.Chain.PermissionLinks
import Forceio.Chain.DeferredLedger
import Forceio.Chain.ProducerValidator
import Forceio.Chain.ContractFrame
import Forceio.Chain.NativeLedger
import Forceio.Chain.NameLists
import Forceio.Chain.BlockLogReopen
import Forceio.Chain.AbiPacked
import Forceio.Chain.AbiUnpacked
import Forceio.Producer.NextBlockTime
import Forceio.Exchange.Staked
import Forceio.Exchange.Fees
import Forceio.Exchange.Marks
import Forceio.Exchange.Limits
import Forceio.Exchange.Resting
import Forceio.Relay.Confirmations
import Forceio.Relay.Dispatch
import Forceio.Relay.Progress
import Forceio.System.Rewards
import Forceio.System.Delegation
