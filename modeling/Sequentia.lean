import Sequentia.Amounts.Supply
import Sequentia.Anchor.CheckpointScan
import Sequentia.Anchor.Reconcile
import Sequentia.Anchor.SiblingHold
import Sequentia.AssetsDir
import Sequentia.Chain.Convergence
import Sequentia.Committee.ExpRace
import Sequentia.Committee.MuSigSessions
import Sequentia.Fees.MempoolRuns
import Sequentia.Mining.Limits
import Sequentia.Pots.SweepClaim
import Sequentia.Producer.Agreement
import Sequentia.Producer.Certificates
import Sequentia.Producer.Collection
import Sequentia.Producer.Compact
import Sequentia.Rewards.Attribution
import Sequentia.Stake.Reorg
import Sequentia.Stake.Template
import Sequentia.Stake.Unbonding
import Sequentia.Stake.Unique
import Sequentia.Supervision.MempoolReorg
import Sequentia.Supervision.Restart
import Sequentia.Swaps.Atomicity
import Sequentia.Swaps.FundingGate
import Sequentia.Swaps.Refund
import Sequentia.Swaps.SwapFileRuns
