import PolkadotSdk.ForkTree
import PolkadotSdk.TreeOrder
import PolkadotSdk.ForkTreeWF
import PolkadotSdk.ForkTreeFinalize
import PolkadotSdk.ForkTreeImport
import PolkadotSdk.ForkTreePrune
import PolkadotSdk.ForkTreeDrain
import PolkadotSdk.ForkTreeRun
import PolkadotSdk.ForkTreeSearch
import PolkadotSdk.ForkTreeReroot
import PolkadotSdk.ForkTreeLevels
import PolkadotSdk.ForkTreeDryRun
import PolkadotSdk.ForkTreeErrors
import PolkadotSdk.PerThings
import PolkadotSdk.PerThingsReciprocal
import PolkadotSdk.Staking
import PolkadotSdk.StakingSlash
import PolkadotSdk.StakingLedger
import PolkadotSdk.Broker
import PolkadotSdk.BrokerPool
import PolkadotSdk.BagsList
import PolkadotSdk.BagsListMigrate
import PolkadotSdk.LinkedStore
import PolkadotSdk.BagsListIter
import PolkadotSdk.BagsListOps
import PolkadotSdk.BagsListLayout
import PolkadotSdk.BagsListMoves
import PolkadotSdk.BagsListReorder
import PolkadotSdk.BagsListTryState
import PolkadotSdk.BagsListRun
import PolkadotSdk.MessageQueue
import PolkadotSdk.MessageQueuePage
import PolkadotSdk.MessageQueueOverweight
import PolkadotSdk.MessageQueueFootprints
import PolkadotSdk.LinkedRing
import PolkadotSdk.MessageQueueRing
import PolkadotSdk.MessageQueueTryState
import PolkadotSdk.NominationPools
import PolkadotSdk.NominationPoolsRewards
import PolkadotSdk.NominationPoolsPoints
import PolkadotSdk.Balances
import PolkadotSdk.BalancesIssuance
import PolkadotSdk.ScaleCompact
import PolkadotSdk.Overlay
import PolkadotSdk.SnapshotStack
import PolkadotSdk.OverlayVersions
import PolkadotSdk.OverlayTransactions
import PolkadotSdk.WideArith
import PolkadotSdk.Helpers128
import PolkadotSdk.PerThingsPrune
import PolkadotSdk.Helpers128Gcd
import PolkadotSdk.Limbs
import PolkadotSdk.BigUint
import PolkadotSdk.BigUintDiv
import PolkadotSdk.PerThingsRational
import PolkadotSdk.Rational128Arith
import PolkadotSdk.NposScore
import PolkadotSdk.FixedPoint
import PolkadotSdk.FixedPointChecked
import PolkadotSdk.FixedPointPow
import PolkadotSdk.BrokerPrice
import PolkadotSdk.Auctions
import PolkadotSdk.ByteBits
import PolkadotSdk.CoreMaskBytes
import PolkadotSdk.Ss58
import PolkadotSdk.RelPath
import PolkadotSdk.XcmLocation
import PolkadotSdk.XcmAssets
import PolkadotSdk.ByteCodec
import PolkadotSdk.Extrinsic
import PolkadotSdk.NposNode
import PolkadotSdk.NposReduce
import PolkadotSdk.Normalize
import PolkadotSdk.NormalizeChecked
import PolkadotSdk.NposElection
import PolkadotSdk.NposInvariant
import PolkadotSdk.NposBalancing
import PolkadotSdk.NposPhragmen
import PolkadotSdk.NposPhragmms
import PolkadotSdk.NposElectionInvariant
import PolkadotSdk.NposPjr
import PolkadotSdk.GroupBy
import PolkadotSdk.NposSupports
import PolkadotSdk.Interpolation
import PolkadotSdk.Curve
