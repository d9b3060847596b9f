import PolkadotSdk.Lib.DivRound
import PolkadotSdk.Lib.Unsigned
import PolkadotSdk.Arithmetic.Rounding
import PolkadotSdk.Arithmetic.Helpers128Bit
import PolkadotSdk.Arithmetic.Rational
import PolkadotSdk.Arithmetic.PerThings
import PolkadotSdk.Lib.PairTree
import PolkadotSdk.MerkleTree.Merkelize
import PolkadotSdk.MerkleTree.Binary
import PolkadotSdk.MerkleTree.Snowbridge
import PolkadotSdk.ApprovalVoting.PersistedEntries
import PolkadotSdk.ApprovalVoting.ApprovalChecking
import PolkadotSdk.StatementTable.Generic
import PolkadotSdk.ForkTree.Basic
import PolkadotSdk.ForkTree.Forest
import PolkadotSdk.ForkTree.Errors
import PolkadotSdk.StateMachine.Changeset
import PolkadotSdk.StateMachine.OverlayedChanges
import PolkadotSdk.Lib.RelPath
import PolkadotSdk.Xcm.Location
import PolkadotSdk.Lib.Fuel
import PolkadotSdk.MessageQueue.Pallet
import PolkadotSdk.MessageQueue.Storage
import PolkadotSdk.MessageQueue.ServiceQueues
import PolkadotSdk.MessageQueue.ExecuteOverweight
import PolkadotSdk.Referenda.Curve
import PolkadotSdk.Staking.Ledger
import PolkadotSdk.Staking.Slash
import PolkadotSdk.Staking.Accounting
import PolkadotSdk.NposElections.Pjr
import PolkadotSdk.ForkTree.Iter
import PolkadotSdk.ForkTree.LevelOrder
import PolkadotSdk.ForkTree.DrainFilter
import PolkadotSdk.ForkTree.Ancestry
import PolkadotSdk.ForkTree.Finalizes
import PolkadotSdk.ForkTree.Search
import PolkadotSdk.ForkTree.Finalize
import PolkadotSdk.NposElections.ElectionScore
import PolkadotSdk.Arithmetic.Integers
import PolkadotSdk.Arithmetic.FixedPoint
import PolkadotSdk.Arithmetic.FixedRounding
import PolkadotSdk.Lib.Holdings
import PolkadotSdk.NominationPools.Points
import PolkadotSdk.Lib.Bytes
import PolkadotSdk.MessageQueue.Heap
import PolkadotSdk.Lib.Sequences
import PolkadotSdk.BagsList.List
import PolkadotSdk.BagsList.WellFormed
import PolkadotSdk.BagsList.Reorder
import PolkadotSdk.BagsList.RemoveMany
import PolkadotSdk.BagsList.Iter
import PolkadotSdk.BagsList.Migrate
import PolkadotSdk.BagsList.Rebag
import PolkadotSdk.BagsList.Pallet
import PolkadotSdk.Runtime.Era
import PolkadotSdk.Lib.ForLoop
import PolkadotSdk.Arithmetic.BigUint
import PolkadotSdk.Arithmetic.Rational128
import PolkadotSdk.Lib.IndexedList
import PolkadotSdk.Arithmetic.Normalize
import PolkadotSdk.Lib.LongDivision
import PolkadotSdk.Arithmetic.BigUintDiv
import PolkadotSdk.Lib.SignMagnitude
import PolkadotSdk.Staking.RewardFn
import PolkadotSdk.Lib.KeyedFold
import PolkadotSdk.StateMachine.Snapshots
import PolkadotSdk.StateMachine.ChangesetRefinement
import PolkadotSdk.Lib.MinBy
import PolkadotSdk.NposElections.Phragmen
import PolkadotSdk.ForkTree.Import
