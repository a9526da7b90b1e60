import Lazarus.Gateway.Consistent
import Lazarus.Gateway.Difficulty
import Lazarus.Gateway.Overflow
import Lazarus.Gateway.PrimeQueue
import Lazarus.Gateway.Rescale
import Lazarus.Gateway.Submit
import Lazarus.Gateway.Taken
import Lazarus.Gateway.Talk
import Lazarus.Gateway.Vardiff
import Lazarus.Lib.Along
import Lazarus.Lib.Last
import Lazarus.Lib.Lines
import Lazarus.Lib.Shares
import Lazarus.Nta.Stuffing
import Lazarus.Prime.Window
import Lazarus.Primed.ByHand
import Lazarus.Primed.ClassBudget
import Lazarus.Primed.Connections
import Lazarus.Primed.Crash
import Lazarus.Primed.Framing
import Lazarus.Primed.Genuine
import Lazarus.Primed.Issue
import Lazarus.Primed.Memory
import Lazarus.Primed.Orphan
import Lazarus.Primed.Outcome
import Lazarus.Primed.Parents
import Lazarus.Primed.Payment
import Lazarus.Primed.Poll
import Lazarus.Primed.Race
import Lazarus.Primed.Ready
import Lazarus.Primed.RebateRescale
import Lazarus.Primed.Restart
import Lazarus.Primed.Seen
import Lazarus.Primed.Snapshot
import Lazarus.Primed.Solo
import Lazarus.Primed.Tip
import Lazarus.Primed.Whole
import Lazarus.Primed.WorkerBook
import Lazarus.Tides.BlockFile
import Lazarus.Tides.Exclusive
import Lazarus.Tides.Grace
import Lazarus.Tides.HoldMoves
import Lazarus.Tides.Identities
import Lazarus.Tides.LedgerLaw
import Lazarus.Tides.MetaFile
import Lazarus.Tides.Opening
import Lazarus.Tides.Outright
import Lazarus.Tides.Persist
import Lazarus.Tides.Reapply
import Lazarus.Tides.RebateCut
import Lazarus.Tides.RebateShare
import Lazarus.Tides.Replay
import Lazarus.Tides.Rows
import Lazarus.Tides.ShareWindow
import Lazarus.Tides.Solvency
import Lazarus.Tides.SplitResult
import Lazarus.Tides.StaleOrder
import Lazarus.Tides.Store
import Lazarus.Tides.StoreRun
import Lazarus.Tides.Undo
import Lazarus.Wire.Caches
import Lazarus.Wire.Channel
import Lazarus.Wire.Claimed
import Lazarus.Wire.Encoding
import Lazarus.Wire.Floor
import Lazarus.Wire.Serialize
