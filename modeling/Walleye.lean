import Walleye.Engine.Handover
import Walleye.Engine.Views
import Walleye.Lance.Snapshot
import Walleye.Lance.Retry
import Walleye.Lance.OpenTailSafe
import Walleye.Bitr.SealingSafe
import Walleye.Bitr.Replacement
import Walleye.Bitr.HandoffSafe
import Walleye.Bitr.NodeFencing
import Walleye.Bitr.FailedWrites
import Walleye.Bitr.LogBudget
import Walleye.Bitr.PlacementSafe
import Walleye.Control.Claims
import Walleye.Control.Removal
import Walleye.Control.Agreement
import Walleye.Control.Migration
import Walleye.Admission.Drain
import Walleye.Admission.NodeFence
import Walleye.Control.Retirement
import Walleye.Recovery.Certificates
import Walleye.Recovery.Repair
import Walleye.Alarms.Covered
import Walleye.Ownership.History
import Walleye.Cache.Memory
import Walleye.Cache.Disk
import Walleye.Cache.LoadGate
import Walleye.Bitr.BatchAppend
import Walleye.Lance.Knowledge
import Walleye.Lance.Fence
import Walleye.Lance.Takeover
import Walleye.Engine.Forward
import Walleye.Bitr.Writer
import Walleye.Bitr.Rebalance
import Walleye.Ring.Placement
