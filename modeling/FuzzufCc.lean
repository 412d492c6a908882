import FuzzufCc.Lib.Multigraph
import FuzzufCc.Lib.IR
import FuzzufCc.Libc
import FuzzufCc.Passes.PathSplitting
import FuzzufCc.Passes.ExplainedEdges
import FuzzufCc.Driver.Plan
import FuzzufCc.Runtime.SharedMemory
import FuzzufCc.Driver.MapBounds
import FuzzufCc.Driver.FeatureOrder
import FuzzufCc.ForkServer.Isolation
import FuzzufCc.ForkServer.Session
import FuzzufCc.Utils.Hangup
import FuzzufCc.Passes.RandomBounds
import FuzzufCc.Passes.Reachability
import FuzzufCc.Runtime.IjonCells
import FuzzufCc.Runtime.IjonParse
import FuzzufCc.Runtime.IjonRegions
import FuzzufCc.Runtime.IjonState
import FuzzufCc.Passes.EdgeHash
import FuzzufCc.Passes.Selection
import FuzzufCc.Driver.MapSize
import FuzzufCc.ForkServer.Arming
import FuzzufCc.ForkServer.Handshake
import FuzzufCc.ForkServer.Reports
import FuzzufCc.Lib.RegularFile
import FuzzufCc.Utils.Stdin
import FuzzufCc.Utils.Pipes
import FuzzufCc.Utils.CreateSharedMemory
import FuzzufCc.Driver.Leftovers
import FuzzufCc.Runtime.Initialisers
import FuzzufCc.Runtime.Feedback
import FuzzufCc.Driver.Output
import FuzzufCc.Driver.Carried
import FuzzufCc.Passes.Transparency
import FuzzufCc.Runtime.Campaign
import FuzzufCc.Runtime.Interleaving
import FuzzufCc.Runtime.IjonCampaign
import FuzzufCc.Runtime.IjonHash
import FuzzufCc.Driver.Metadata
import FuzzufCc.Utils.Testcases
import FuzzufCc.Runtime.Linked
import FuzzufCc.Tool.DumpIjonShm
import FuzzufCc.Utils.Lifetimes
import FuzzufCc.Runtime.IjonRaces
import FuzzufCc.Runtime.IjonTargets
