import TianGong.SecGuard.ExtraArguments
import TianGong.SecGuard.GuardChain
import TianGong.SecGuard.Judge
import TianGong.SecGuard.Nesting
import TianGong.SecGuard.RuleGlobs
import TianGong.SecGuard.SelfProtection
import TianGong.Ai.ConcurrencyLimit
import TianGong.Ai.ToolHistory
import TianGong.Ai.TransformMessages
import TianGong.SecAgent.McpNames
import TianGong.SecAgent.Observation
import TianGong.SecAgent.Plan
import TianGong.SecAgent.TaskFork
import TianGong.SecAgent.Terminal
import TianGong.SecAgent.TrafficQuery
import TianGong.Relay.Settle
import TianGong.Roots.Leases
import TianGong.Manager.Single
import TianGong.Remote.LocalScanner
import TianGong.Remote.ReadRun
import TianGong.Remote.WindowRun
import TianGong.Remote.WriteCall
import TianGong.SecServer.Asks
import TianGong.SecServer.BestPath
import TianGong.SecServer.Findings
import TianGong.SecServer.WebSocketHead
import TianGong.Output.Split
import TianGong.Gibraltar.PromptRun
import TianGong.Gibraltar.SpendRun
import TianGong.Gibraltar.Truncate
import TianGong.Storage.EntryScans
import TianGong.Session.HistoryRun
import TianGong.Harness.TaskGraphRun
import TianGong.Contract.Coverage
import TianGong.Contract.Identity
import TianGong.Chord.ArrayPlan
import TianGong.Chord.DiffSound
import TianGong.Chord.Mirror
import TianGong.Chord.TrackerHistory
