import NovumAgent.ToolOutput.Paging
import NovumAgent.ToolOutput.Lifetime
import NovumAgent.ApplyPatch.Agreement
import NovumAgent.ApplyPatch.Delta
import NovumAgent.ApplyPatch.ParserAgreement
import NovumAgent.ApplyPatch.RoundTrip
import NovumAgent.Otel.Barrier
import NovumAgent.Permissions.Deciding
import NovumAgent.Agents.Accounting
import NovumAgent.History.Normalize
import NovumAgent.WorldState.Recording
import NovumAgent.Relay.Delivery
import NovumAgent.ExecServer.StdinWrites
import NovumAgent.NetworkProxy.BlockedLog
import NovumAgent.ExecServer.BodyStream
import NovumAgent.UnifiedExec.OutputTask
import NovumAgent.UnifiedExec.Pruning
import NovumAgent.ExecServer.Reconnect
import NovumAgent.ExecPolicy.Amendment
import NovumAgent.TurnDiff.Exact
import NovumAgent.StreamParser.AssistantText
import NovumAgent.NetworkProxy.CredentialBroker.Selection
import NovumAgent.UnifiedExec.HeadTailBuffer
import NovumAgent.ApplyPatch.Untouched
import NovumAgent.ToolOutput.Traces
import NovumAgent.Config.Restrictions
import NovumAgent.RemoteControl.Sequencing
import NovumAgent.Rollout.ReverseScanner
import NovumAgent.Migration.HistoryKept
import NovumAgent.NetworkProxy.AuthorizationPath
import NovumAgent.StreamParser.Chunking
import NovumAgent.ExecPolicy.NetworkRules
import NovumAgent.ToolOutput.Search
import NovumAgent.Truncation.Middle
