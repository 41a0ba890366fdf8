import Mcpdef.Lib.ByteText
import Mcpdef.Lib.JsonText
import Mcpdef.Lib.JsonRead
import Mcpdef.Audit.Sealed
import Mcpdef.Audit.Follow
import Mcpdef.Lib.Indexed
import Mcpdef.Lib.Percent
import Mcpdef.Lib.PercentTwice
import Mcpdef.Lib.Transition
import Mcpdef.Policy.DotSegments
import Mcpdef.Policy.Glob
import Mcpdef.Policy.UriDecode
import Mcpdef.Policy.UriDirectory
import Mcpdef.Policy.UriFixed
import Mcpdef.Transport.Mux
import Mcpdef.Transport.MuxReply
import Mcpdef.Transport.MuxSlots
import Mcpdef.Transport.MuxDown
import Mcpdef.Policy.ResultApply
import Mcpdef.Gateway.Listing
import Mcpdef.Gateway.Judge
import Mcpdef.Gateway.CallArguments
import Mcpdef.Transport.HttpPins
import Mcpdef.Transport.Oauth
import Mcpdef.Admin.Session
import Mcpdef.Admin.Envelope
import Mcpdef.Admin.SignInRuns
import Mcpdef.Admin.AuditStreamRuns
import Mcpdef.Admin.AuditVerify
import Mcpdef.Transport.SseEvents
import Mcpdef.Transport.SseFed
import Mcpdef.Transport.LegacySse
import Mcpdef.Policy.GlobMatch
import Mcpdef.Policy.GlobOverlap
import Mcpdef.Policy.UriExact
import Mcpdef.Gateway.LimiterRuns
import Mcpdef.Gateway.ParamHeaders
import Mcpdef.Transport.EgressRanges
import Mcpdef.Config.Gates
import Mcpdef.Tls.Revoke
import Mcpdef.Auth.VerifyClaims
import Mcpdef.Audit.Find
import Mcpdef.Gateway.Stamped
import Mcpdef.Policy.EditHolds
import Mcpdef.Pin.Same
import Mcpdef.Gateway.Routes
import Mcpdef.Gateway.PinRuns
import Mcpdef.Gateway.PoisonRuns
import Mcpdef.Gateway.Resources
import Mcpdef.Gateway.Surface
import Mcpdef.Gateway.ServerTools
import Mcpdef.MessageLine
import Mcpdef.Audit.Older
import Mcpdef.Audit.ExportLines
import Mcpdef.Inspect.Paint
import Mcpdef.Inspect.Before
import Mcpdef.Inspect.PemBlocks
import Mcpdef.Lib.Shift
import Mcpdef.Transport.IpWords
import Mcpdef.Listener.Cidr
import Mcpdef.Transport.Stdio
import Mcpdef.Secrets.ReadCapped
import Mcpdef.Listener.Xfcc
import Mcpdef.Lib.Framed
import Mcpdef.Reload.Config
import Mcpdef.Reload.Snapshot
import Mcpdef.Reload.Watch
import Mcpdef.Lib.Tlv
import Mcpdef.Tls.Times
import Mcpdef.Tls.Names
import Mcpdef.Lib.Civil
import Mcpdef.Audit.ExportTime
import Mcpdef.Tls.Calendar
import Mcpdef.Tls.Ensure
import Mcpdef.Tls.LocalCa
import Mcpdef.Tls.Outline
import Mcpdef.Tls.Pair
import Mcpdef.Lib.UrlText
import Mcpdef.Config.Resource
import Mcpdef.Gateway.SuperviseHealth
import Mcpdef.Gateway.SuperviseLedger
import Mcpdef.Gateway.Lists
import Mcpdef.Gateway.StdioServer
import Mcpdef.Gateway.ToolWatch
import Mcpdef.Gateway.Opening
import Mcpdef.Gateway.Handle
