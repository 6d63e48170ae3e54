import BoostIrc.Bytes
import BoostIrc.Pattern
import BoostIrc.Message
import BoostIrc.Line
import BoostIrc.Parser
import BoostIrc.Client
import BoostIrc.Dispatch
import BoostIrc.Outbound
import BoostIrc.Pieces
import BoostIrc.Receive
import BoostIrc.Keepalive
import BoostIrc.Socket
import BoostIrc.SendQueue
import BoostIrc.Relay
import BoostIrc.Reports
import BoostIrc.Delimiter
import BoostIrc.RequestHead
import BoostIrc.Base64
import BoostIrc.Handshake
import BoostIrc.Lifecycle
import BoostIrc.CloseFrame
import BoostIrc.Assembly
import BoostIrc.Sessions
import BoostIrc.HttpClient
import BoostIrc.FileTree
import BoostIrc.StaticFiles
import BoostIrc.HttpServer
import BoostIrc.HeadBounds
import BoostIrc.IdleTimer
import BoostIrc.CloseEcho
import BoostIrc.BigEndian
import BoostIrc.LengthField
import BoostIrc.PayloadBounds
import BoostIrc.FileSend
import BoostIrc.JoinLists
import BoostIrc.Senders
import BoostIrc.Tags
import BoostIrc.Framing
import BoostIrc.Simulation
import BoostIrc.WireFrames
import BoostIrc.Delivery
import BoostIrc.EchoService
import BoostIrc.IrcSession
import BoostIrc.Endpoints
import BoostIrc.Program
import BoostIrc.WebSession
import BoostIrc.Supervision
import BoostIrc.Fetch
import BoostIrc.ResourceTable
