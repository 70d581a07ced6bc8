import PromiseDemo.Framework.Transition
import PromiseDemo.Framework.Drive
import PromiseDemo.Framework.Duplex
import PromiseDemo.Framework.PrefixCode
import PromiseDemo.Framework.PromiseStore
import PromiseDemo.Framework.Resumable
import PromiseDemo.Net.Framing
import PromiseDemo.Net.FrameGrammar
import PromiseDemo.Net.Socket
import PromiseDemo.Net.Stream
import PromiseDemo.Net.SendAll
import PromiseDemo.Client.Connection
import PromiseDemo.Client.Visit
import PromiseDemo.Client.ProcessConnections
import PromiseDemo.Client.Ledger
import PromiseDemo.Client.Futures
import PromiseDemo.Client.Correlation
import PromiseDemo.Client.Isolation
import PromiseDemo.Client.Closing
import PromiseDemo.Client.Streams
import PromiseDemo.Client.Numbering
import PromiseDemo.Client.RequestStream
import PromiseDemo.Client.LostConnection
import PromiseDemo.Client.CheckThenAct
import PromiseDemo.Server.Protocol
import PromiseDemo.Server.AsioSession
import PromiseDemo.Server.SingleWriter
import PromiseDemo.Server.SingleReader
import PromiseDemo.Server.SelectConnection
import PromiseDemo.Server.ReplyStream
import PromiseDemo.Server.SelectLoop
import PromiseDemo.Server.ReadySockets
import PromiseDemo.Server.Server
import PromiseDemo.Server.AsioServer
import PromiseDemo.Server.AcceptLoop
import PromiseDemo.Server.Equivalence
import PromiseDemo.Server.Termination
import PromiseDemo.System.Link
import PromiseDemo.System.Answers
import PromiseDemo.System.Delivery
import PromiseDemo.System.Reliable
import PromiseDemo.System.SendDeadlock
import PromiseDemo.System.Lively
import PromiseDemo.System.SessionProgress
import PromiseDemo.System.VisitProgress
import PromiseDemo.System.Progress
import PromiseDemo.MsgPack.Object
import PromiseDemo.MsgPack.Unpack
import PromiseDemo.MsgPack.RoundTrip
import PromiseDemo.MsgPack.Accepted
import PromiseDemo.MsgPack.Unpacker
import PromiseDemo.MsgPack.Buffer
import PromiseDemo.Rpc.Dispatcher
import PromiseDemo.Rpc.AsyncWriter
import PromiseDemo.Rpc.Serve
import PromiseDemo.Rpc.ServerSession
import PromiseDemo.Rpc.Handlers
import PromiseDemo.Rpc.ReadLoop
import PromiseDemo.Rpc.Client
import PromiseDemo.Rpc.ClientLedger
import PromiseDemo.Rpc.ClientRun
import PromiseDemo.Rpc.ClientFutures
import PromiseDemo.Rpc.ClientNumbers
import PromiseDemo.Rpc.Conversation
import PromiseDemo.Rpc.OwnReplies
import PromiseDemo.Rpc.AllAnswered
import PromiseDemo.Framework.Budget
import PromiseDemo.Rpc.Completion
import PromiseDemo.Framework.FutureProgram
import PromiseDemo.Rpc.UserThread
import PromiseDemo.Rpc.UserRequests
import PromiseDemo.Rpc.UserProgress
import PromiseDemo.Rpc.Demo
import PromiseDemo.Rpc.SessionServes
import PromiseDemo.Rpc.Server
