import Q2Admin.Base.Exec
import Q2Admin.Base.CString
import Q2Admin.Base.Run
import Q2Admin.Base.While
import Q2Admin.Base.Handles
import Q2Admin.Base.Parser
import Q2Admin.Base.Ring
import Q2Admin.Base.Threads
import Q2Admin.Base.Chain
import Q2Admin.Base.Coupled
import Q2Admin.Msg.Buffer
import Q2Admin.Msg.Format
import Q2Admin.Msg.Bounded
import Q2Admin.Msg.RoundTrip
import Q2Admin.Msg.InfoLookup
import Q2Admin.Model.State
import Q2Admin.Model.Protocol
import Q2Admin.Model.Userinfo
import Q2Admin.Model.InfoScan
import Q2Admin.Model.Connection
import Q2Admin.Model.Text
import Q2Admin.Model.Handshake
import Q2Admin.Model.Parse
import Q2Admin.Model.Loop
import Q2Admin.Command.Detached
import Q2Admin.Command.Command
import Q2Admin.Command.Frame
import Q2Admin.Command.Records
import Q2Admin.Command.Handlers
import Q2Admin.Command.Message
import Q2Admin.Command.Table
import Q2Admin.Command.Bounds
import Q2Admin.Session.Machine
import Q2Admin.Session.Invariants
import Q2Admin.Session.Sockets
import Q2Admin.Session.Roster
import Q2Admin.Session.Trust
import Q2Admin.Session.Projection
import Q2Admin.Session.Sends
import Q2Admin.Session.Hello
import Q2Admin.Session.Greeting
import Q2Admin.Session.Refinement
import Q2Admin.Session.Footprint
import Q2Admin.Session.Turn
import Q2Admin.Session.Speech
import Q2Admin.Session.Frames
import Q2Admin.Session.Quiet
import Q2Admin.Session.Texts
import Q2Admin.Session.VaRing
import Q2Admin.Session.Room
import Q2Admin.Session.Welcome
import Q2Admin.Session.Sealing
import Q2Admin.Session.Sight
import Q2Admin.Session.Custody
import Q2Admin.Session.Contexts
import Q2Admin.Session.Answering
import Q2Admin.Loop.PollTable
import Q2Admin.Loop.Trust
import Q2Admin.Loop.Challenge
import Q2Admin.Loop.Authority
import Q2Admin.Loop.Reads
import Q2Admin.Loop.Dispatch
import Q2Admin.Loop.Stream
import Q2Admin.Loop.Presence
import Q2Admin.Loop.Strings
import Q2Admin.Loop.Capacity
import Q2Admin.Loop.Endings
import Q2Admin.Loop.Rejection
import Q2Admin.Loop.Scan
import Q2Admin.Loop.Rounds
import Q2Admin.Loop.Closing
import Q2Admin.Loop.Descriptors
import Q2Admin.Loop.Order
import Q2Admin.Loop.Lifecycle
import Q2Admin.Msg.Terminator
import Q2Admin.Loop.AuthInput
import Q2Admin.Loop.PlayerList
import Q2Admin.Loop.PeerList
import Q2Admin.Loop.Broadcast
import Q2Admin.Loop.TeleportList
import Q2Admin.Loop.FreshStart
import Q2Admin.Loop.Accounts
import Q2Admin.Loop.Encryption
import Q2Admin.Loop.Transparency
import Q2Admin.Loop.Overflow
import Q2Admin.Loop.Bearing
import Q2Admin.Loop.Progress
import Q2Admin.Loop.Shutdown
import Q2Admin.Loop.TeleportBounds
import Q2Admin.Loop.TeleportTarget
import Q2Admin.Registry.Lists
import Q2Admin.Registry.Servers
import Q2Admin.Pool.Queue
import Q2Admin.Pool.Model
import Q2Admin.Pool.Steps
import Q2Admin.Pool.Locks
import Q2Admin.Pool.Jobs
import Q2Admin.Pool.Ending
import Q2Admin.Pool.Waiting
import Q2Admin.Pool.Rest
import Q2Admin.Pool.Progress
