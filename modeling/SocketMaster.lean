import SocketMaster.Library.Memory
import SocketMaster.Library.Run
import SocketMaster.Library.Fifo
import SocketMaster.Library.Reads
import SocketMaster.Library.Stores
import SocketMaster.Library.CString
import SocketMaster.Library.Numerals
import SocketMaster.Library.Fields
import SocketMaster.Library.Folds
import SocketMaster.Library.Neighbours
import SocketMaster.Library.Codes
import SocketMaster.Library.Ownership
import SocketMaster.Ring.CBuffer
import SocketMaster.Ring.Holds
import SocketMaster.Ring.Queue
import SocketMaster.Frame.Basic
import SocketMaster.Frame.Decode
import SocketMaster.Conn.Basic
import SocketMaster.Conn.Handlers
import SocketMaster.Conn.Process
import SocketMaster.Frame.Bounds
import SocketMaster.Frame.Encode
import SocketMaster.Conn.Scan
import SocketMaster.Conn.Answers
import SocketMaster.Frame.Wire
import SocketMaster.Frame.Grammar
import SocketMaster.Frame.Packet
import SocketMaster.Frame.Paras
import SocketMaster.Frame.Made
import SocketMaster.Frame.Corruption
import SocketMaster.Frame.Unique
import SocketMaster.Ring.Sound
import SocketMaster.Ring.Memory
import SocketMaster.Ring.Bulk
import SocketMaster.Conn.Life
import SocketMaster.Conn.Bounds
import SocketMaster.Conn.Outgoing
import SocketMaster.Conn.Wedge
import SocketMaster.Conn.Session
import SocketMaster.Conn.Lost
import SocketMaster.Conn.Cut
import SocketMaster.Conn.Contents
import SocketMaster.Conn.Intake
import SocketMaster.Conn.Replies
import SocketMaster.Conn.Resync
import SocketMaster.Conn.Errno
import SocketMaster.Conn.Reports
import SocketMaster.Conn.Capacity
import SocketMaster.Server.Basic
import SocketMaster.Server.Limit
import SocketMaster.Server.Clients
import SocketMaster.Server.Isolation
import SocketMaster.Server.Failures
import SocketMaster.Server.Loop
import SocketMaster.Server.Events
import SocketMaster.Server.Exchange
import SocketMaster.Server.Stream
import SocketMaster.Server.Delivery
import SocketMaster.Server.Armed
import SocketMaster.Server.Start
import SocketMaster.Server.Life
import SocketMaster.Server.Projection
import SocketMaster.Pool.Basic
import SocketMaster.Pool.Wakeups
import SocketMaster.Pool.Drain
import SocketMaster.Buffer.Basic
import SocketMaster.Buffer.Queue
import SocketMaster.Buffer.Peek
import SocketMaster.Buffer.Growth
import SocketMaster.Buffer.Several
import SocketMaster.Record.Basic
import SocketMaster.Record.Listing
import SocketMaster.Record.Lines
import SocketMaster.Record.Header
import SocketMaster.Record.Update
import SocketMaster.Record.Config
import SocketMaster.Record.Moments
import SocketMaster.Record.Days
import SocketMaster.Monitor.Basic
import SocketMaster.Monitor.Warnings
import SocketMaster.Monitor.Descriptor
import SocketMaster.Monitor.Ledger
