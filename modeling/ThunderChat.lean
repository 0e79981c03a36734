import ThunderChat.Foundation.Loop
import ThunderChat.Foundation.RingIndex
import ThunderChat.CircularBuff.Basic
import ThunderChat.CircularBuff.Fifo
import ThunderChat.CircularBuff.Cells
import ThunderChat.CircularBuff.Oneshot
import ThunderChat.CircularBuff.Resize
import ThunderChat.Client.ChatUser
import ThunderChat.Client.ClientChatServer
import ThunderChat.Foundation.Framing
import ThunderChat.Thread.Receiver
import ThunderChat.Thread.Worker
import ThunderChat.Thread.Passes
import ThunderChat.Thread.RingReceiver
import ThunderChat.Thread.RingWorker
import ThunderChat.Bounds
import ThunderChat.Foundation.Transition
import ThunderChat.Foundation.Traversal
import ThunderChat.Foundation.WorkPool
import ThunderChat.Properties.Flush
import ThunderChat.Properties.Isolation
import ThunderChat.Properties.Load
import ThunderChat.Properties.Values
import ThunderChat.Relay.Agreement
import ThunderChat.Relay.Delivery
import ThunderChat.Relay.Encoder
import ThunderChat.Relay.ManagerLink
import ThunderChat.Relay.Origin
import ThunderChat.CircularQueue
import ThunderChat.CircularQueue.Waiting
import ThunderChat.Foundation.Progress
import ThunderChat.CircularQueue.Network
import ThunderChat.CircularQueue.Ledger
import ThunderChat.Foundation.Custody
import ThunderChat.Foundation.Handover
import ThunderChat.Foundation.Roster
import ThunderChat.Process.Supervision
import ThunderChat.Relay.Storm
import ThunderChat.Server.Accounting
import ThunderChat.Server.Broadcast
import ThunderChat.Server.BroadcastOrder
import ThunderChat.Server.BroadcastStream
import ThunderChat.Server.BroadcastTargets
import ThunderChat.Server.ClosedOnce
import ThunderChat.Server.Handshake
import ThunderChat.Server.HealthCheck
import ThunderChat.Server.ManagerFrame
import ThunderChat.Server.ManagerOwnership
import ThunderChat.Server.ManagerRelay
import ThunderChat.Server.ManagerRelayOrder
import ThunderChat.Server.ManagerSockets
import ThunderChat.Server.Split
import ThunderChat.Server.Pipeline
import ThunderChat.Server.ServerInfo
import ThunderChat.Server.ServerInfoMgr
