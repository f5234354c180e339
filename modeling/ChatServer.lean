import ChatServer.CStr
import ChatServer.TextLines
import ChatServer.Prog
import ChatServer.Interleave
import ChatServer.RingBuffer
import ChatServer.Common
import ChatServer.Protocol
import ChatServer.ProtocolSound
import ChatServer.Framing
import ChatServer.FramingSound
import ChatServer.Replies
import ChatServer.Registry
import ChatServer.RegistrySound
import ChatServer.Traversal
import ChatServer.Queue
import ChatServer.Events
import ChatServer.Auth
import ChatServer.Rooms
import ChatServer.Server
import ChatServer.Commands
import ChatServer.Sending
import ChatServer.Broadcast
import ChatServer.RoomsSound
import ChatServer.Display
import ChatServer.Threads
import ChatServer.Smuggling
import ChatServer.Casting
import ChatServer.Sessions
import ChatServer.SessionsSound
import ChatServer.CommandsSound
import ChatServer.ThreadsSound
import ChatServer.Stages
import ChatServer.StagesSound
import ChatServer.CommandStages
import ChatServer.ThreadStages
import ChatServer.Agreement
import ChatServer.Acks
import ChatServer.Identity
import ChatServer.Delivery
import ChatServer.Tearing
import ChatServer.Feed
import ChatServer.FanOut
import ChatServer.Ordering
import ChatServer.Joining
import ChatServer.Visits
import ChatServer.Presence
import ChatServer.RoomsApart
import ChatServer.Separators
import ChatServer.Forgery
import ChatServer.Accounts
import ChatServer.LinkedList
import ChatServer.MqNodes
import ChatServer.Monitor
import ChatServer.Wakeups
import ChatServer.UserList
import ChatServer.Routine
import ChatServer.Rights
import ChatServer.Draining
import ChatServer.Accounting
import ChatServer.Mutexes
import ChatServer.LocksSound
import ChatServer.PartialWrites
import ChatServer.RequestGrammar
import ChatServer.NameLists
import ChatServer.CutLines
import ChatServer.RoomStore
import ChatServer.RegistryMap
import ChatServer.UserFile
import ChatServer.Typing
import ChatServer.Teardown
import ChatServer.Client
import ChatServer.WholeSends
import ChatServer.PeerReads
import ChatServer.Hearing
import ChatServer.ClientSessions
import ChatServer.ChatRoom
import ChatServer.Refinement
import ChatServer.Work
import ChatServer.Confinement
import ChatServer.Hearsay
import ChatServer.BroadcastWork
import ChatServer.HeadLists
import ChatServer.NodeRegistry
import ChatServer.NodeStores
import ChatServer.Keyboard
import ChatServer.EndToEnd
import ChatServer.Screen
import ChatServer.ClientThreads
import ChatServer.ClientThreadsSound
import ChatServer.ClientLifetime
import ChatServer.ClientSafety
import ChatServer.ClientRounds
