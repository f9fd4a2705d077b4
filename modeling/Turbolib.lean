import Turbolib.Critbit.ByteCounter
import Turbolib.Critbit.Map
import Turbolib.Critbit.Prefix
import Turbolib.Merkle.Reconcile
import Turbolib.Merkle.Top
import Turbolib.Merkle.Lookup
import Turbolib.Merkle.Resolve
import Turbolib.Merkle.Progress
import Turbolib.Merkle.HeapHashes
import Turbolib.VectorClock.Supersede
import Turbolib.VectorClock.Forward
import Turbolib.VectorClock.PartialOrder
import Turbolib.VectorClock.Absorb
import Turbolib.VectorClock.Causality
import Turbolib.HashRing.CircularWalk
import Turbolib.HashRing.Membership
import Turbolib.Kademlia.Random
import Turbolib.Concurrent.StopWakes
import Turbolib.Concurrent.TaskLedger
import Turbolib.Concurrent.PoolRestart
import Turbolib.Concurrent.Deadlines
import Turbolib.Concurrent.DeadlineWakes
import Turbolib.Http.Interference
import Turbolib.Socket.LiveHandles
import Turbolib.Socket.KeptHandles
import Turbolib.Http.Query
import Turbolib.Http.Components
import Turbolib.Http.Framing
import Turbolib.File.ConfigFile
import Turbolib.File.CrashSafety
import Turbolib.Serialize.SerializeMap
import Turbolib.Serialize.Base64Order
import Turbolib.Critbit.Walks
import Turbolib.Socket.SocketAddress
import Turbolib.Socket.StringByteStream
import Turbolib.Http.ShortWrites
