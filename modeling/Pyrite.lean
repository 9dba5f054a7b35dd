import Pyrite.Wire.Bytes
import Pyrite.Nbt.Tag
import Pyrite.Nbt.Write
import Pyrite.Nbt.Read
import Pyrite.Nbt.Fields
import Pyrite.Nbt.Invariant
import Pyrite.Nbt.Canonical
import Pyrite.Nbt.RoundTrip
import Pyrite.Nbt.Document
import Pyrite.Protocol.Varint
import Pyrite.Protocol.Buf
import Pyrite.Protocol.Codec
import Pyrite.Protocol.Framing
import Pyrite.Protocol.Stream
import Pyrite.Net.Connection
import Pyrite.Net.Run
import Pyrite.Net.Login
import Pyrite.Nbt.Limits
import Pyrite.Net.Bodies
import Pyrite.Protocol.RoundTrip
import Pyrite.Wire.Partial
import Pyrite.Net.Noise
import Pyrite.Nbt.ReadRecursion
import Pyrite.Nbt.Truncation
import Pyrite.Nbt.WriteRecursion
import Pyrite.Net.Identity
import Pyrite.Net.Readable
import Pyrite.Net.Serve
import Pyrite.Nbt.Compound
import Pyrite.Protocol.Text
import Pyrite.Protocol.Inflate
import Pyrite.Protocol.Reuse
import Pyrite.Wire.Reactor
import Pyrite.Wire.Duplex
import Pyrite.Protocol.Framed
import Pyrite.Net.Transport
import Pyrite.Net.Client
import Pyrite.Wire.Interrupt
import Pyrite.Net.Conversation
import Pyrite.Net.Exchange
import Pyrite.Net.Drain
import Pyrite.Net.Hub
import Pyrite.Net.Suspended
import Pyrite.Net.Language
import Pyrite.Wire.Delimited
import Pyrite.Nbt.Unique
import Pyrite.Nbt.Size
import Pyrite.Server.Startup
import Pyrite.Wire.Deadline
import Pyrite.Net.Slow
import Pyrite.Protocol.NbtField
import Pyrite.Net.World
import Pyrite.Net.Capacity
import Pyrite.Protocol.Reserve
import Pyrite.Net.Memory
