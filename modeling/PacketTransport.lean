import PacketTransport.Config.FileTree
import PacketTransport.Main
import PacketTransport.Memory.Pools
import PacketTransport.Memory.Shares
import PacketTransport.Proofs.Ring.Refinement
import PacketTransport.Proofs.Wire.Pipeline
import PacketTransport.Proofs.Wire.Unpacking
import PacketTransport.Proofs.Wire.Agreeing
import PacketTransport.Proofs.Wire.Rereading
import PacketTransport.Proofs.Ring.Accesses
import PacketTransport.Proofs.Ring.Fates
import PacketTransport.Proofs.Ring.Occupancy
import PacketTransport.Proofs.Wire.Accepting
import PacketTransport.Proofs.Wire.Feeding
import PacketTransport.Proofs.Link.Arrivals
import PacketTransport.Proofs.Ring.Writing
import PacketTransport.Proofs.Link.Batches
import PacketTransport.Proofs.Buffer.Surfaces
import PacketTransport.Proofs.Deflate.Portions
import PacketTransport.Proofs.Deflate.Limits
import PacketTransport.Proofs.Memory.Apart
import PacketTransport.Proofs.Memory.Homes
import PacketTransport.Proofs.Cipher.Sessions
import PacketTransport.Proofs.Ring.Reclaiming
import PacketTransport.Proofs.Link.Holding
import PacketTransport.Proofs.Wire.Contents
import PacketTransport.Proofs.Wire.Emitting
import PacketTransport.Proofs.Link.Reads
import PacketTransport.Proofs.Link.Delivery
import PacketTransport.Proofs.Memory.Deeds
import PacketTransport.Proofs.Memory.Supply
import PacketTransport.Proofs.Memory.Paging
import PacketTransport.Proofs.Memory.Stashes
import PacketTransport.Proofs.Config.Ranges
import PacketTransport.Proofs.Deflate.Draining
import PacketTransport.Proofs.Deflate.Continuing
import PacketTransport.Proofs.Buffer.Bounds
import PacketTransport.Proofs.Varint.Shortest
import PacketTransport.Proofs.Buffer.Overrun
import PacketTransport.Proofs.Buffer.Cutting
import PacketTransport.Proofs.Link.Gathering
import PacketTransport.Proofs.Deflate.Looping
import PacketTransport.Proofs.Ring.Footprint
import PacketTransport.Proofs.Config.Naming
import PacketTransport.Proofs.Config.Numerals
import PacketTransport.Proofs.Memory.Carving
import PacketTransport.Proofs.Config.Secrets
