import B2p.Lib.Prog
import B2p.Lib.Interleave
import B2p.Lib.Runs
import B2p.Lib.Duplex
import B2p.Lib.Stages
import B2p.Lib.Blocks
import B2p.Lib.Tiling
import B2p.Lib.SortedSet
import B2p.Lib.Pieces
import B2p.Lib.Text
import B2p.Lib.Delimited
import B2p.Lib.Base58
import B2p.Crypto
import B2p.Protocol
import B2p.Protocol.Runs
import B2p.External
import B2p.Fs
import B2p.Store
import B2p.Store.Spec
import B2p.Store.Crash
import B2p.Store.Uploads
import B2p.Handshake
import B2p.Handshake.Agreement
import B2p.Webrtc.Signaling
import B2p.Webrtc.Trickle
import B2p.Webrtc.Peers
import B2p.Webrtc.Channel
import B2p.Stream
import B2p.Staging
import B2p.Stream.Spec
import B2p.Stream.Session
import B2p.Stream.Resume
import B2p.Tunnel.Send
import B2p.Tunnel.Spec
import B2p.Tunnel.Nonces
import B2p.Tunnel.Server
import B2p.Tunnel.Session
import B2p.Relay.Room
import B2p.Relay.Routing
import B2p.Relay.Departure
import B2p.Relay.Frames
import B2p.Relay.Grammar
import B2p.Relay.Channel
import B2p.Relay.Direction
import B2p.Relay.Fifo
import B2p.Relay.Window
import B2p.Relay.Progress
import B2p.RvCode
import B2p.RvCode.Spellings
import B2p.Config
import B2p.Config.Sources
import B2p.Stun
import B2p.Archive
import B2p.Archive.Fingerprint
import B2p.Receive
import B2p.Stream.Outcome
import B2p.Stream.Retry
import B2p.Session
import B2p.Session.Calls
import B2p.Session.Whole
import B2p.Session.Stack
import B2p.Session.Progress
import B2p.Stream.Nonces
import B2p.Stream.Integrity
import B2p.Stream.Order
import B2p.Relay.Waiting
import B2p.Relay.Shutdown
import B2p.Relay.Takeover
import B2p.Relay.Standby
import B2p.Relay.Intrusion
import B2p.Lib.Rely
import B2p.Tunnel.Requests
import B2p.Tunnel.Directories
import B2p.Tunnel.Handlers
import B2p.Tunnel.Commit
import B2p.Tunnel.Panics
import B2p.Geometry
import B2p.Tunnel.Edge
import B2p.Tunnel.Retry
import B2p.Tunnel.Recovery
import B2p.Tunnel.Delivery
import B2p.Confinement
