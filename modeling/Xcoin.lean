import Xcoin.Lib.Runs
import Xcoin.Lib.StdMaps
import Xcoin.Lib.Positions
import Xcoin.Lib.Chase
import Xcoin.Lib.Walks
import Xcoin.Lib.Closure
import Xcoin.Lib.Connectivity
import Xcoin.Lib.Choices
import Xcoin.Lib.Flooding
import Xcoin.Lib.Archives
import Xcoin.Lib.Bytes
import Xcoin.Lib.Decimal
import Xcoin.Lib.TextTokens
import Xcoin.Lib.Lines
import Xcoin.Lib.Results
import Xcoin.Lib.Extraction
import Xcoin.Lib.Readers
import Xcoin.Blocks.Block
import Xcoin.Blocks.Chain
import Xcoin.Blocks.Growth
import Xcoin.Blocks.Tree
import Xcoin.Blocks.History
import Xcoin.Blocks.Links
import Xcoin.Blocks.Agreement
import Xcoin.Blocks.HeaderText
import Xcoin.Blocks.HexDigits
import Xcoin.Node.Orphans
import Xcoin.Node.Node
import Xcoin.Node.Cascade
import Xcoin.Node.Reception
import Xcoin.Node.Delivery
import Xcoin.Node.BestChain
import Xcoin.Node.Index
import Xcoin.Node.OrderIndependence
import Xcoin.Node.Descendants
import Xcoin.Node.Mining
import Xcoin.Node.Forks
import Xcoin.Node.Stranded
import Xcoin.Network.Heights
import Xcoin.Network.Convergence
import Xcoin.Ping.Flood
import Xcoin.Ping.Hops
import Xcoin.Ping.Counting
import Xcoin.Ping.Rounds
import Xcoin.Receive.Client
import Xcoin.Receive.Framing
import Xcoin.Receive.PingText
import Xcoin.Receive.Copying
import Xcoin.Receive.Alignment
import Xcoin.Receive.Isolation
import Xcoin.Receive.UnknownType
import Xcoin.Receive.Relaying
import Xcoin.Receive.HeaderCodec
import Xcoin.Receive.FrameSize
import Xcoin.Receive.Accounting
import Xcoin.Receive.Completion
import Xcoin.Receive.Skimming
import Xcoin.Receive.Streams
import Xcoin.Relay.BlockStream
import Xcoin.Clients.Outgoing
import Xcoin.Clients.Incoming
import Xcoin.Topology.Generate
import Xcoin.Topology.Connect
import Xcoin.Topology.Degrees
import Xcoin.Topology.Bounds
import Xcoin.Config.Integers
import Xcoin.Config.NodeData
import Xcoin.Config.ParseConfig
import Xcoin.Config.RoundTrip
import Xcoin.Config.Sections
import Xcoin.Config.Settings
import Xcoin.Config.Toml
import Xcoin.Experiment.Launch
import Xcoin.Experiment.ParseLog
import Xcoin.Experiment.Report
import Xcoin.Experiment.Wiring
import Xcoin.Experiment.Outcome
