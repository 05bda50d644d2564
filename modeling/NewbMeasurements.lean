import NewbMeasurements.Library.Transitions
import NewbMeasurements.Library.Datagrams
import NewbMeasurements.Library.Words
import NewbMeasurements.Library.ByteStreams
import NewbMeasurements.Library.Chunks
import NewbMeasurements.Library.Tickets
import NewbMeasurements.Library.Reordering
import NewbMeasurements.Library.Blocks
import NewbMeasurements.Actors
import NewbMeasurements.PingpongUdp
import NewbMeasurements.PingpongTcp
import NewbMeasurements.Exchange
import NewbMeasurements.UdpSystem
import NewbMeasurements.UdpSafety
import NewbMeasurements.UdpProgress
import NewbMeasurements.TcpSystem
import NewbMeasurements.TcpLockstep
import NewbMeasurements.TcpSegmentation
import NewbMeasurements.Termination
import NewbMeasurements.PpTcpPure
import NewbMeasurements.EchoServer
import NewbMeasurements.SameWork
import NewbMeasurements.ClientSystem
import NewbMeasurements.Notices
import NewbMeasurements.Layers
import NewbMeasurements.WriteSessions
import NewbMeasurements.Schedules
import NewbMeasurements.Draining
import NewbMeasurements.SequenceNumbers
import NewbMeasurements.NewbOrdering
import NewbMeasurements.OrderingBenchmarks
import NewbMeasurements.Protocols
import NewbMeasurements.Framing
import NewbMeasurements.LayerLaws
import NewbMeasurements.ReliableLink
import NewbMeasurements.StackSystem
import NewbMeasurements.StackSafety
import NewbMeasurements.StackProgress
import NewbMeasurements.StackExhaustion
import NewbMeasurements.PpTcpProgress
import NewbMeasurements.LayerBenchmarks
import NewbMeasurements.TcpTransport
import NewbMeasurements.TcpLink
import NewbMeasurements.Library.ReorderRuns
import NewbMeasurements.OrderingRuns
import NewbMeasurements.ReadPolicies
