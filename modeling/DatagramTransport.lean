import DatagramTransport.Link
import DatagramTransport.Proofs.Listener.Sessions
import DatagramTransport.Proofs.AckWindow
import DatagramTransport.Proofs.Channel.Layout
import DatagramTransport.Proofs.Channel.Prepared
import DatagramTransport.Proofs.Connection.Emission
import DatagramTransport.Proofs.Connection.Sending
import DatagramTransport.Proofs.Connection.Receiving
import DatagramTransport.Proofs.Link.Run
import DatagramTransport.Proofs.Link.Ends
import DatagramTransport.Proofs.Link.Custody
import DatagramTransport.Proofs.Flow
import DatagramTransport.Proofs.Link.Repetition
import DatagramTransport.Proofs.Channel.Bundle
import DatagramTransport.Proofs.Channel.Sequence
import DatagramTransport.Proofs.Connection.Room
import DatagramTransport.Proofs.Link.Exchange
import DatagramTransport.Proofs.Link.Wrap
import DatagramTransport.Proofs.Channel.Assembly
import DatagramTransport.Proofs.Channel.InStep
import DatagramTransport.Proofs.Link.Stream
import DatagramTransport.Proofs.Link.Recovery
import DatagramTransport.Proofs.Channel.Repeats
import DatagramTransport.Proofs.Connection.Calls
import DatagramTransport.Proofs.Listener.Ids
import DatagramTransport.Proofs.AckHistory
import DatagramTransport.Proofs.Connection.Frames
import DatagramTransport.Proofs.Link.Leftover
import DatagramTransport.Proofs.Listener.LifeCycle
import DatagramTransport.Proofs.Channel.Newest
import DatagramTransport.Proofs.Connection.DatagramLength
import DatagramTransport.Proofs.Connection.Trace
import DatagramTransport.Proofs.Listener.Isolation
import DatagramTransport.Proofs.Channel.Grammar
import DatagramTransport.Proofs.Connection.Atomic
import DatagramTransport.Proofs.Connection.Report
import DatagramTransport.Proofs.Channel.FirstCycle
import DatagramTransport.Proofs.IdHistory
import DatagramTransport.Proofs.Channel.OpenMessages
import DatagramTransport.Proofs.Channel.Release
