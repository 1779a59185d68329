import MuxProtocol.Proofs.Auth
import MuxProtocol.Proofs.AuthGate
import MuxProtocol.Proofs.Balance
import MuxProtocol.Proofs.Buf
import MuxProtocol.Proofs.Buffers
import MuxProtocol.Proofs.Ceiling
import MuxProtocol.Proofs.Echo
import MuxProtocol.Proofs.HalfClose
import MuxProtocol.Proofs.Honest
import MuxProtocol.Proofs.Keepalive
import MuxProtocol.Proofs.QueueBound
import MuxProtocol.Proofs.ReadLoops
import MuxProtocol.Proofs.Readiness
import MuxProtocol.Proofs.RelayCap
import MuxProtocol.Proofs.RelayPoll
import MuxProtocol.Proofs.RelaySlab
import MuxProtocol.Proofs.TableMap
import MuxProtocol.Proofs.Terminal
import MuxProtocol.Proofs.TornDown
import MuxProtocol.Proofs.Umap
import MuxProtocol.Proofs.WritePath
import MuxProtocol.Proofs.Wrap
import MuxProtocol.Proofs.WriteSpec
