import SimpleOprf.Basis.Loops
import SimpleOprf.Basis.Outcome
import SimpleOprf.Basis.Inbox
import SimpleOprf.Basis.LittleEndian
import SimpleOprf.Basis.Reader
import SimpleOprf.Basis.InBounds
import SimpleOprf.Basis.HashTree
import SimpleOprf.Basis.Interleaving
import SimpleOprf.Basis.ForkJoin
import SimpleOprf.Basis.Aes128
import SimpleOprf.Basis.Duplex
import SimpleOprf.Basis.Rows
import SimpleOprf.Basis.Filling
import SimpleOprf.Basis.RingBuffer
import SimpleOprf.Basis.Sha256
import SimpleOprf.Basis.TwoShares
import SimpleOprf.Basis.Words
import SimpleOprf.Basis.Vectors
import SimpleOprf.Basis.BinaryPolynomial
import SimpleOprf.Basis.TextStream
import SimpleOprf.Tools.FlexBuffer
import SimpleOprf.Tools.WaitQueue
import SimpleOprf.Tools.OctetStream
import SimpleOprf.Garbling.HalfGate
import SimpleOprf.Garbling.Circuit
import SimpleOprf.GcMmo.Block
import SimpleOprf.GcMmo.PortableAes
import SimpleOprf.GcMmo.Bits
import SimpleOprf.GcMmo.Circuit
import SimpleOprf.GcMmo.Garble
import SimpleOprf.GcMmo.Refinement
import SimpleOprf.GcMmo.Correctness
import SimpleOprf.GcMmo.AesNi
import SimpleOprf.GcMmo.Bristol
import SimpleOprf.GcMmo.Merkle
import SimpleOprf.GcMmo.Printing
import SimpleOprf.GcMmo.WireBounds
import SimpleOprf.GcMmo.LoadedCircuit
import SimpleOprf.PlaintextOprf
import SimpleOprf.VoprfSer
import SimpleOprf.VoprfSer.TableBlob
import SimpleOprf.ProbeResilient
import SimpleOprf.ProbeResilient.Probes
import SimpleOprf.StarkGarble.Field
import SimpleOprf.StarkGarble.Witness
import SimpleOprf.StarkGarble.Bits
import SimpleOprf.StarkGarble.AcceptedGates
import SimpleOprf.StarkGarble.RowMeaning
import SimpleOprf.StarkGarble.Air
import SimpleOprf.StarkGarble.Prove
import SimpleOprf.StarkGarble.Soundness
import SimpleOprf.StarkGarble.Trace
import SimpleOprf.StarkGarble.HashedTables
import SimpleOprf.StarkGarble.ProofFile
import SimpleOprf.StarkGarble.HeaderBinding
import SimpleOprf.StarkGarble.HonestWitness
import SimpleOprf.Gf2n.Multiplication
import SimpleOprf.BaseOt.Kyber
import SimpleOprf.BaseOt.ExecBase
import SimpleOprf.BaseOt.PacketSizes
import SimpleOprf.BaseOt.Batch
import SimpleOprf.OtExtension.BitMatrix
import SimpleOprf.OtExtension.Transpose
import SimpleOprf.OtExtension.Correlated
import SimpleOprf.OtExtension.CorrelationCheck
import SimpleOprf.OtExtension.RandomOt
import SimpleOprf.Basis.Negacyclic
import SimpleOprf.Kyber.Reduce
import SimpleOprf.Kyber.Packing
import SimpleOprf.Kyber.Rounding
import SimpleOprf.Kyber.Indcpa
import SimpleOprf.Kyber.Transfer
import SimpleOprf.VoprfE2e.Channel
import SimpleOprf.VoprfE2e.Server
import SimpleOprf.VoprfE2e.Client
import SimpleOprf.VoprfE2e.Transmission
import SimpleOprf.VoprfE2e.Reception
import SimpleOprf.VoprfE2e.Verdict
import SimpleOprf.VoprfE2e.ProofFormat
import SimpleOprf.VoprfE2e.EvaluationBounds
import SimpleOprf.VoprfE2e.Adversary
import SimpleOprf.VoprfE2e.Robustness
import SimpleOprf.VoprfE2e.HonestServer
import SimpleOprf.VoprfE2e.Integrity
import SimpleOprf.VoprfE2e.KeyExtraction
import SimpleOprf.VoprfE2e.LabelCounting
import SimpleOprf.VoprfE2e.ProbedChoices
import SimpleOprf.VoprfE2e.Session
import SimpleOprf.VoprfE2e.BatchBinding
import SimpleOprf.VoprfE2e.LabelBinding
import SimpleOprf.Yao.SecretSharing
import SimpleOprf.Yao.SecretRecovery
import SimpleOprf.Yao.Commitment
import SimpleOprf.Yao.Reconstruction
import SimpleOprf.Yao.Secrecy
import SimpleOprf.Yao.Key
import SimpleOprf.Yao.HalfGate
import SimpleOprf.Yao.Common
import SimpleOprf.Yao.Instructions
import SimpleOprf.Yao.Jobs
import SimpleOprf.Yao.Splits
import SimpleOprf.Yao.Agreement
import SimpleOprf.Yao.Threads
import SimpleOprf.Yao.Reveal
import SimpleOprf.Yao.Segments
import SimpleOprf.Yao.LockStep
import SimpleOprf.Yao.Deadlock
import SimpleOprf.Yao.Tweaks
import SimpleOprf.Yao.Inputs
import SimpleOprf.Yao.InputTransfer
import SimpleOprf.Yao.Registers
import SimpleOprf.Yao.InputRegisters
import SimpleOprf.Yao.Workers
import SimpleOprf.Yao.WorkerRuns
import SimpleOprf.Yao.Program
