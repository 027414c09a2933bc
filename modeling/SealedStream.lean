import SealedStream.CommandLine.Machine
import SealedStream.Main
import SealedStream.Proofs.Step
import SealedStream.Proofs.Bytes
import SealedStream.Proofs.Field.Reader
import SealedStream.Proofs.Field.Writer
import SealedStream.Proofs.Field.Sequence
import SealedStream.Proofs.Field.ReaderCalls
import SealedStream.Proofs.Field.WriterCalls
import SealedStream.Proofs.AssociatedData
import SealedStream.Proofs.Frame
import SealedStream.Proofs.Aead
import SealedStream.Proofs.ChunkReader
import SealedStream.Proofs.Decryptor
import SealedStream.Proofs.FramedPass
import SealedStream.Proofs.Acceptance
import SealedStream.Proofs.Sealing
import SealedStream.Proofs.Encryptor
import SealedStream.Proofs.Signature
import SealedStream.Proofs.TagInput
import SealedStream.Proofs.ChainIntegrity
import SealedStream.Proofs.Pipeline
import SealedStream.Proofs.Decryption
import SealedStream.Proofs.PrefixFree
import SealedStream.Proofs.Encryption
import SealedStream.Proofs.RoundTrip
import SealedStream.Proofs.Release
import SealedStream.Proofs.InTurn
import SealedStream.Proofs.Trace
import SealedStream.Proofs.PassOutput
import SealedStream.Proofs.Schedule
import SealedStream.Proofs.ChangingSettings
import SealedStream.Proofs.LoopCount
import SealedStream.Proofs.Recorded
import SealedStream.Proofs.Composition
import SealedStream.Proofs.Cause
import SealedStream.Proofs.EncryptionFaults
import SealedStream.Proofs.Questions
import SealedStream.Proofs.FirstFault
import SealedStream.Proofs.Noted
import SealedStream.Proofs.Orderly
import SealedStream.Proofs.Representation
import SealedStream.Proofs.SignedMessage
import SealedStream.Proofs.Ledger
import SealedStream.Proofs.LedgerRules
import SealedStream.Proofs.NextBlock
import SealedStream.Proofs.Attempts
import SealedStream.Proofs.Draws
import SealedStream.Proofs.Demand
import SealedStream.Proofs.Pulls
import SealedStream.Proofs.Calls
import SealedStream.Proofs.EncryptorRepresentation
import SealedStream.Proofs.Metadata
import SealedStream.Proofs.Parts
import SealedStream.Proofs.Unwrapping
import SealedStream.Proofs.Delivery
import SealedStream.Proofs.Bound
import SealedStream.Proofs.CommandLine.Action
import SealedStream.Proofs.CommandLine.Files
import SealedStream.Proofs.CommandLine.Requests
import SealedStream.Proofs.CommandLine.Output
import SealedStream.Proofs.CommandLine.Session
import SealedStream.Proofs.CommandLine.Writing
import SealedStream.Proofs.Text.Base64Url
import SealedStream.Proofs.CommandLine.Processing
import SealedStream.Proofs.CommandLine.InputContent
import SealedStream.Proofs.CommandLine.RoundTrip
import SealedStream.Proofs.Hint
