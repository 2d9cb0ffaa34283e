import Coalesce.Aes
import Coalesce.AesPermutation
import Coalesce.AesStandard
import Coalesce.Base64
import Coalesce.Base64Acceptance
import Coalesce.Base64Canonical
import Coalesce.Base64Decode
import Coalesce.Base64RoundTrip
import Coalesce.BasePoint
import Coalesce.Buffer
import Coalesce.BufferBytes
import Coalesce.BufferGrowth
import Coalesce.BufferLimits
import Coalesce.BufferReaders
import Coalesce.BufferRun
import Coalesce.BufferWriters
import Coalesce.CanonicalField
import Coalesce.CheckedAes
import Coalesce.CheckedField
import Coalesce.CheckedIdent
import Coalesce.ClearPhase
import Coalesce.ClientRun
import Coalesce.Codec
import Coalesce.CommandLine
import Coalesce.CounterMode
import Coalesce.CounterStream
import Coalesce.Curve25519
import Coalesce.Decompression
import Coalesce.Demands
import Coalesce.Ed25519
import Coalesce.Edwards25519
import Coalesce.ExactEd25519
import Coalesce.ExactField
import Coalesce.ExactGroup
import Coalesce.ExactX25519
import Coalesce.FailedReads
import Coalesce.FailedWrites
import Coalesce.Field25519
import Coalesce.FieldArithmetic
import Coalesce.FieldBytes
import Coalesce.FieldInPlace
import Coalesce.FieldPower
import Coalesce.Fragmentation
import Coalesce.GroupArithmetic
import Coalesce.GroupBytes
import Coalesce.HostileStream
import Coalesce.Ident
import Coalesce.IdentExchange
import Coalesce.IdentGrammar
import Coalesce.IdentScan
import Coalesce.Kex
import Coalesce.KexAgreement
import Coalesce.KexChoice
import Coalesce.KexDecode
import Coalesce.KexDefault
import Coalesce.KexRefusals
import Coalesce.KexTransport
import Coalesce.KeyDerivation
import Coalesce.KeyGeneration
import Coalesce.KeyInstall
import Coalesce.KeySeparation
import Coalesce.KeystreamUse
import Coalesce.Layers
import Coalesce.Library.BitLoop
import Coalesce.Library.BlockHash
import Coalesce.Library.ByteField
import Coalesce.Library.ByteNumber
import Coalesce.Library.CallCost
import Coalesce.Library.CallResult
import Coalesce.Library.CheckedRun
import Coalesce.Library.CheckedWord
import Coalesce.Library.Collect
import Coalesce.Library.EdwardsCurve
import Coalesce.Library.ExtendedCoordinates
import Coalesce.Library.Fips197
import Coalesce.Library.KeyExpansion
import Coalesce.Library.Keystream
import Coalesce.Library.LadderCurve
import Coalesce.Library.Lockstep
import Coalesce.Library.MontgomeryLadder
import Coalesce.Library.PointCompression
import Coalesce.Library.PrattCertificate
import Coalesce.Library.RadixDigits
import Coalesce.Library.RelatedCalls
import Coalesce.Library.SchnorrExtraction
import Coalesce.Library.Sha2
import Coalesce.Library.StreamPair
import Coalesce.Library.TwosComplement
import Coalesce.Library.WordBytes
import Coalesce.LowOrder
import Coalesce.Malleable
import Coalesce.MpintForm
import Coalesce.Net
import Coalesce.Packet
import Coalesce.PacketReceive
import Coalesce.PacketSend
import Coalesce.PointEncoding
import Coalesce.Primes25519
import Coalesce.Program
import Coalesce.ProgramCalls
import Coalesce.ProgramPair
import Coalesce.Rand
import Coalesce.Rekey
import Coalesce.SameNonce
import Coalesce.Scalar25519
import Coalesce.ScalarProduct
import Coalesce.SendRun
import Coalesce.ServerRun
import Coalesce.Session
import Coalesce.SessionAuthentic
import Coalesce.SessionDeliver
import Coalesce.SessionExchange
import Coalesce.SessionFrame
import Coalesce.SessionNetwork
import Coalesce.SessionReceive
import Coalesce.SessionRun
import Coalesce.SessionSend
import Coalesce.Sha256
import Coalesce.Sha512
import Coalesce.ShaBlock
import Coalesce.ShaStreaming
import Coalesce.SharedChannel
import Coalesce.Signature
import Coalesce.SignatureCheck
import Coalesce.Target
import Coalesce.ValidPoint
import Coalesce.X25519
