import ThresholdMask.Data.Records
import ThresholdMask.Data.Values
import ThresholdMask.Field.Encoding
import ThresholdMask.Field.Power
import ThresholdMask.Field.SafePrime
import ThresholdMask.Masker.Masking
import ThresholdMask.Masker.Unmasking
import ThresholdMask.PartyJar
import ThresholdMask.Random.ByteStream
import ThresholdMask.Roster.Fingerprint
import ThresholdMask.Settings.Search
import ThresholdMask.Proofs.Interpolation
import ThresholdMask.Proofs.Outcomes
import ThresholdMask.Proofs.Reconstruction
import ThresholdMask.Proofs.Coherence
import ThresholdMask.Proofs.Combining
import ThresholdMask.Proofs.Opening
import ThresholdMask.Proofs.Dealing
import ThresholdMask.Proofs.RoundTrip
import ThresholdMask.Proofs.Coupling
import ThresholdMask.Proofs.Outlines
import ThresholdMask.Proofs.Secrecy
import ThresholdMask.Proofs.Verdict
import ThresholdMask.Proofs.Agreement
import ThresholdMask.Proofs.Remasking
import ThresholdMask.Proofs.Guards
import ThresholdMask.Proofs.GuardedUnmasking
import ThresholdMask.Proofs.Failures
import ThresholdMask.Proofs.VisitOrders
import ThresholdMask.Proofs.InsertionOrder
import ThresholdMask.Proofs.Recovery
import ThresholdMask.Proofs.Privacy
import ThresholdMask.Proofs.Ownership
import ThresholdMask.Proofs.JarHistory
import ThresholdMask.Proofs.Blame
import ThresholdMask.Proofs.ReadingBack
import ThresholdMask.Proofs.FirstOffence
import ThresholdMask.Proofs.ColumnMasking
import ThresholdMask.Proofs.Mirroring
import ThresholdMask.Proofs.Drawing
import ThresholdMask.Proofs.Storage
import ThresholdMask.Proofs.ClearValues
import ThresholdMask.Proofs.LateRefusal
import ThresholdMask.Proofs.Alteration
import ThresholdMask.Proofs.EvaluationPoints
import ThresholdMask.Proofs.Locality
import ThresholdMask.Proofs.NameSets
import ThresholdMask.Proofs.HexText
import ThresholdMask.Proofs.Admission
import ThresholdMask.Proofs.WritingBack
import ThresholdMask.Proofs.FiniteMaps
import ThresholdMask.Proofs.Arithmetic
import ThresholdMask.Proofs.SignedResidues
import ThresholdMask.Proofs.ByteCodecs
import ThresholdMask.Proofs.InterpolatingPolynomial
