import SegmentRouting.Deployment
import SegmentRouting.Http.Api
import SegmentRouting.Proofs.ConsumingSource
import SegmentRouting.Proofs.Registry.Cancellation
import SegmentRouting.Proofs.Http.LastViews
import SegmentRouting.Proofs.LevelPick
import SegmentRouting.Proofs.Flush
import SegmentRouting.Proofs.PeakLoad
import SegmentRouting.Proofs.ClosedForm
import SegmentRouting.Proofs.Registry.Isolation
import SegmentRouting.Proofs.WordShares
import SegmentRouting.Proofs.ChosenDraws
import SegmentRouting.Proofs.FullReplication
import SegmentRouting.Proofs.Json.RoundTrip
import SegmentRouting.Proofs.Wire.RoundTrip
import SegmentRouting.Proofs.Http.Spelling
import SegmentRouting.Proofs.Http.WirePath
import SegmentRouting.Proofs.SizeClasses
import SegmentRouting.Proofs.Agreement
import SegmentRouting.Proofs.OnePartition
import SegmentRouting.Proofs.AcceptedOptions
import SegmentRouting.Proofs.SettingsInForce
import SegmentRouting.Proofs.BuildSummary
import SegmentRouting.Proofs.CheckedAssignment
