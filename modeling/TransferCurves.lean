import TransferCurves.Attenuation
import TransferCurves.PresetCatalog
import TransferCurves.RangeController
import TransferCurves.SharedFunction
import TransferCurves.Overrides
import TransferCurves.Message
import TransferCurves.Json.Stored
import TransferCurves.Scalar.Rational
import TransferCurves.Proofs.DragSession
import TransferCurves.Proofs.Freshness
import TransferCurves.Proofs.Rescaling
import TransferCurves.Proofs.Refusal
import TransferCurves.Proofs.Hull
import TransferCurves.Proofs.Monotonicity
import TransferCurves.Proofs.TableAccuracy
import TransferCurves.Proofs.StoredOrder
import TransferCurves.Proofs.Revision
import TransferCurves.Proofs.Subscriptions
import TransferCurves.Proofs.Binary64Decoding
import TransferCurves.Proofs.Binary64Difference
import TransferCurves.Proofs.Accounting
import TransferCurves.Proofs.MirroredSegment
import TransferCurves.Proofs.SegmentSearch
import TransferCurves.Proofs.Mirroring
import TransferCurves.Proofs.Binary64Whole
import TransferCurves.Proofs.NumeralScanning
import TransferCurves.Proofs.ShapeReading
import TransferCurves.Proofs.RoundTrip
import TransferCurves.Proofs.StoredFunction
import TransferCurves.Proofs.RepeatedRetiming
import TransferCurves.Proofs.CommittedRange
import TransferCurves.Proofs.BandCoverage
import TransferCurves.Proofs.Overflow
import TransferCurves.Proofs.Reversal
import TransferCurves.Proofs.PointTransfer
import TransferCurves.Proofs.HeldMarker
import TransferCurves.Proofs.Attenuation
import TransferCurves.Proofs.PlotOverflow
import TransferCurves.Proofs.PlotReading
import TransferCurves.Proofs.Centering
import TransferCurves.Proofs.Selection
import TransferCurves.Proofs.AttachedOpacity
import TransferCurves.Proofs.StoredConfig
import TransferCurves.Proofs.Catalog
import TransferCurves.Proofs.Swatch
import TransferCurves.Proofs.TableReading
import TransferCurves.Proofs.PositionRange
