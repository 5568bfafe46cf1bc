import JsonShapes.Accum.Cursor
import JsonShapes.Decoder.Readings
import JsonShapes.Failure.Edits
import JsonShapes.Failure.Path
import JsonShapes.Pattern.Reader
import JsonShapes.Proofs.Agreement
import JsonShapes.Proofs.Closed
import JsonShapes.Proofs.Lockstep
import JsonShapes.Proofs.Memoization.Sessions
import JsonShapes.Proofs.Parts
import JsonShapes.Proofs.Reports.Completeness
import JsonShapes.Proofs.Reports.Places
import JsonShapes.Proofs.Successes
import JsonShapes.Registry.Script
import JsonShapes.Schema.Evaluation
import JsonShapes.Schema.Session
import JsonShapes.Shelves
import JsonShapes.Value.Conversions
import JsonShapes.Value.Reader
import JsonShapes.Proofs.Projection
import JsonShapes.Proofs.Finite
import JsonShapes.Proofs.Reencoding
import JsonShapes.Proofs.Limits
import JsonShapes.Proofs.RoundTrip.Basic
import JsonShapes.Proofs.RoundTrip.Sameness
import JsonShapes.Proofs.RoundTrip.Steadiness
import JsonShapes.Proofs.Shelving.Growth
import JsonShapes.Proofs.Shelving.Settled
import JsonShapes.Proofs.RoundTrip.Retractions
import JsonShapes.Proofs.RoundTrip.Codecs
import JsonShapes.Proofs.RoundTrip.Shelved
import JsonShapes.Proofs.Strictness
import JsonShapes.Proofs.Termination.Encoding
import JsonShapes.Proofs.Numbers.Plain
import JsonShapes.Proofs.Histories.Codecs
import JsonShapes.Proofs.Histories.Caches
import JsonShapes.Proofs.Parallel.Agreement
import JsonShapes.Proofs.Orders.Decoders
import JsonShapes.Proofs.Drawings.Regrouping
import JsonShapes.Proofs.Accumulations.Rounds
import JsonShapes.Proofs.Accumulations.Traversals
import JsonShapes.Proofs.Drawings.Layout
import JsonShapes.Proofs.Drawings.Trails
import JsonShapes.Proofs.Intersections
import JsonShapes.Proofs.Alternatives
import JsonShapes.Proofs.Repetition.Transforms
import JsonShapes.Proofs.Memoization.Replays
import JsonShapes.Proofs.Repetition.Encoders
import JsonShapes.Proofs.Repetition.Interpreters
import JsonShapes.Proofs.Reports.Landmarks
import JsonShapes.Proofs.Accumulations.Enumerations
import JsonShapes.Proofs.RoundTrip.Conditions
