import Wma.Envelope.LinePairs
import Wma.Envelope.Stepped
import Wma.Spectrum.Levels
import Wma.Spectrum.Dequantize
import Wma.Transform.Imdct
import Wma.Frame.Channel
import Wma.Frame.Decode
import Wma.Decoder
import Wma.Stream.ParamsJson
import Wma.CommandLine.Arguments
import Wma.CommandLine.Run
import Wma.Main
import Wma.Proofs.Gives
import Wma.Proofs.Parse.Triple
import Wma.Proofs.Bits.Reading
import Wma.Proofs.Code.Words
import Wma.Proofs.Code.Table
import Wma.Proofs.Code.Lookup
import Wma.Proofs.Code.Symbols
import Wma.Proofs.Fixed.SquareRoot
import Wma.Proofs.Fixed.Reciprocal
import Wma.Proofs.Fixed.Gain
import Wma.Proofs.Envelope.LinePairs
import Wma.Proofs.Envelope.Stepped
import Wma.Proofs.Stream.Config
import Wma.Proofs.Bands.Layout
import Wma.Proofs.Spectrum.SideInfo
import Wma.Proofs.Spectrum.Levels
import Wma.Proofs.Spectrum.Dequantize
import Wma.Proofs.Fixed.Product
import Wma.Proofs.Transform.Homomorphism
import Wma.Proofs.Transform.Checked
import Wma.Proofs.Transform.Order
import Wma.Proofs.Transform.Recursion
import Wma.Proofs.Transform.Exact
import Wma.Proofs.Transform.Fourier
import Wma.Proofs.Transform.Cosine
import Wma.Proofs.Frame.Sound
import Wma.Proofs.Frame.Spectra
import Wma.Proofs.Frame.Decode
import Wma.Proofs.Code.BuiltIn
import Wma.Proofs.Packet.Safety
import Wma.Proofs.Packet.Tracks
import Wma.Proofs.Decoder.Invariant
import Wma.Proofs.Decoder.Safety
import Wma.Proofs.Bits.List
import Wma.Proofs.Parse.Related
import Wma.Proofs.Bits.Same
import Wma.Proofs.Spectrum.Runs
import Wma.Proofs.Frame.Runs
import Wma.Proofs.Parse.Success
import Wma.Proofs.Code.PrefixCode
import Wma.Proofs.Parse.Invariant
import Wma.Proofs.Packet.Queue
import Wma.Proofs.Packet.Refinement
import Wma.Proofs.Decoder.Refinement
import Wma.Proofs.Synthesis.Window
import Wma.Proofs.Synthesis.Timeline
import Wma.Proofs.Synthesis.Overlap
import Wma.Proofs.Transform.Scratch
import Wma.Proofs.Frame.Scratch
import Wma.Proofs.Packet.Runs
import Wma.Proofs.Decoder.Flush
import Wma.Proofs.Parse.Local
import Wma.Proofs.Parse.Follows
import Wma.Proofs.Spectrum.Local
import Wma.Proofs.Frame.Local
import Wma.Proofs.Frame.Silence
import Wma.Proofs.Frame.Aborted
import Wma.Proofs.Packet.Outcome
import Wma.Proofs.Decoder.Contract
import Wma.Proofs.Decoder.Recovery
import Wma.Proofs.Decoder.Continuation
import Wma.Proofs.Bits.Numbers
import Wma.Proofs.Code.Canonical
import Wma.Proofs.Code.RunLevel
import Wma.Proofs.Spectrum.Written
import Wma.Proofs.Envelope.Coded
import Wma.Proofs.Frame.Envelope
import Wma.Proofs.Bands.Cover
import Wma.Proofs.Spectrum.Places
import Wma.Proofs.Frame.Places
import Wma.Proofs.Fixed.Apply
import Wma.Proofs.Frame.Quiet
import Wma.Proofs.Bands.Regular
import Wma.Proofs.Frame.Blocks
import Wma.Proofs.Frame.Reachable
import Wma.Proofs.Frame.Rows
import Wma.Proofs.Frame.Lengths
import Wma.Proofs.Spectrum.Lookups
import Wma.Proofs.Frame.Given
import Wma.Proofs.Frame.Mono
import Wma.Proofs.Frame.Lookups
import Wma.Proofs.Frame.InStep
import Wma.Proofs.Bits.Cursor
import Wma.Proofs.Fixed.Order
import Wma.Proofs.Fixed.Rounding
import Wma.Proofs.Envelope.Normalized
import Wma.Proofs.Fixed.Circle
import Wma.Proofs.Transform.Drift
import Wma.Proofs.Frame.Synthesis
import Wma.Proofs.Decoder.Reservoir
