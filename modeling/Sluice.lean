import Sluice.Error
import Sluice.Recorder
import Sluice.Refusal
import Sluice.Hex
import Sluice.Settings
import Sluice.Cursor
import Sluice.Codec
import Sluice.Sink
import Sluice.Reader
import Sluice.Writer
import Sluice.Incremental
import Sluice.Compression
import Sluice.Decompression
import Sluice.Segment.Collection
import Sluice.Toy
import Sluice.XxHash
import Sluice.Zstd.Huffman
import Sluice.Zstd.Header
import Sluice.Zstd.Block
import Sluice.Zstd.Decoder
import Sluice.Deflate.Decoder
import Sluice.Zstd.Encoder
import Sluice.Engine
import Sluice.Proofs.Course
import Sluice.Proofs.Supply
import Sluice.Proofs.Feeding
import Sluice.Proofs.Request
import Sluice.Proofs.Delivery
import Sluice.Proofs.Frames
import Sluice.Proofs.FrameDecoding
import Sluice.Proofs.FrameDecoders
import Sluice.Proofs.ReadingFrames
import Sluice.Proofs.Session
import Sluice.Proofs.Pushing
import Sluice.Proofs.Framing
import Sluice.Proofs.PatientDecoders
import Sluice.Proofs.PlainFrames
import Sluice.Proofs.FrameGroups
import Sluice.Proofs.StoredData
import Sluice.Proofs.RoundTrip
import Sluice.Proofs.Conforming
import Sluice.Proofs.Blocks
import Sluice.Proofs.Gathering
import Sluice.Proofs.Chunking
import Sluice.Proofs.Copying
import Sluice.Proofs.EncodingReaders
import Sluice.Proofs.EncodePaths
import Sluice.Proofs.OpeningFrames
import Sluice.Proofs.WriterBooks
import Sluice.Proofs.WriterLife
import Sluice.Proofs.PromptDecoding
import Sluice.Proofs.PassingOn
import Sluice.Proofs.ReaderTrails
import Sluice.Proofs.ReaderBooks
import Sluice.Proofs.Tiling
import Sluice.Proofs.SegmentBounds
import Sluice.Proofs.Likeness
import Sluice.Proofs.Renewing
import Sluice.Proofs.Batches
import Sluice.Proofs.FailingReaders
import Sluice.Proofs.CutFrames
import Sluice.Proofs.CutStreams
import Sluice.Proofs.Retrying
import Sluice.Proofs.AnyBytes
import Sluice.Proofs.FailingSources
import Sluice.Proofs.FlatIndexing
import Sluice.Proofs.Prospects
import Sluice.Proofs.CandidDecoders
import Sluice.Proofs.LimitedDecoding
import Sluice.Proofs.OutputLimits
import Sluice.Proofs.UnnoticedCuts
import Sluice.Proofs.CountedSteps
import Sluice.Proofs.ShortReads
import Sluice.Proofs.Seeking
import Sluice.Proofs.PieceLengths
import Sluice.Proofs.ChunkRuns
import Sluice.Proofs.FailedWriters
import Sluice.Proofs.Entering
import Sluice.Proofs.PretendedEnds
import Sluice.Proofs.EagerReads
import Sluice.Proofs.MixedReads
import Sluice.Proofs.PackedTables
import Sluice.Proofs.BlockBooks
import Sluice.Proofs.Extending
import Sluice.Proofs.BlockFlushes
import Sluice.Proofs.Boundaries
import Sluice.Proofs.FrameTallies
import Sluice.Proofs.PartReadFrames
