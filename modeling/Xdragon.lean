import Xdragon.Agent.Approval
import Xdragon.Agent.AutoAllow
import Xdragon.Agent.Prefixes
import Xdragon.Anthropic.Answers
import Xdragon.Anthropic.Blocks
import Xdragon.Anthropic.Searched
import Xdragon.Anthropic.Stream
import Xdragon.Anthropic.WebSearch
import Xdragon.Blob.Cache
import Xdragon.Blob.Copy
import Xdragon.Blob.Damage
import Xdragon.Blob.Link
import Xdragon.Blob.Trusted
import Xdragon.Bufio.Seeker
import Xdragon.Ggml.Decode
import Xdragon.Ggml.Decoded
import Xdragon.Ggml.Layout
import Xdragon.Ggml.Lengths
import Xdragon.Ggml.Limited
import Xdragon.Ggml.RoundTrip
import Xdragon.Ggml.Write
import Xdragon.Ggml.Written
import Xdragon.Gguf.Format
import Xdragon.Gguf.Lazy
import Xdragon.Gguf.Pulls
import Xdragon.Gguf.Sessions
import Xdragon.Harmony.Chunks
import Xdragon.Harmony.FunctionNames
import Xdragon.Harmony.Parser
import Xdragon.Kvcache.Attention
import Xdragon.Kvcache.Capacity
import Xdragon.Kvcache.Capture
import Xdragon.Kvcache.Causal
import Xdragon.Kvcache.Checkpoints
import Xdragon.Kvcache.Edits
import Xdragon.Kvcache.Halves
import Xdragon.Kvcache.Layers
import Xdragon.Kvcache.Lined
import Xdragon.Kvcache.Pass
import Xdragon.Kvcache.Provenance
import Xdragon.Kvcache.Recurrent
import Xdragon.Kvcache.Restore
import Xdragon.Kvcache.Resume
import Xdragon.Kvcache.Ring
import Xdragon.Kvcache.Shift
import Xdragon.Kvcache.Slots
import Xdragon.Kvcache.Sourced
import Xdragon.Kvcache.Stores
import Xdragon.Kvcache.Traced
import Xdragon.Kvcache.Writable
import Xdragon.Layers.Layer
import Xdragon.Layers.Removal
import Xdragon.Lib.Assoc
import Xdragon.Lib.Decimal
import Xdragon.Lib.Dropping
import Xdragon.Lib.Emit
import Xdragon.Lib.Fields
import Xdragon.Lib.File
import Xdragon.Lib.Float32
import Xdragon.Lib.Fuelled
import Xdragon.Lib.FullRune
import Xdragon.Lib.Heap
import Xdragon.Lib.Hull
import Xdragon.Lib.Lenient
import Xdragon.Lib.Links
import Xdragon.Lib.Marks
import Xdragon.Lib.Neighbours
import Xdragon.Lib.Nested
import Xdragon.Lib.NextFit
import Xdragon.Lib.Path
import Xdragon.Lib.Pool
import Xdragon.Lib.Replace
import Xdragon.Lib.Rounds
import Xdragon.Lib.Run
import Xdragon.Lib.Runes
import Xdragon.Lib.Shards
import Xdragon.Lib.Slice
import Xdragon.Lib.Tags
import Xdragon.Lib.Tails
import Xdragon.Lib.Text
import Xdragon.Lib.Tiling
import Xdragon.Lib.Utf8
import Xdragon.Lib.Window
import Xdragon.Lib.Wire
import Xdragon.Lib.Writes
import Xdragon.Llm.Assign
import Xdragon.Llm.Bisect
import Xdragon.Llm.Classes
import Xdragon.Llm.Create
import Xdragon.Llm.Layout
import Xdragon.Llm.Load
import Xdragon.Llm.LoadEnds
import Xdragon.Llm.Packing
import Xdragon.Llm.Rounded
import Xdragon.Llm.Rounds
import Xdragon.Mlx.Cache
import Xdragon.Mlx.Pipeline
import Xdragon.Mlx.Rotating
import Xdragon.Mlx.RotatingWindow
import Xdragon.Mlx.Utf8Buffer
import Xdragon.Names.Name
import Xdragon.Names.Registry
import Xdragon.Names.RoundTrip
import Xdragon.Openai.Agreement
import Xdragon.Openai.Items
import Xdragon.Openai.Order
import Xdragon.Openai.Responses
import Xdragon.Parser.Modelfile
import Xdragon.Parser.Quoted
import Xdragon.Parser.RoundTrip
import Xdragon.Parser.Turns
import Xdragon.Parser.Values
import Xdragon.Parsers.ArgumentPanics
import Xdragon.Parsers.Drained
import Xdragon.Parsers.FunctionGemma
import Xdragon.Parsers.FunctionGemmaArguments
import Xdragon.Parsers.FunctionGemmaRoundTrip
import Xdragon.Parsers.LFM2Calls
import Xdragon.Parsers.LFM2RoundTrip
import Xdragon.Parsers.Ministral
import Xdragon.Parsers.MinistralCuts
import Xdragon.Parsers.MinistralDrained
import Xdragon.Parsers.MinistralJSON
import Xdragon.Parsers.Nemotron3Nano
import Xdragon.Parsers.Olmo3
import Xdragon.Parsers.Olmo3Calls
import Xdragon.Parsers.Olmo3Strings
import Xdragon.Parsers.Qwen3
import Xdragon.Parsers.Qwen3Chunks
import Xdragon.Parsers.Qwen3Coder
import Xdragon.Parsers.Qwen3CoderDocument
import Xdragon.Parsers.Qwen3CoderDrained
import Xdragon.Parsers.Qwen3CoderRoundTrip
import Xdragon.Parsers.Qwen3CoderTags
import Xdragon.Parsers.Qwen3CoderXML
import Xdragon.Parsers.Qwen3Cuts
import Xdragon.Parsers.Qwen3Drained
import Xdragon.Parsers.Qwen3Rounds
import Xdragon.Parsers.Qwen3VL
import Xdragon.Parsers.Qwen3VLDrained
import Xdragon.Parsers.Returned
import Xdragon.Parsers.Text
import Xdragon.Parsers.Value
import Xdragon.Registry.Complete
import Xdragon.Registry.Name
import Xdragon.Registry.Pull
import Xdragon.Registry.Settled
import Xdragon.Runner.Agreement
import Xdragon.Runner.Batches
import Xdragon.Runner.Choice
import Xdragon.Runner.Contents
import Xdragon.Runner.Cut
import Xdragon.Runner.Discard
import Xdragon.Runner.Groups
import Xdragon.Runner.InputCache
import Xdragon.Runner.Pieces
import Xdragon.Runner.Pipeline
import Xdragon.Runner.Queue
import Xdragon.Runner.Sections
import Xdragon.Runner.Sequences
import Xdragon.Runner.Stocked
import Xdragon.Runner.Stop
import Xdragon.Runner.Trim
import Xdragon.Runner.Truncation
import Xdragon.Runner.Visits
import Xdragon.Sample.TopK
import Xdragon.Server.Download
import Xdragon.Server.Eviction
import Xdragon.Server.Expiry
import Xdragon.Server.Handout
import Xdragon.Server.Moves
import Xdragon.Server.Pushed
import Xdragon.Server.Quantization
import Xdragon.Server.Replies
import Xdragon.Server.Sched
import Xdragon.Server.Tiled
import Xdragon.Server.Upload
import Xdragon.Template.Collate
import Xdragon.Template.Cut
import Xdragon.Template.Delete
import Xdragon.Template.Execute
import Xdragon.Template.Restrict
import Xdragon.Thinking.Parser
import Xdragon.Tokenizer.Agreement
import Xdragon.Tokenizer.BytePair
import Xdragon.Tokenizer.Fragments
import Xdragon.Tokenizer.HighestScore
import Xdragon.Tokenizer.Merges
import Xdragon.Tokenizer.SentencePiece
import Xdragon.Tokenizer.Splits
import Xdragon.Tokenizer.Symbols
import Xdragon.Tokenizer.Vocabulary
import Xdragon.Tokenizer.WordPiece
import Xdragon.Tools.Chunks
import Xdragon.Tools.Content
import Xdragon.Tools.Parser
import Xdragon.XTokenizer.BpeMerge
import Xdragon.XTokenizer.Chunks
import Xdragon.XTokenizer.Encode
