import Xdragon.Parsers.MinistralDrained
import Xdragon.Parsers.Qwen3CoderDrained
import Xdragon.Parsers.Qwen3Drained
import Xdragon.Parsers.Qwen3VLDrained

/-!
# The end of a stream

What four parsers of `model/parsers` do not give back at the end of a stream: `Add` keeps the beginning of a tag for a chunk that does
not come.
-/

namespace Xdragon.Parsers

open Xdragon.Lib

end Xdragon.Parsers
