import Ureth.Source.Payload.Prune
import Ureth.Source.Store.StoreRun

/-!
# One eviction pass under any provider

Nothing is assumed of the provider here: it may answer differently each time, have no answer or
fail at any question. A pass asks about the entries of its range in order, and what it does to the
shelf is decided by the answers it got before the first failure.
-/

namespace Ureth.Source.Payload
open Ureth.Foundation Ureth.Source.Execution Ureth.Source.Store

/-- An entry the pass asked about, with the answer. -/
structure Asked where
  hash : Bytes32
  number : UInt64
  canonical : Option Bytes32

namespace Asked

/-- The answer names another hash. -/
def mismatch (q : Asked) : Bool := q.canonical.any fun canonical => canonical ≠ q.hash

end Asked

variable {π : Type}

end Ureth.Source.Payload
