import Ureth.Guarantees.ExecutionInput
import Ureth.Guarantees.TokenResolution
import Ureth.Source.Payload.RecoverySpec

/-!
# What a recovery admission leaves behind

Two ways in which an admission touches more than the head it admits. A refusal is inert only up
to the first admission: the repair's anchor and every block it replays, and every block of the
window, are admitted one by one, and a later failure takes none of them back. And an admission
that succeeds makes room for the blocks it restores, which costs a newer token where the
capacity is taken by tokens above the head and by pinned ones.
-/

namespace Ureth.Guarantees
open Ureth.Foundation Ureth.Source.Execution Ureth.Source.Store Ureth.Source.Payload

section

variable {π β : Type} {H : Bytes → Bytes32} {hashSlow : Header → Bytes32} {call : RecoveryCall π β}
  {presented : Bytes} {limit : UInt64}

end

/-! ## A restart on the small chain -/

section

variable {best number : UInt64} {s : CompanionStore} {a : Shelf} {inner : ParentAccountingInner}

end

/-! ### Refusals -/

end Ureth.Guarantees
