import Ureth.Source.B1.RsmtSpec

/-!
# A root binds the value under a key

Two membership proofs that a root and a key accept are the same proof of the same value. The
paths are compared from the root down: a node tells its depth and its sibling, and no node can be
taken for a leaf.
-/

namespace Ureth.Guarantees
open Ureth.Foundation Ureth.Source.B1

/-- Accepted requests of one root and key are equal unless strings hashed for them collide. The
climb of a request goes through the depths its bitmap selects and uses its siblings up, one for
each depth, and no input makes the run panic. -/
theorem rsmt_membership_binding (H : Bytes → Bytes32) (ε : Type) :
    (∀ input input' gas gas' out out' q q',
      (rsmtRun H input gas : Res (Error ε) Output) = .ok out → out.verdict = true →
      (rsmtRun H input' gas' : Res (Error ε) Output) = .ok out' → out'.verdict = true →
      memberRequest input = .ok q → memberRequest input' = .ok q' → q.root = q'.root → q.key = q'.key →
      (q.value = q'.value ∧ q.bitmap = q'.bitmap ∧ q.siblings = q'.siblings) ∨
        Collision H (q.inputs H ++ q'.inputs H)) ∧
    (∀ input q, memberRequest input = .ok q →
      (climb H q.key q.bitmap q.siblings 256 (popCount q.bitmap) (H (rsmtLeaf q.key q.value)) : Res ε Bytes32) =
        .ok (Foundation.climb H (q.path.map (pathNode q.key)) (H (rsmtLeaf q.key q.value))) ∧
      q.path.map Prod.fst = (List.range 256).reverse.filter (bitOf q.bitmap) ∧
      (q.path.map Prod.snd).reverse.flatten = q.siblings ∧ ∀ step ∈ q.path, step.2.length = 32) ∧
    ∀ input gas, (rsmtRun H input gas : Res (Error ε) Output).NoPanic := by
  refine ⟨?_, ?_, noPanic_rsmtRun⟩
  · intro input input' gas gas' out out' q q' hrun hverdict hrun' hverdict' hq hq' hroot hkey
    obtain ⟨hframed, htop⟩ := rsmtRun_accepts hrun hverdict hq
    obtain ⟨hframed', htop'⟩ := rsmtRun_accepts hrun' hverdict' hq'
    refine or_iff_not_imp_right.mpr fun hno => ?_
    exact hframed.eq_of_top hframed' hkey (Subtype.ext (by rw [htop, htop', hroot])) hno
  · intro input q hq
    obtain ⟨hframed, -⟩ := memberRequest_framed hq
    refine ⟨hframed.climb, depths_rsmtPath 256, ?_, fun step hstep => ?_⟩
    · rw [MemberRequest.path, flatten_rsmtPath hframed.siblings.ge, ← hframed.siblings, List.take_length]
    · exact (mem_rsmtPath hframed.siblings.ge hstep).2

/-- An empty value under the zero key of a tree of one leaf. -/
def soleRequest : Bytes :=
  [1, 0, 0, 1] ++ (Fixed.literal 32 1).val ++ List.replicate 32 0 ++ [0, 0, 0, 0] ++ List.replicate 32 0

def soleMember : MemberRequest where
  root := (Fixed.literal 32 1).val
  key := List.replicate 32 0
  value := []
  bitmap := List.replicate 32 0
  siblings := []

set_option maxRecDepth 8000 in
/-- Under a hash of one value the request is accepted; its climb has no node. -/
theorem rsmt_membership_binding_sole :
    (rsmtRun (fun _ => .literal 32 1) soleRequest 4000 : Res (Error Empty) Output) =
      .ok (Output.new 3914 true) ∧ (soleMember.path.map Prod.snd).reverse.flatten = [] := by
  have hq : memberRequest soleRequest = .ok soleMember := by rfl
  obtain ⟨-, hconsumed, -⟩ := rsmt_membership_binding (fun _ => .literal 32 1) Empty
  exact ⟨by rfl, (hconsumed soleRequest soleMember hq).2.2.1⟩

end Ureth.Guarantees
