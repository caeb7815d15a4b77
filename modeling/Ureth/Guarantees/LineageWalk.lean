import Ureth.Source.B2.LineageWalk
import Ureth.Guarantees.CertificateReaders

/-!
# The lineage walk

The part-to-root walk ends for every history and every charge, and a projected
ancestor is, byte for byte, the ancestor.
-/

namespace Ureth.Guarantees
open Ureth.Foundation Ureth.Source Ureth.Source.B2
open Ureth.Foundation.Cbor (Value)
open B2.Cbor (Item Items)

/-- **Lineage walk.** A justification read after descending into another is strictly shorter. From
every history the loop runs to its end, whatever the charge does, with no more iterations than the
history has bytes, and the fuel of `walk` is enough for it. The projection of an ancestor, whenever it
scans, decodes to the transactions and certification data of the token's pairs, read from the same
bytes and in the same order, with the token's reference times and as many leaves as `project` reports. -/
theorem lineage_walk_projection (K : K256) :
    (∀ j j', Below K j j' → j'.length < j.length) ∧
    (∀ (σ : Type) (charge : Nat → Run σ Error Unit) (history : Bytes) (s : σ) (fuel : Nat),
      history.length < fuel →
      ∃ js, Iterates K charge ⟨[], [history]⟩ s js (walk K charge fuel ⟨[], [history]⟩ s) ∧
        js.IsChain (fun j j' => j'.length < j.length) ∧ js.length ≤ history.length) ∧
    ∀ j token proof n proj leaves, openSplit j = .ok (token, proof, n) →
      project K token = .ok (proj, leaves) →
      ∀ (items : Items) (it : Item), items.cap < 2 ^ 64 → Cbor.one proj items = .ok it →
      ∃ parts kids hist, openToken token = .ok parts ∧
        parts[2].children = (.ok kids : Res Error (List NativeItem)) ∧
        decodeFields K it u64Max = .ok hist ∧
        ReadFrom K (decodeMint K) parts[1] hist.mintItem hist.mint hist.cd0 hist.t0 ∧
        List.Forall₂ (fun p tr => ∃ x, tr.tx.raw = x.raw ∧
          ReadFrom K (transferStrict K) p x tr.tx tr.cert tr.t) kids hist.transfers ∧
        hist.count = hist.transfers.length ∧ leaves = 1 + hist.count := by
  refine ⟨fun j j' h => h.length_lt, ?_, ?_⟩
  · intro σ charge history s fuel hfuel
    obtain ⟨js, hjs⟩ : ∃ js, Iterates K charge ⟨[], [history]⟩ s js (walk K charge fuel ⟨[], [history]⟩ s) :=
      walk_iterates s rfl hfuel
    exact ⟨js, hjs, (hjs.chain rfl).imp fun j j' h => h.length_lt, hjs.length_le rfl⟩
  · intro j token proof n proj leaves hopen hproj items it hword hit
    obtain ⟨t, ht, htoken, -⟩ := openSplit_ok hopen
    exact project_reads ⟨t, ht, htoken⟩ hproj hword hit

/-! ## A split of one transfer -/

def bareKey : Fixed 33 := ⟨2 :: List.replicate 32 0, by decide⟩

/-- A split justification around a token of one mint and one transfer, with an empty allocation
proof. -/
def bareSplit : Value :=
  let word : Value := .bytes (List.replicate 32 0)
  let pred : Value := .tag 39032 (.array [.uint 1, .bytes [1], .bytes bareKey.val])
  let cd : Value := .tag 39031 (.array [.uint 2, pred, word, word, .null, .bytes []])
  let proof (time : Nat) : Value :=
    .tag 39033 (.array [.uint 1, cd, .uint time, word, bareCertificate])
  let mint : Value := .tag 39041 (.array [.uint 2, .uint 3, pred, word, word, .null, .null, .null])
  let transfer : Value := .tag 39045 (.array [.uint 2, pred, word, .null, .null])
  .tag 39044 (.array [
    .tag 39040 (.array [.uint 2, .array [mint, proof 5], .array [.array [transfer, proof 6]]]),
    .array [.array []]])

/-- The bare split is opened and projected, and its projection scans: it decodes to one transfer. -/
theorem lineage_walk_projection_bare :
    ∃ it hist, decodeFields (.recorded [bareKey] [] []) it u64Max = .ok hist ∧
      hist.transfers.length = 1 := by
  have hrun : (do
      let split ← openSplit bareSplit.encode
      let part ← project (.recorded [bareKey] [] []) split.1
      let _ ← Cbor.one part.1 .default
      return part.2 : Res Error Nat).value? = some 2 := by decide +kernel
  rw [Res.value?_eq_some] at hrun
  simp only [Res.bind_eq_ok, Prod.exists, Res.pure_eq_ok] at hrun
  obtain ⟨token, proof, n, hopen, proj, leaves, hproj, it, hit, rfl⟩ := hrun
  obtain ⟨-, -, hread⟩ := lineage_walk_projection (.recorded [bareKey] [] [])
  obtain ⟨_, _, hist, -, -, hdec, -, -, hcount, hleaves⟩ :=
    hread _ _ _ _ _ _ hopen hproj .default it (by decide) hit
  exact ⟨it, hist, hdec, by omega⟩

end Ureth.Guarantees
