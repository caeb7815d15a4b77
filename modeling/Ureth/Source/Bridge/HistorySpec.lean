import Ureth.Source.B2.CborWalk
import Ureth.Source.B2.ReturnSpec
import Ureth.Source.Bridge.Compose

/-!
# The composition's own scans

The composition pays for a history by the native scan, with no item ceiling and
with text strings and maps admitted; the kernel reads the same bytes with its
stricter scan. Both see the same tree, so the two leaf counts agree.
-/

namespace Ureth.Source.Bridge
open Ureth.Foundation
open Ureth.Foundation.Cbor (Value)
open Ureth.Source.B1.Cbor (usizeMax usizeMax_lt Scannable)

/-- The native scan of a tree within the machine's item count. -/
theorem oneLoose_encode {t : Value} (ht : Scannable t) :
    B1.Cbor.oneLoose t.encode 0 usizeMax = .ok (B1.Cbor.itemOf t, t.count) := by
  refine (B1.Cbor.oneWith_eq_ok usizeMax_lt).mpr ⟨t, ht.accepted, rfl, rfl, by simp, ?_⟩
  have := ht.few
  simp only [usizeMax]
  omega

theorem historyItems_encode {ε : Type} {t : Value} (ht : Scannable t) :
    (historyItems t.encode : Res ε Nat) = .ok t.count := by
  simp [historyItems, historyScan, oneLoose_encode ht, Res.attempt]

/-- A history the kernel reads without an item ceiling is read under its ceiling
exactly if the composition counts no more items than that. -/
theorem one_default_iff {ε : Type} {history : Bytes} {p : B2.Cbor.Item}
    (h : B2.Cbor.one history (.perObject usizeMax) = .ok p) :
    B2.Cbor.one history .default = .ok p ↔
      ∃ n, (historyItems history : Res ε Nat) = .ok n ∧ n ≤ B2.Cbor.Items.max := by
  obtain ⟨t, hacc, rfl, rfl, hle⟩ := (B2.Cbor.one_eq_ok usizeMax_lt).mp h
  have ht : Scannable t := hacc.scannable (lt_of_le_of_lt hle usizeMax_lt)
  rw [B2.Cbor.one_eq_ok B2.items_default_word, historyItems_encode ht]
  constructor
  · rintro ⟨u, hu, henc, -, hcount⟩
    have huf := (hu.scannable (lt_of_le_of_lt hcount B2.items_default_word)).fits
    obtain rfl := Value.encode_inj ht.fits huf henc
    exact ⟨_, rfl, hcount⟩
  · rintro ⟨n, hn, hcount⟩
    obtain rfl := Except.ok.inj hn
    exact ⟨t, hacc, rfl, rfl, hcount⟩

/-- The leaves paid for are one for the mint and one for each transfer the kernel counts. -/
theorem historyLeaves_eq {ε : Type} {history : Bytes} {n : Nat}
    (h : B2.transferCount history = .ok n) : (historyLeaves history : Res ε Nat) = .ok (1 + n) := by
  have hsmall := B2.transferCount_lt h
  obtain ⟨mint, us, rfl, ht, rfl⟩ := B2.transferCount_tree h
  obtain ⟨w, hw⟩ : ∃ w, (B1.Cbor.itemOf (.array [mint, .array us])).array 2 = .ok w :=
    ⟨⟨[B1.Cbor.itemOf mint, B1.Cbor.itemOf (.array us)], rfl⟩,
      (B1.Cbor.array_itemOf ht).mpr ⟨_, rfl, rfl, rfl⟩⟩
  obtain ⟨_, hts, -, hws⟩ := (B1.Cbor.array_itemOf ht).mp hw
  obtain rfl := Value.array.inj hts
  have hw1 := B2.getElem_of_map_itemOf hws 1 (by omega) (u := .array us) rfl
  simp only [historyLeaves, historyScan, oneLoose_encode ht, Res.attempt, Res.bind_ok, rootLeaves, hw,
    hw1]
  simp [Res.u64_of_lt hsmall]

/-- The items paid for are those the kernel's own scan counts. -/
theorem historyItems_of_one {ε : Type} {history : Bytes} {p : B2.Cbor.Item}
    (h : B2.Cbor.one history (.perObject usizeMax) = .ok p) :
    ∃ n, B2.Cbor.scan (.perObject usizeMax) B2.Cbor.maxDepth history 0 = .ok ([], n) ∧
      (historyItems history : Res ε Nat) = .ok n := by
  obtain ⟨t, hacc, rfl, rfl, hle⟩ := (B2.Cbor.one_eq_ok usizeMax_lt).mp h
  refine ⟨t.count, (B2.Cbor.scan_whole_iff usizeMax_lt).mpr ⟨t, hacc, rfl, rfl, hle⟩, ?_⟩
  exact historyItems_encode (hacc.scannable (lt_of_le_of_lt hle usizeMax_lt))

section Kernel

variable {H : Bytes → Bytes32} {K : K256}

/-- Each transfer adds its leaf. -/
theorem evaluateTransfers_leaves {cfg : B2.Cfg} {items : B2.Cbor.Items} {trs : List B2.Transfer}
    {owner : B2.Cbor.Item} {state : Bytes32} {seen : List Bytes32} {out o : B2.Outcome}
    (h : B2.evaluateTransfers H K cfg items trs owner state seen out = .ok o) :
    o.leaves.length = out.leaves.length + trs.length := by
  induction trs generalizing owner state seen out with
  | nil =>
    obtain rfl := Except.ok.inj h
    rfl
  | cons tr rest ih =>
    simp only [B2.evaluateTransfers, Res.bind_eq_ok, Prod.exists] at h
    obtain ⟨leaf, seen', -, out', hout, hrest⟩ := h
    have hkept : out'.leaves = out.leaves := by
      split at hout
      · obtain ⟨releaseTo, -, -, rfl⟩ := B2.terminal_ok.mp hout
        rfl
      · simp only [Res.bind_eq_ok, Res.pure_eq_ok] at hout
        obtain ⟨_, -, rfl⟩ := hout
        rfl
    have hlen := ih hrest
    simp only [hkept, List.length_append, List.length_singleton] at hlen
    rw [hlen, List.length_cons]
    omega

/-- The kernel of a mint or of an unsplit return: it scans the history as an object of its
own and verifies one leaf for the mint and one for each transfer. -/
theorem kernel_leaves {op : Nat} (hop : op ≠ 0) {cfg history : Bytes} {charge : Nat → Res B2.Error Unit}
    {out : B2.Outcome} (h : B2.relation H K op cfg history charge = .ok out) :
    ∃ p n, B2.Cbor.one history (.perObject usizeMax) = .ok p ∧ B2.transferCount history = .ok n ∧
      out.leaves.length = 1 + n := by
  simp only [B2.relation, Res.bind_eq_ok, B2.evaluate, if_neg hop, Prod.exists] at h
  obtain ⟨_, -, _, -, p, hp, _, -, _, -, _, -, hist, hdec, _, -, _, -, _, _, -, _, -, base, -, leaf, _, -,
    hrun⟩ := h
  have hcount := (B2.decodeFields_ok (B2.Cbor.scanned_of_one usizeMax_lt hp) hdec).count
  refine ⟨p, hist.count, hp, B2.transferCount_of_decodeFields hp hdec, ?_⟩
  rw [evaluateTransfers_leaves hrun, ← hcount, List.length_singleton]

end Kernel

end Ureth.Source.Bridge
