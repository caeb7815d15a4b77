import Ureth.Source.B1.CborWalk
import Ureth.Source.B2.CborItem

/-!
# The two scanners, and the walk over B2 items

The native mode of the B2 scanner and the loose B1 scan accept the same strings with
the same count; the ordinary mode accepts those without text strings and maps. The walk
over items is the B1 walk with the B2 scanner.
-/

namespace Ureth.Source.B2.Cbor
open Ureth.Foundation
open Ureth.Foundation.Cbor (Value)
open Ureth.Source.B1.Cbor (consumed consumed_append usizeMax usizeMax_lt Scannable childWidth)

/-! ## The two scanners -/

/-- The same view of the same bytes. -/
def sameItem (it : B1.Cbor.Item) : Item where
  raw := it.raw
  major := it.major
  arg := it.arg
  data := it.data

@[simp] theorem sameItem_itemOf (t : Value) : sameItem (B1.Cbor.itemOf t) = itemOf t := rfl

theorem sameItem_inj {a b : B1.Cbor.Item} (h : sameItem a = sameItem b) : a = b := by
  cases a
  cases b
  simpa [sameItem] using h

theorem accepted_native_iff {room : Nat} {t : Value} :
    Accepted true room t ↔ B1.Cbor.Accepted false false room t := by
  refine and_congr_right fun _ => ?_
  constructor
  · exact fun h => h.imp fun _ hn => ⟨hn.1, by simp, by simp⟩
  · exact fun h => h.imp fun _ hn => ⟨hn.fits, by simp⟩

/-- No text string and no map, at any level. -/
def Plain (t : Value) : Prop := Value.All (fun u => u.major ≠ 3 ∧ u.major ≠ 5) t

theorem accepted_plain_iff {room : Nat} {t : Value} :
    Accepted false room t ↔ Accepted true room t ∧ Plain t := by
  have hnode : (fun u => NodeOk true u ∧ (u.major ≠ 3 ∧ u.major ≠ 5)) = NodeOk false := by
    funext u
    simp [NodeOk]
  rw [Accepted, Accepted, Plain, and_assoc, ← Value.all_and, hnode]

/-- A whole string scanned, with its item count. -/
theorem scan_whole_iff {items : Items} (hword : items.cap < 2 ^ 64) {data : Bytes} {n : Nat} :
    scan items maxDepth data 0 = .ok ([], n) ↔
      ∃ t, Accepted items.native maxDepth t ∧ data = t.encode ∧ n = t.count ∧ n ≤ items.cap := by
  rw [scan_accepts hword]
  simp only [List.append_nil, Nat.zero_add]

/-- The strings and counts of the native mode are those of the loose B1 scan. -/
theorem native_iff_loose {cap : Nat} (hword : cap < 2 ^ 64) {data : Bytes} {root : B1.Cbor.Item} {n : Nat} :
    (one data (.nativeMode cap) = .ok (sameItem root) ∧
        scan (.nativeMode cap) maxDepth data 0 = .ok ([], n)) ↔
      B1.Cbor.oneLoose data 0 cap = .ok (root, n) := by
  rw [one_eq_ok hword, scan_whole_iff hword, B1.Cbor.oneLoose, B1.Cbor.oneWith_eq_ok hword]
  constructor
  · rintro ⟨⟨t, hacc, rfl, hroot, -⟩, u, hu, henc, rfl, hcap⟩
    have hfits := (hacc.2.imp fun _ hn => hn.1 : Value.All Value.Fits t)
    obtain rfl := Value.encode_inj hfits (hu.2.imp fun _ hn => hn.1) henc
    exact ⟨t, accepted_native_iff.mp hacc, rfl, sameItem_inj hroot, by simp, hcap⟩
  · rintro ⟨t, hacc, rfl, rfl, hn, hcap⟩
    have hacc' : Accepted true maxDepth t := accepted_native_iff.mpr hacc
    obtain rfl : n = t.count := by simpa using hn
    exact ⟨⟨t, hacc', rfl, rfl, hcap⟩, t, hacc', rfl, rfl, hcap⟩

/-- The ordinary mode: the native strings of plain trees. -/
theorem perObject_iff_native {cap : Nat} (hword : cap < 2 ^ 64) {data : Bytes} {root : Item} :
    one data (.perObject cap) = .ok root ↔
      one data (.nativeMode cap) = .ok root ∧ ∃ t, data = t.encode ∧ Value.All Value.Fits t ∧ Plain t := by
  rw [one_eq_ok hword, one_eq_ok hword]
  constructor
  · rintro ⟨t, hacc, rfl, rfl, hcap⟩
    obtain ⟨hnative, hplain⟩ := accepted_plain_iff.mp hacc
    exact ⟨⟨t, hnative, rfl, rfl, hcap⟩, t, rfl, hnative.2.imp fun _ hn => hn.1, hplain⟩
  · rintro ⟨⟨t, hacc, rfl, rfl, hcap⟩, u, henc, hfits, hplain⟩
    obtain rfl := Value.encode_inj (hacc.2.imp fun _ hn => hn.1) hfits henc
    exact ⟨t, accepted_plain_iff.mpr ⟨hacc, hplain⟩, rfl, rfl, hcap⟩

/-! ## The walk -/

/-- `Children::next`: the next child and the bytes after it; a child that does not scan panics. -/
def next : Bytes → Res Error (Option (Item × Bytes))
  | [] => .ok none
  | b :: tail => do
    let (rest, _) ← (scan (.nativeMode usizeMax) maxDepth (b :: tail) 0).expect
    let raw ← consumed (b :: tail) rest
    let it ← (item raw).expect
    return some (it, rest)

/-- The item is returned by one of the successive calls of `next` from these bytes on. -/
inductive Yields : Bytes → Item → Prop where
  | here {data rest : Bytes} {it : Item} (h : next data = .ok (some (it, rest))) : Yields data it
  | later {data rest : Bytes} {it it' : Item} (h : next data = .ok (some (it', rest)))
      (hrest : Yields rest it) : Yields data it

/-- The items reached from the root of an accepted scan. -/
inductive Reached : Item → Prop where
  | root {items : Items} {data : Bytes} {it : Item} (hcap : items.cap < 2 ^ 64)
      (h : one data items = .ok it) : Reached it
  | child {it k : Item} (hit : Reached it) (hk : Yields it.data k) : Reached k

theorem scanned_of_next {data rest : Bytes} {it : Item} (h : next data = .ok (some (it, rest))) :
    Scanned it := by
  cases data with
  | nil => simp [next] at h
  | cons b tail =>
    simp only [next, Res.bind_eq_ok, Res.expect_eq_ok, Prod.exists, Res.pure_eq_ok,
      Option.some.injEq, Prod.mk.injEq] at h
    obtain ⟨rest', n, hscan, raw, hraw, it', hitem, rfl, rfl⟩ := h
    obtain ⟨t, hacc, hdata, rfl, hcap⟩ := (scan_accepts usizeMax_lt _ _ _ _ _).mp hscan
    rw [hdata, consumed_append] at hraw
    obtain rfl := Except.ok.inj hraw
    rw [item_encode hacc.2.root.1] at hitem
    refine ⟨t, hacc.scannable ?_, (Except.ok.inj hitem).symm⟩
    have hmax := usizeMax_lt
    simp only [Items.nativeMode] at hcap
    omega

theorem scanned_of_yields {data : Bytes} {it : Item} (h : Yields data it) : Scanned it := by
  induction h with
  | here h => exact scanned_of_next h
  | later _ _ ih => exact ih

theorem Reached.scanned {it : Item} (h : Reached it) : Scanned it := by
  cases h with
  | root hcap h => exact scanned_of_one hcap h
  | child _ hk => exact scanned_of_yields hk

theorem major_of_null {it : Item} (h : it.null = true) : it.major = 7 := by
  simp only [Item.null, Bool.and_eq_true] at h
  exact of_decide_eq_true h.1

/-- A scanned item scans on its own as the root of a native scan. -/
theorem Scanned.rescans {it : Item} (h : Scanned it) : one it.raw (.nativeMode usizeMax) = .ok it := by
  obtain ⟨t, ht, rfl⟩ := h
  refine (one_eq_ok usizeMax_lt).mpr ⟨t, accepted_of_scannable ht, rfl, rfl, ?_⟩
  have := ht.few
  simp only [Items.nativeMode, usizeMax]
  omega

/-- Iterating over the children of a container or of null. -/
theorem Scanned.iterate {it : Item} (h : Scanned it) (h2 : it.major ≠ 2) (h3 : it.major ≠ 3) :
    ∃ kids, it.children = .ok kids ∧ kids.length = childWidth it.major it.arg ∧ (∀ k ∈ kids, Scanned k) ∧
      (kids.map Item.raw).flatten = it.data := by
  obtain ⟨t, ht, rfl⟩ := h
  have hcontent : t.content = Value.encodeAll t.kids := B1.Cbor.content_eq_encodeAll h2 h3
  refine ⟨t.kids.map itemOf, ?_, ?_, ?_, ?_⟩
  · rw [Item.children, itemOf_data, hcontent]
    exact childrenOf_encodeAll _ _ (fun _ hu => ht.kid hu) (Value.length_le_encodeAll _)
  · rw [List.length_map, B1.Cbor.length_kids ht.fits.root h2 h3]
    rfl
  · intro k hk
    obtain ⟨u, hu, rfl⟩ := List.mem_map.mp hk
    exact ⟨u, ht.kid hu, rfl⟩
  · rw [List.map_map, itemOf_data, hcontent, Value.encodeAll_eq_flatten]
    rfl

end Ureth.Source.B2.Cbor
