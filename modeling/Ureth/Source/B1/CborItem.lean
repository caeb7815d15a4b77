import Ureth.Source.B1.CborSpec

/-!
# Item methods on trees

Each method of a B1 item, computed on the item of a tree: the shape it asks for,
the value it returns and that it does not panic.
-/

namespace Ureth.Source.B1.Cbor
open Ureth.Foundation
open Ureth.Foundation.Cbor (Value)

theorem null_itemOf {t : Value} : (itemOf t).null = true ↔ t = .null := by
  cases t <;> simp [Item.null, itemOf]

theorem uint_itemOf {t : Value} {max n : Nat} :
    (itemOf t).uint max = .ok n ↔ t = .uint n ∧ n ≤ max := by
  simp only [Item.uint, Res.bind_eq_ok, Res.refuse_eq_ok, exists_const, Res.pure_eq_ok]
  simp only [itemOf_major, itemOf_arg]
  cases t <;> simp
  omega

theorem bytes_itemOf {t : Value} {n : Nat} {b : Bytes} :
    (itemOf t).bytes n = .ok b ↔ t = .bytes b ∧ b.length = n := by
  simp only [Item.bytes, Res.bind_eq_ok, Res.refuse_eq_ok, exists_const, Res.pure_eq_ok]
  simp only [itemOf_major, itemOf_arg, itemOf_data]
  cases t <;> simp
  constructor
  · rintro ⟨h, rfl⟩
    exact ⟨rfl, h⟩
  · rintro ⟨rfl, h⟩
    exact ⟨h, rfl⟩

theorem blob2_itemOf {t : Value} {min max : Nat} {b : Bytes} :
    (itemOf t).blob 2 min max = .ok b ↔ t = .bytes b ∧ min ≤ b.length ∧ b.length ≤ max := by
  simp only [Item.blob, Res.bind_eq_ok, Res.refuse_eq_ok, exists_const, Res.pure_eq_ok]
  simp only [itemOf_major, itemOf_data]
  cases t <;> simp
  rw [← and_assoc, and_comm, and_congr_right]
  rintro rfl
  rfl

theorem blob3_itemOf {t : Value} {min max : Nat} {b : Bytes} :
    (itemOf t).blob 3 min max = .ok b ↔ t = .text b ∧ min ≤ b.length ∧ b.length ≤ max := by
  simp only [Item.blob, Res.bind_eq_ok, Res.refuse_eq_ok, exists_const, Res.pure_eq_ok]
  simp only [itemOf_major, itemOf_data]
  cases t <;> simp
  rw [← and_assoc, and_comm, and_congr_right]
  rintro rfl
  rfl

/-- `null` stands for the empty array. -/
theorem collection4_itemOf {t : Value} {max n : Nat} :
    (itemOf t).collection 4 max = .ok n ↔
      (t = .null ∧ n = 0) ∨ ∃ ts, t = .array ts ∧ ts.length = n ∧ n ≤ max := by
  unfold Item.collection
  cases t <;> simp [Item.null, itemOf, Res.bind_eq_ok]
  · omega
  · exact eq_comm

/-- `null` stands for the empty map. -/
theorem collection5_itemOf {t : Value} {max n : Nat} :
    (itemOf t).collection 5 max = .ok n ↔
      (t = .null ∧ n = 0) ∨ ∃ ts, t = .map ts ∧ ts.length / 2 = n ∧ n ≤ max := by
  unfold Item.collection
  cases t <;> simp [Item.null, itemOf, Res.bind_eq_ok]
  · omega
  · exact eq_comm

theorem array_itemOf {t : Value} {n : Nat} {v : FieldList Item n} (ht : Scannable t) :
    (itemOf t).array n = .ok v ↔ ∃ ts, t = .array ts ∧ ts.length = n ∧ v.toList = ts.map itemOf := by
  simp only [Item.array, Res.bind_eq_ok, Res.refuse_eq_ok, exists_const, Res.pure_eq_ok]
  simp only [itemOf_major, itemOf_arg]
  constructor
  · rintro ⟨hshape, kids, hkids, rfl⟩
    obtain ⟨ts, rfl⟩ := Value.exists_array (t := t) (by omega)
    rw [children_itemOf ht (by simp) (by simp)] at hkids
    cases hkids
    have hlen : ts.length = n := by simpa using hshape
    exact ⟨ts, rfl, hlen, FieldList.toList_padded (by simpa using hlen) _⟩
  · rintro ⟨ts, rfl, hlen, hv⟩
    refine ⟨by simp [hlen], ts.map itemOf, children_itemOf ht (by simp) (by simp), FieldList.ext ?_⟩
    rw [hv, FieldList.toList_padded (by simpa using hlen)]

theorem array_noPanic {t : Value} (ht : Scannable t) (n : Nat) : ((itemOf t).array n).NoPanic := by
  refine (Res.noPanic_refuse _ _).bind fun _ hshape => ?_
  rw [Res.refuse_eq_ok, itemOf_major] at hshape
  rw [children_itemOf ht (by omega) (by omega)]
  simp

/-- The first field of a record, on trees. -/
theorem get_zero_itemOf {n : Nat} [NeZero n] {w : FieldList Item n} {ts : List Value} (hlen : ts.length = n)
    (hw : w.toList = ts.map itemOf) : ∃ u, ts.head? = some u ∧ w[0] = itemOf u := by
  cases ts with
  | nil => exact absurd hlen.symm (NeZero.ne n)
  | cons u us => exact ⟨u, rfl, (Option.some.inj (FieldList.getElem_of_toList hw 0 (NeZero.pos n))).symm⟩

/-- The fields of a versioned record: a tag around an array that starts with 1. -/
theorem tagged_itemOf {t : Value} {n tag : Nat} [NeZero n] {v : FieldList Item n} (ht : Scannable t) :
    (itemOf t).tagged n tag = .ok v ↔
      ∃ ts, t = .tag tag (.array ts) ∧ ts.length = n ∧ v.toList = ts.map itemOf ∧
        ts.head? = some (.uint 1) := by
  simp only [Item.tagged, Res.bind_eq_ok, Res.refuse_eq_ok, exists_const, Res.pure_eq_ok]
  simp only [itemOf_major, itemOf_arg, itemOf_data]
  constructor
  · rintro ⟨hshape, inner, hinner, a, ha, version, hversion, hone, rfl⟩
    obtain ⟨m, u, rfl⟩ := Value.exists_tag (t := t) (by omega)
    obtain rfl : m = tag := by simpa using hshape
    have hu := ht.kid (u := u) (by simp)
    rw [Value.content, item_encode hu.fits.root] at hinner
    cases hinner
    obtain ⟨ts, rfl, hlen, hv⟩ := (array_itemOf hu).mp ha
    obtain ⟨w, hw, hget⟩ := get_zero_itemOf hlen hv
    rw [hget, uint_itemOf] at hversion
    exact ⟨ts, rfl, hlen, hv, by rw [hw, hversion.1, show version = 1 by omega]⟩
  · rintro ⟨ts, rfl, hlen, hv, hhead⟩
    have hu := ht.kid (u := .array ts) (by simp)
    obtain ⟨w, hw, hget⟩ := get_zero_itemOf hlen hv
    refine ⟨by simp, itemOf (.array ts), item_encode hu.fits.root, v,
      (array_itemOf hu).mpr ⟨ts, rfl, hlen, hv⟩, 1, ?_, by simp, rfl⟩
    rw [hget, uint_itemOf]
    rw [hhead] at hw
    exact ⟨(Option.some.inj hw).symm, by unfold usizeMax; omega⟩

theorem uint_noPanic (it : Item) (max : Nat) : (it.uint max).NoPanic :=
  (Res.noPanic_refuse _ _).bind fun _ _ => by simp

theorem tagged_noPanic {t : Value} (ht : Scannable t) (n tag : Nat) [NeZero n] :
    ((itemOf t).tagged n tag).NoPanic := by
  refine (Res.noPanic_refuse _ _).bind fun _ hshape => (noPanic_item _).bind fun inner hinner => ?_
  rw [Res.refuse_eq_ok, itemOf_major, itemOf_arg] at hshape
  obtain ⟨m, u, rfl⟩ := Value.exists_tag (t := t) (by omega)
  have hu := ht.kid (u := u) (by simp)
  rw [itemOf_data, Value.content, item_encode hu.fits.root] at hinner
  cases hinner
  exact (array_noPanic hu n).bind fun a _ => (uint_noPanic _ _).bind fun _ _ =>
    (Res.noPanic_refuse _ _).bind fun _ _ => by simp

theorem bytes_noPanic (it : Item) (n : Nat) : (it.bytes n).NoPanic :=
  (Res.noPanic_refuse _ _).bind fun _ _ => by simp

theorem blob_noPanic (it : Item) (major min max : Nat) : (it.blob major min max).NoPanic := by
  refine (Res.noPanic_refuse _ _).bind fun _ _ => ?_
  exact (Res.noPanic_refuse _ _).bind fun _ _ => by simp

theorem collection_noPanic (it : Item) (major max : Nat) : (it.collection major max).NoPanic := by
  unfold Item.collection
  split
  · simp
  · refine (Res.noPanic_refuse _ _).bind fun _ _ => ?_
    exact (Res.noPanic_refuse _ _).bind fun _ _ => by simp

/-! Items of accepted scans, without naming their trees. -/

/-- The item of a tree that any scan without a ceiling accepts. -/
def Scanned (it : Item) : Prop := ∃ t, Scannable t ∧ it = itemOf t

/-- The tree of a successful scan, whatever the scan's rules. -/
theorem tree_of_oneWith {cap : Nat} {strict utf8 : Bool} (hword : cap < 2 ^ 64) {data : Bytes}
    {tokens tokens' : Nat} {it : Item} (h : oneWith strict utf8 data tokens cap = .ok (it, tokens')) :
    ∃ t, Scannable t ∧ data = t.encode ∧ it = itemOf t ∧ tokens' = tokens + t.count := by
  obtain ⟨t, hacc, hdata, hit, htok, hcap⟩ := (oneWith_eq_ok hword).mp h
  exact ⟨t, hacc.scannable (by omega), hdata, hit, htok⟩

theorem scanned_of_oneWith {cap : Nat} {strict utf8 : Bool} (hword : cap < 2 ^ 64) {data : Bytes}
    {tokens tokens' : Nat} {it : Item} (h : oneWith strict utf8 data tokens cap = .ok (it, tokens')) :
    Scanned it := by
  obtain ⟨t, ht, -, hit, -⟩ := tree_of_oneWith hword h
  exact ⟨t, ht, hit⟩

theorem scanned_fields {n : Nat} {v : FieldList Item n} {ts : List Value} (hts : ∀ t ∈ ts, Scannable t)
    (h : v.toList = ts.map itemOf) (i : Nat) (hi : i < n) : Scanned v[i] := by
  have hget := FieldList.getElem_of_toList h i hi
  rw [List.getElem?_map] at hget
  obtain ⟨u, hu, hv⟩ := Option.map_eq_some_iff.mp hget
  exact ⟨u, hts u (List.mem_of_getElem? hu), hv.symm⟩

namespace Scanned

variable {it : Item} {n tag : Nat}

theorem array_noPanic (h : Scanned it) (n : Nat) : (it.array n).NoPanic := by
  obtain ⟨t, ht, rfl⟩ := h
  exact Cbor.array_noPanic ht n

theorem array (h : Scanned it) {v : FieldList Item n} (hv : it.array n = .ok v) (i : Nat)
    (hi : i < n) : Scanned v[i] := by
  obtain ⟨t, ht, rfl⟩ := h
  obtain ⟨ts, rfl, -, hts⟩ := (array_itemOf ht).mp hv
  exact scanned_fields (fun u hu => ht.kid hu) hts i hi

theorem tagged_noPanic (h : Scanned it) (n tag : Nat) [NeZero n] : (it.tagged n tag).NoPanic := by
  obtain ⟨t, ht, rfl⟩ := h
  exact Cbor.tagged_noPanic ht n tag

theorem tagged (h : Scanned it) [NeZero n] {v : FieldList Item n} (hv : it.tagged n tag = .ok v)
    (i : Nat) (hi : i < n) : Scanned v[i] := by
  obtain ⟨t, ht, rfl⟩ := h
  obtain ⟨ts, rfl, -, hts, -⟩ := (tagged_itemOf ht).mp hv
  have hinner := ht.kid (u := .array ts) (by simp)
  exact scanned_fields (fun u hu => hinner.kid hu) hts i hi

/-- The children of a container or of null. -/
theorem children {ε : Type} (h : Scanned it) (h2 : it.major ≠ 2) (h3 : it.major ≠ 3) :
    ∃ kids, (it.children : Res ε (List Item)) = .ok kids ∧ (∀ k ∈ kids, Scanned k) ∧
      (it.major = 4 → kids.length = it.arg) ∧ (it.major = 5 → kids.length = 2 * it.arg) := by
  obtain ⟨t, ht, rfl⟩ := h
  refine ⟨t.kids.map itemOf, children_itemOf ht h2 h3, ?_, ?_, ?_⟩
  · intro k hk
    obtain ⟨u, hu, rfl⟩ := List.mem_map.mp hk
    exact ⟨u, ht.kid hu, rfl⟩
  · intro h4
    cases t <;> simp at h4 ⊢
  · intro h5
    have heven := ht.fits.root.2 h5
    cases t <;> simp at h5 heven ⊢
    omega

/-- A collection is an array or map of its own size, or null. -/
theorem collection_children {ε : Type} {major max k : Nat} (h : Scanned it)
    (hcol : it.collection major max = .ok k) (h2 : major ≠ 2) (h3 : major ≠ 3) :
    ∃ kids, (it.children : Res ε (List Item)) = .ok kids ∧ (∀ k ∈ kids, Scanned k) ∧
      (major = 4 → kids.length = k) ∧ (major = 5 → kids.length = 2 * k) ∧ k ≤ max := by
  unfold Item.collection at hcol
  split at hcol
  next hnull =>
    simp only [Res.pure_eq_ok] at hcol
    subst hcol
    exact ⟨[], by simp [Item.children, hnull], by simp, by simp, by simp, by omega⟩
  next hnull =>
    simp only [Res.bind_eq_ok, Res.refuse_eq_ok, not_not, exists_const, Res.pure_eq_ok] at hcol
    obtain ⟨rfl, hmax, rfl⟩ := hcol
    obtain ⟨kids, hkids, hall, h4, h5⟩ := h.children (ε := ε) h2 h3
    exact ⟨kids, hkids, hall, h4, h5, by omega⟩

end Scanned

end Ureth.Source.B1.Cbor
