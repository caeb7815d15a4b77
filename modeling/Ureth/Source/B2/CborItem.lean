import Ureth.Source.B2.CborSpec

/-!
# B2 item methods and encoders on trees
-/

namespace Ureth.Source.B2.Cbor
open Ureth.Foundation
open Ureth.Foundation.Cbor (Value)
open Ureth.Source.B1.Cbor (consumed consumed_append usizeMax usizeMax_lt Room Scannable)

/-- The item of a tree. -/
def itemOf (t : Value) : Item where
  raw := t.encode
  major := t.major
  arg := t.arg
  data := t.content

@[simp] theorem itemOf_raw (t : Value) : (itemOf t).raw = t.encode := rfl
@[simp] theorem itemOf_major (t : Value) : (itemOf t).major = t.major := rfl
@[simp] theorem itemOf_arg (t : Value) : (itemOf t).arg = t.arg := rfl
@[simp] theorem itemOf_data (t : Value) : (itemOf t).data = t.content := rfl

theorem item_encode {t : Value} (h : t.Fits) : item t.encode = .ok (itemOf t) := by
  have hhead : head t.encode = .ok (t.major, t.arg, t.content) := by
    rw [head_eq_ok, Value.encode_eq]
    exact Foundation.Cbor.readHead_head _ _ _ t.major_lt h.1
  simp [item, hhead, itemOf]

theorem Accepted.scannable {native : Bool} {t : Value} (h : Accepted native maxDepth t)
    (hcount : t.count < 2 ^ 64) : Scannable t :=
  ⟨h.2.imp fun _ hn => hn.1, h.1, hcount⟩

theorem accepted_of_scannable {t : Value} (h : Scannable t) : Accepted true maxDepth t :=
  ⟨h.shallow, h.fits.imp fun _ hf => ⟨hf, by simp⟩⟩

/-- A complete scan returns the item of the one tree its bytes encode. -/
theorem one_eq_ok {items : Items} (hword : items.cap < 2 ^ 64) {data : Bytes} {it : Item} :
    one data items = .ok it ↔
      ∃ t, Accepted items.native maxDepth t ∧ data = t.encode ∧ it = itemOf t ∧
        t.count ≤ items.cap := by
  unfold one
  simp only [Res.bind_eq_ok, Prod.exists, Res.refuse_eq_ok, exists_const, not_not]
  constructor
  · rintro ⟨rest, tok, hscan, rfl, hitem⟩
    obtain ⟨t, hacc, rfl, rfl, hcap⟩ := (scan_accepts hword _ _ _ _ _).mp hscan
    rw [List.append_nil, item_encode hacc.2.root.1] at hitem
    exact ⟨t, hacc, by simp, (Except.ok.inj hitem).symm, by simpa using hcap⟩
  · rintro ⟨t, hacc, rfl, rfl, hcap⟩
    refine ⟨[], _, (scan_accepts hword _ _ _ _ _).mpr
      ⟨t, hacc, by simp, rfl, by simpa using hcap⟩, rfl, item_encode hacc.2.root.1⟩

theorem one_quiet {items : Items} (hword : items.cap < 2 ^ 64) (data : Bytes)
    (hroom : Room data 0) : Quiet (one data items) := by
  refine ((scan_quiet hword _).failsOnly _ _ hroom).bind fun _ _ => ?_
  exact (Res.failsOnly_refuse (by simp)).bind fun _ _ => quiet_item data

/-- Iterating over the encodings of scannable trees returns their items. -/
theorem childrenOf_encodeAll (fuel : Nat) (ts : List Value) (hts : ∀ t ∈ ts, Scannable t)
    (hfuel : ts.length ≤ fuel) : childrenOf fuel (Value.encodeAll ts) = .ok (ts.map itemOf) := by
  induction ts generalizing fuel with
  | nil => cases fuel <;> simp [childrenOf]
  | cons t ts ih =>
    obtain ⟨fuel, rfl⟩ : ∃ k, fuel = k + 1 := ⟨fuel - 1, by simp at hfuel; omega⟩
    have ht := hts t (by simp)
    obtain ⟨b, tail, hcons⟩ := List.exists_cons_of_ne_nil
      (show Value.encodeAll (t :: ts) ≠ [] by simp [Value.encode_ne_nil])
    have hscan : scan (.nativeMode usizeMax) maxDepth (Value.encodeAll (t :: ts)) 0 =
        .ok (Value.encodeAll ts, t.count) :=
      (scan_accepts usizeMax_lt _ _ _ _ _).mpr
        ⟨t, accepted_of_scannable ht, by simp, by simp,
          by have := ht.few; simp only [Items.nativeMode, usizeMax]; omega⟩
    have hraw : (consumed (Value.encodeAll (t :: ts)) (Value.encodeAll ts) : Res Error Bytes) =
        .ok t.encode := by
      rw [Value.encodeAll_cons, consumed_append]
    rw [hcons] at hscan hraw ⊢
    rw [childrenOf, hscan]
    simp [Res.expect, hraw, item_encode ht.fits.root,
      ih fuel (fun u hu => hts u (by simp [hu])) (by simpa using hfuel)]

theorem children_array {ts : List Value} (h : Scannable (.array ts)) :
    (itemOf (.array ts)).children = .ok (ts.map itemOf) :=
  childrenOf_encodeAll _ ts (fun _ hu => h.kid hu) (Value.length_le_encodeAll ts)

theorem null_itemOf {t : Value} : (itemOf t).null = true ↔ t = .null := by
  cases t <;> simp [Item.null, itemOf]

theorem uint_itemOf {t : Value} {max n : Nat} :
    (itemOf t).uint max = .ok n ↔ t = .uint n ∧ n ≤ max := by
  simp only [Item.uint, Res.bind_eq_ok, Res.refuse_eq_ok, exists_const, Res.pure_eq_ok]
  simp only [itemOf_major, itemOf_arg]
  cases t <;> simp
  omega

theorem bytes_itemOf {t : Value} {n : Nat} {b : Bytes} :
    (itemOf t).bytes n = .ok b ↔ t = .bytes b ∧ b.length = n := by
  simp only [Item.bytes, Res.bind_eq_ok, Res.refuse_eq_ok, exists_const, Res.pure_eq_ok]
  simp only [itemOf_major, itemOf_arg, itemOf_data]
  cases t <;> simp
  rw [and_comm, and_congr_right]
  rintro rfl
  rfl

theorem blob_itemOf {t : Value} {max : Nat} {b : Bytes} :
    (itemOf t).blob max = .ok b ↔ t = .bytes b ∧ b.length ≤ max := by
  simp only [Item.blob, Res.bind_eq_ok, Res.refuse_eq_ok, exists_const, Res.pure_eq_ok]
  simp only [itemOf_major, itemOf_data]
  cases t <;> simp
  rw [and_comm, and_congr_right]
  rintro rfl
  rfl

theorem count_itemOf {t : Value} {max n : Nat} :
    (itemOf t).count max = .ok n ↔ ∃ ts, t = .array ts ∧ ts.length = n ∧ n ≤ max := by
  simp only [Item.count, Res.bind_eq_ok, Res.refuse_eq_ok, exists_const, Res.pure_eq_ok]
  simp only [itemOf_major, itemOf_arg]
  cases t <;> simp
  omega

theorem array_itemOf {t : Value} {n : Nat} {v : FieldList Item n} (ht : Scannable t) :
    (itemOf t).array n = .ok v ↔ ∃ ts, t = .array ts ∧ ts.length = n ∧ v.toList = ts.map itemOf := by
  simp only [Item.array, Res.bind_eq_ok, Res.refuse_eq_ok, exists_const, Res.pure_eq_ok]
  simp only [itemOf_major, itemOf_arg]
  constructor
  · rintro ⟨hshape, kids, hkids, rfl⟩
    obtain ⟨ts, rfl⟩ := Value.exists_array (t := t) (by omega)
    rw [children_array ht] at hkids
    cases hkids
    have hlen : ts.length = n := by simpa using hshape
    exact ⟨ts, rfl, hlen, FieldList.toList_padded (by simpa using hlen) _⟩
  · rintro ⟨ts, rfl, hlen, hv⟩
    refine ⟨by simp [hlen], ts.map itemOf, children_array ht, FieldList.ext ?_⟩
    rw [hv, FieldList.toList_padded (by simpa using hlen)]

theorem array_quiet {t : Value} (ht : Scannable t) (n : Nat) : Quiet ((itemOf t).array n) := by
  refine (Res.failsOnly_refuse (by simp)).bind fun _ hshape => ?_
  rw [Res.refuse_eq_ok, itemOf_major] at hshape
  obtain ⟨ts, rfl⟩ := Value.exists_array (t := t) (by omega)
  rw [children_array ht]
  simp

/-- The first field of a record, on trees. -/
theorem get_zero_itemOf {n : Nat} [NeZero n] {w : FieldList Item n} {ts : List Value}
    (hlen : ts.length = n) (hw : w.toList = ts.map itemOf) :
    ∃ u, ts.head? = some u ∧ w[0] = itemOf u := by
  cases ts with
  | nil => exact absurd hlen.symm (NeZero.ne n)
  | cons u us => exact ⟨u, rfl, (Option.some.inj (FieldList.getElem_of_toList hw 0 (NeZero.pos n))).symm⟩

/-- The fields of a versioned record: a tag around an array that starts with the version. -/
theorem tagged_itemOf {t : Value} {n tag version : Nat} [NeZero n] {v : FieldList Item n}
    (ht : Scannable t) (hversion : version < 2 ^ 64) :
    (itemOf t).tagged n tag version = .ok v ↔
      ∃ ts, t = .tag tag (.array ts) ∧ ts.length = n ∧ v.toList = ts.map itemOf ∧
        ts.head? = some (.uint version) := by
  simp only [Item.tagged, Res.bind_eq_ok, Res.refuse_eq_ok, exists_const, Res.pure_eq_ok]
  simp only [itemOf_major, itemOf_arg, itemOf_data]
  constructor
  · rintro ⟨hmajor, htag, inner, hinner, a, ha, found, hfound, hsame, rfl⟩
    obtain ⟨m, u, rfl⟩ := Value.exists_tag (t := t) (by omega)
    obtain rfl : m = tag := by simpa using htag
    have hu := ht.kid (u := u) (by simp)
    rw [Value.content, item_encode hu.fits.root] at hinner
    cases hinner
    obtain ⟨ts, rfl, hlen, hv⟩ := (array_itemOf hu).mp ha
    obtain ⟨w, hw, hget⟩ := get_zero_itemOf hlen hv
    rw [hget, uint_itemOf] at hfound
    exact ⟨ts, rfl, hlen, hv, by rw [hw, hfound.1, show found = version by omega]⟩
  · rintro ⟨ts, rfl, hlen, hv, hhead⟩
    have hu := ht.kid (u := .array ts) (by simp)
    obtain ⟨w, hw, hget⟩ := get_zero_itemOf hlen hv
    refine ⟨by simp, by simp, itemOf (.array ts), item_encode hu.fits.root, v,
      (array_itemOf hu).mpr ⟨ts, rfl, hlen, hv⟩, version, ?_, by simp, rfl⟩
    rw [hget, uint_itemOf]
    rw [hhead] at hw
    exact ⟨(Option.some.inj hw).symm, by unfold usizeMax; omega⟩

theorem uint_quiet (it : Item) (max : Nat) : Quiet (it.uint max) :=
  (Res.failsOnly_refuse (by simp)).bind fun _ _ =>
    (Res.failsOnly_refuse (by simp)).bind fun _ _ => by simp

theorem bytes_quiet (it : Item) (n : Nat) : Quiet (it.bytes n) :=
  (Res.failsOnly_refuse (by simp)).bind fun _ _ =>
    (Res.failsOnly_refuse (by simp)).bind fun _ _ => by simp

theorem blob_quiet (it : Item) (max : Nat) : Quiet (it.blob max) :=
  (Res.failsOnly_refuse (by simp)).bind fun _ _ =>
    (Res.failsOnly_refuse (by simp)).bind fun _ _ => by simp

theorem count_quiet (it : Item) (max : Nat) : Quiet (it.count max) :=
  (Res.failsOnly_refuse (by simp)).bind fun _ _ =>
    (Res.failsOnly_refuse (by simp)).bind fun _ _ => by simp

theorem tagged_quiet {t : Value} (ht : Scannable t) (n tag version : Nat) [NeZero n] :
    Quiet ((itemOf t).tagged n tag version) := by
  refine (Res.failsOnly_refuse (by simp)).bind fun _ hmajor => (Res.failsOnly_refuse (by simp)).bind fun _ _ =>
    (quiet_item _).bind fun inner hinner => ?_
  rw [Res.refuse_eq_ok, itemOf_major] at hmajor
  obtain ⟨m, u, rfl⟩ := Value.exists_tag (t := t) (by omega)
  have hu := ht.kid (u := u) (by simp)
  rw [itemOf_data, Value.content, item_encode hu.fits.root] at hinner
  cases hinner
  exact (array_quiet hu n).bind fun a _ => (uint_quiet _ _).bind fun _ _ =>
    (Res.failsOnly_refuse (by simp)).bind fun _ _ => by simp

/-! The encoders write trees. -/

theorem header_eq_head (major n : Nat) : header major n = Foundation.Cbor.head major n := by
  unfold header Foundation.Cbor.head
  by_cases h24 : n < 24
  · simp [h24]
  · by_cases h8 : n ≤ 255
    · simp [h24, h8, show n < 256 by omega]
    · by_cases h16 : n ≤ 65535
      · simp [h24, h8, h16, show ¬ n < 256 by omega, show n < 65536 by omega]
      · by_cases h32 : n ≤ 4294967295
        · simp [h24, h8, h16, h32, show ¬ n < 256 by omega, show ¬ n < 65536 by omega,
            show n < 4294967296 by omega]
        · simp [h24, h8, h16, h32, show ¬ n < 256 by omega, show ¬ n < 65536 by omega,
            show ¬ n < 4294967296 by omega]

theorem uint_eq_encode (n : Nat) : uint n = (Value.uint n).encode := by
  simp [uint, header_eq_head, Value.encode]

theorem bytes_eq_encode (b : Bytes) : bytes b = (Value.bytes b).encode := by
  simp [bytes, header_eq_head, Value.encode]

theorem array_eq_encode (ts : List Value) : array (ts.map Value.encode) = (Value.array ts).encode := by
  simp [array, header_eq_head, Value.encode, Value.encodeAll_eq_flatten]

/-! Items of accepted scans, without naming their trees. -/

/-- The item of a tree that any scan without a ceiling accepts. -/
def Scanned (it : Item) : Prop := ∃ t, Scannable t ∧ it = itemOf t

theorem scanned_of_one {items : Items} (hword : items.cap < 2 ^ 64) {data : Bytes} {it : Item}
    (h : one data items = .ok it) : Scanned it := by
  obtain ⟨t, hacc, -, rfl, hcap⟩ := (one_eq_ok hword).mp h
  exact ⟨t, hacc.scannable (by omega), rfl⟩

theorem raw_of_one {items : Items} (hword : items.cap < 2 ^ 64) {data : Bytes} {it : Item}
    (h : one data items = .ok it) : it.raw = data := by
  obtain ⟨t, -, rfl, rfl, -⟩ := (one_eq_ok hword).mp h
  rfl

/-- A larger item budget accepts what a smaller one does. -/
theorem one_mono {cap cap' : Nat} {native : Bool} (hcap : cap ≤ cap') (hword : cap' < 2 ^ 64)
    {data : Bytes} {it : Item} (h : one data ⟨cap, native⟩ = .ok it) :
    one data ⟨cap', native⟩ = .ok it := by
  obtain ⟨t, hacc, hdata, hit, hcount⟩ := (one_eq_ok (by simp only; omega)).mp h
  exact (one_eq_ok hword).mpr ⟨t, hacc, hdata, hit, le_trans hcount hcap⟩

theorem scanned_fields {n : Nat} {v : FieldList Item n} {ts : List Value} (hts : ∀ t ∈ ts, Scannable t)
    (h : v.toList = ts.map itemOf) (i : Nat) (hi : i < n) : Scanned v[i] := by
  have hget := FieldList.getElem_of_toList h i hi
  rw [List.getElem?_map] at hget
  obtain ⟨u, hu, hv⟩ := Option.map_eq_some_iff.mp hget
  exact ⟨u, hts u (List.mem_of_getElem? hu), hv.symm⟩

/-- A field of a tree's array is shorter than the array. -/
theorem fields_raw_lt {n : Nat} {v : FieldList Item n} {ts : List Value} (h : v.toList = ts.map itemOf)
    (i : Nat) (hi : i < n) : v[i].raw.length < (Value.array ts).encode.length := by
  have hget := FieldList.getElem_of_toList h i hi
  rw [List.getElem?_map] at hget
  obtain ⟨u, hu, hv⟩ := Option.map_eq_some_iff.mp hget
  rw [← hv]
  exact Value.length_encode_kid_lt (List.mem_of_getElem? hu)

namespace Scanned

variable {it : Item} {n tag version : Nat}

theorem data_lt (h : Scanned it) : it.data.length < it.raw.length := by
  obtain ⟨t, -, rfl⟩ := h
  exact Value.length_content_lt t

theorem array_raw_lt (h : Scanned it) {v : FieldList Item n} (hv : it.array n = .ok v) (i : Nat)
    (hi : i < n) : v[i].raw.length < it.raw.length := by
  obtain ⟨t, ht, rfl⟩ := h
  obtain ⟨ts, rfl, -, hts⟩ := (array_itemOf ht).mp hv
  exact fields_raw_lt hts i hi

theorem tagged_raw_lt (h : Scanned it) [NeZero n] (hversion : version < 2 ^ 64) {v : FieldList Item n}
    (hv : it.tagged n tag version = .ok v) (i : Nat) (hi : i < n) : v[i].raw.length < it.raw.length := by
  obtain ⟨t, ht, rfl⟩ := h
  obtain ⟨ts, rfl, -, hts, -⟩ := (tagged_itemOf ht hversion).mp hv
  have hkid : (Value.array ts).encode.length < (Value.tag tag (.array ts)).encode.length :=
    Value.length_encode_kid_lt (by simp)
  exact (fields_raw_lt hts i hi).trans hkid

theorem array_quiet (h : Scanned it) (n : Nat) : Quiet (it.array n) := by
  obtain ⟨t, ht, rfl⟩ := h
  exact Cbor.array_quiet ht n

theorem array (h : Scanned it) {v : FieldList Item n} (hv : it.array n = .ok v) (i : Nat)
    (hi : i < n) : Scanned v[i] := by
  obtain ⟨t, ht, rfl⟩ := h
  obtain ⟨ts, rfl, -, hts⟩ := (array_itemOf ht).mp hv
  exact scanned_fields (fun u hu => ht.kid hu) hts i hi

theorem tagged_quiet (h : Scanned it) (n tag version : Nat) [NeZero n] :
    Quiet (it.tagged n tag version) := by
  obtain ⟨t, ht, rfl⟩ := h
  exact Cbor.tagged_quiet ht n tag version

theorem tagged (h : Scanned it) [NeZero n] (hversion : version < 2 ^ 64) {v : FieldList Item n}
    (hv : it.tagged n tag version = .ok v) (i : Nat) (hi : i < n) : Scanned v[i] := by
  obtain ⟨t, ht, rfl⟩ := h
  obtain ⟨ts, rfl, -, hts, -⟩ := (tagged_itemOf ht hversion).mp hv
  have hinner := ht.kid (u := .array ts) (by simp)
  exact scanned_fields (fun u hu => hinner.kid hu) hts i hi

/-- The children of an array item. -/
theorem children (h : Scanned it) (h4 : it.major = 4) :
    ∃ kids, it.children = .ok kids ∧ (∀ k ∈ kids, Scanned k) ∧ kids.length = it.arg := by
  obtain ⟨t, ht, rfl⟩ := h
  obtain ⟨ts, rfl⟩ := Value.exists_array h4
  refine ⟨ts.map itemOf, children_array ht, fun k hk => ?_, by simp⟩
  obtain ⟨u, hu, rfl⟩ := List.mem_map.mp hk
  exact ⟨u, ht.kid hu, rfl⟩

theorem children_raw_lt (h : Scanned it) (h4 : it.major = 4) {kids : List Item}
    (hkids : it.children = .ok kids) {k : Item} (hk : k ∈ kids) : k.raw.length < it.raw.length := by
  obtain ⟨t, ht, rfl⟩ := h
  obtain ⟨ts, rfl⟩ := Value.exists_array h4
  rw [children_array ht, Except.ok.injEq] at hkids
  subst hkids
  obtain ⟨u, hu, rfl⟩ := List.mem_map.mp hk
  exact Value.length_encode_kid_lt hu

/-- The children of an item that was counted. -/
theorem count_children {max k : Nat} (h : Scanned it) (hcount : it.count max = .ok k) :
    ∃ kids, it.children = .ok kids ∧ (∀ k ∈ kids, Scanned k) ∧ kids.length = k ∧ k ≤ max := by
  simp only [Item.count, Res.bind_eq_ok, Res.refuse_eq_ok, not_not, exists_const, Res.pure_eq_ok] at hcount
  obtain ⟨h4, hmax, rfl⟩ := hcount
  obtain ⟨kids, hkids, hall, hlen⟩ := h.children h4
  exact ⟨kids, hkids, hall, hlen, by omega⟩

/-- A byte-string item read by its length. -/
theorem bytes_length {b : Bytes} {n : Nat} (h : Scanned it) (hb : it.bytes n = .ok b) :
    b.length = n ∧ b = it.data := by
  obtain ⟨t, -, rfl⟩ := h
  obtain ⟨rfl, hlen⟩ := bytes_itemOf.mp hb
  exact ⟨hlen, rfl⟩

end Scanned

end Ureth.Source.B2.Cbor
