import Ureth.Source.B1.CborItem

/-!
# The strict grammar and the walk over scanned items

The items of the strict scan as a grammar of their own, and the items a caller can
reach from the root of a scan: `Children::next` again and again, from item to item.
Whatever is reached is a complete item that scans on its own.
-/

namespace Ureth.Source.B1.Cbor
open Ureth.Foundation
open Ureth.Foundation.Cbor (Value)

/-! ## The grammar -/

/-- An item of the strict scan whose containers nest at most `room` deep. -/
inductive Grammar : Nat → Value → Prop where
  | uint (room n : Nat) (hn : n < 2 ^ 64) : Grammar room (.uint n)
  | bytes (room : Nat) (b : Bytes) (hb : b.length < 2 ^ 64) : Grammar room (.bytes b)
  | text (room : Nat) (b : Bytes) (hb : b.length < 2 ^ 64) (hutf8 : validUtf8 b = true) :
      Grammar room (.text b)
  | null (room : Nat) : Grammar room .null
  | array (room : Nat) (items : List Value) (hlen : items.length < 2 ^ 64)
      (hitems : ∀ t ∈ items, Grammar room t) : Grammar (room + 1) (.array items)
  | map (room : Nat) (pairs : List (Value × Value)) (hlen : pairs.length ≤ 64)
      (hkeys : ∀ p ∈ pairs, Grammar room p.1) (hvalues : ∀ p ∈ pairs, Grammar room p.2)
      (hsorted : (pairs.map fun p => p.1.encode).Pairwise (· < ·)) :
      Grammar (room + 1) (.map (pairs.flatMap fun p => [p.1, p.2]))
  | tag (room n : Nat) (t : Value) (hn : n < 2 ^ 64) (ht : Grammar room t) :
      Grammar (room + 1) (.tag n t)

theorem pick_flatMap (pairs : List (Value × Value)) (i : Nat) (hi : i % 2 = 0) :
    pick i (pairs.flatMap fun p => [p.1, p.2]) = pairs.map Prod.fst := by
  induction pairs generalizing i with
  | nil => rfl
  | cons p rest ih =>
    have hodd : ¬ (i + 1) % 2 = 0 := by omega
    have heven : (i + 1 + 1) % 2 = 0 := by omega
    rw [List.flatMap_cons, List.map_cons, ← ih (i + 1 + 1) heven]
    simp [pick, hi, hodd]

theorem length_flatMap_pair (pairs : List (Value × Value)) :
    (pairs.flatMap fun p => [p.1, p.2]).length = 2 * pairs.length := by
  induction pairs with
  | nil => rfl
  | cons p rest ih =>
    rw [List.flatMap_cons, List.length_append, ih, List.length_cons]
    simp only [List.length_cons, List.length_nil]
    omega

/-- A list of even length is read in pairs. -/
theorem exists_pairs (ts : List Value) (heven : ts.length % 2 = 0) :
    ∃ pairs : List (Value × Value), ts = pairs.flatMap fun p => [p.1, p.2] := by
  induction ts using List.twoStepInduction with
  | nil => exact ⟨[], rfl⟩
  | singleton x => simp at heven
  | cons_cons x y rest ih _ =>
    simp only [List.length_cons] at heven
    obtain ⟨pairs, rfl⟩ := ih (by omega)
    exact ⟨(x, y) :: pairs, rfl⟩

theorem keysOf_map (pairs : List (Value × Value)) :
    keysOf (.map (pairs.flatMap fun p => [p.1, p.2])) = pairs.map fun p => p.1.encode := by
  rw [keysOf, Value.kids, pick_flatMap _ _ rfl, List.map_map]
  rfl

/-- A node other than a map has no rule on its keys, one other than text none on its bytes. -/
theorem nodeOk_of_fits {strict utf8 : Bool} {t : Value} (hfits : t.Fits) (h3 : t.major ≠ 3)
    (h5 : t.major ≠ 5) : NodeOk strict utf8 t :=
  ⟨hfits, fun h => absurd h h3, fun _ h => absurd h h5⟩

theorem accepted_of_grammar {room : Nat} {t : Value} (h : Grammar room t) :
    Accepted true true room t := by
  induction h with
  | uint room n hn =>
    refine ⟨by simp [Value.height], (Value.all_iff _).mpr ⟨?_, by simp⟩⟩
    exact nodeOk_of_fits ⟨hn, by simp⟩ (by simp) (by simp)
  | bytes room b hb =>
    refine ⟨by simp [Value.height], (Value.all_iff _).mpr ⟨?_, by simp⟩⟩
    exact nodeOk_of_fits ⟨hb, by simp⟩ (by simp) (by simp)
  | text room b hb hutf8 =>
    refine ⟨by simp [Value.height], (Value.all_iff _).mpr ⟨?_, by simp⟩⟩
    exact ⟨⟨hb, by simp⟩, fun _ _ => hutf8, fun _ h => by simp at h⟩
  | null room =>
    refine ⟨by simp [Value.height], (Value.all_iff _).mpr ⟨?_, by simp⟩⟩
    exact nodeOk_of_fits ⟨by simp, by simp⟩ (by simp)
      (by simp)
  | array room items hlen hitems ih =>
    have hheight := Value.heightAll_le fun t ht => (ih t ht).1
    refine ⟨by simp only [Value.height]; omega, (Value.all_iff _).mpr ⟨?_, fun u hu => (ih u hu).2⟩⟩
    exact nodeOk_of_fits ⟨hlen, by simp⟩ (by simp) (by simp)
  | map room pairs hlen hkeys hvalues hsorted ihk ihv =>
    have hkid : ∀ u ∈ pairs.flatMap fun p => [p.1, p.2], Accepted true true room u := by
      intro u hu
      obtain ⟨p, hp, hup⟩ := List.mem_flatMap.mp hu
      simp only [List.mem_cons, List.not_mem_nil, or_false] at hup
      rcases hup with rfl | rfl
      · exact ihk p hp
      · exact ihv p hp
    have hcount := length_flatMap_pair pairs
    have hheight := Value.heightAll_le fun u hu => (hkid u hu).1
    refine ⟨by simp only [Value.height]; omega, (Value.all_iff _).mpr ⟨?_, fun u hu => (hkid u hu).2⟩⟩
    refine ⟨⟨?_, fun _ => ?_⟩, fun h => by simp at h, fun _ _ => ⟨?_, ?_⟩⟩
    · simp only [Value.arg]
      omega
    · simp only [Value.kids]
      omega
    · simp only [Value.arg]
      omega
    · rw [keysOf_map]
      exact hsorted
  | tag room n t hn ht ih =>
    refine ⟨?_, (Value.all_iff _).mpr ⟨?_, fun u hu => ?_⟩⟩
    · have := ih.1
      simp only [Value.height]
      omega
    · exact nodeOk_of_fits ⟨hn, by simp⟩ (by simp) (by simp)
    · obtain rfl := List.mem_singleton.mp hu
      exact ih.2

/-- What an accepted container says of the items in it. -/
theorem Accepted.kid {strict utf8 : Bool} {room : Nat} {t u : Value}
    (h : Accepted strict utf8 (room + 1) t) (hu : u ∈ t.kids) : Accepted strict utf8 room u := by
  have hlt := Value.height_kid_lt hu
  have hroom := h.1
  exact ⟨by omega, h.2.kid hu⟩

theorem grammar_of_accepted {room : Nat} {t : Value} (h : Accepted true true room t) :
    Grammar room t := by
  induction t using Value.kidsInduct generalizing room with
  | step t ih =>
    have hnode := h.2.root
    cases t with
    | uint n => exact .uint room n hnode.fits.1
    | bytes b => exact .bytes room b hnode.fits.1
    | text b => exact .text room b hnode.fits.1 (hnode.text rfl rfl)
    | null => exact .null room
    | array items =>
      cases room with
      | zero => exact absurd h.1 (by simp [Value.height])
      | succ room =>
        exact .array room items hnode.fits.1 fun u hu => ih u hu (h.kid (u := u) hu)
    | map items =>
      cases room with
      | zero => exact absurd h.1 (by simp [Value.height])
      | succ room =>
        obtain ⟨pairs, rfl⟩ := exists_pairs items (hnode.fits.2 rfl)
        have hkid : ∀ u ∈ pairs.flatMap fun p => [p.1, p.2], Grammar room u :=
          fun u hu => ih u hu (h.kid (u := u) hu)
        obtain ⟨hfew, hsorted⟩ := hnode.keys rfl rfl
        have hcount := length_flatMap_pair pairs
        rw [keysOf_map] at hsorted
        refine .map room pairs ?_ ?_ ?_ hsorted
        · simp only [Value.arg] at hfew
          omega
        · exact fun p hp => hkid p.1 (List.mem_flatMap.mpr ⟨p, hp, by simp⟩)
        · exact fun p hp => hkid p.2 (List.mem_flatMap.mpr ⟨p, hp, by simp⟩)
    | tag n u =>
      cases room with
      | zero => exact absurd h.1 (by simp [Value.height])
      | succ room =>
        exact .tag room n u hnode.fits.1 (ih u (by simp) (h.kid (by simp)))

/-- Rules that are looser accept more trees. -/
theorem Accepted.loosen {strict utf8 strict' utf8' : Bool} {room : Nat} {t : Value}
    (h : Accepted strict utf8 room t) (hstrict : strict' = true → strict = true)
    (hutf8 : (strict' || utf8') = true → (strict || utf8) = true) : Accepted strict' utf8' room t :=
  ⟨h.1, h.2.imp fun _ hn =>
    ⟨hn.fits, fun h3 hmode => hn.text h3 (hutf8 hmode), fun hs h5 => hn.keys (hstrict hs) h5⟩⟩

/-- A scan with looser rules returns the same root and count. -/
theorem oneWith_loosen {strict utf8 strict' utf8' : Bool} {data : Bytes} {tokens tokens' cap : Nat}
    {it : Item} (hword : cap < 2 ^ 64) (hstrict : strict' = true → strict = true)
    (hutf8 : (strict' || utf8') = true → (strict || utf8) = true)
    (h : oneWith strict utf8 data tokens cap = .ok (it, tokens')) :
    oneWith strict' utf8' data tokens cap = .ok (it, tokens') := by
  obtain ⟨t, hacc, hdata, hit, htokens, hcap⟩ := (oneWith_eq_ok hword).mp h
  exact (oneWith_eq_ok hword).mpr ⟨t, hacc.loosen hstrict hutf8, hdata, hit, htokens, hcap⟩

/-! ## The walk -/

/-- `Children::next`: the next child and the bytes after it; a child that does not scan panics. -/
def next {ε : Type} : Bytes → Res ε (Option (Item × Bytes))
  | [] => .ok none
  | b :: tail => do
    let (rest, _) ← (scan usizeMax false false maxDepth (b :: tail) 0).expect
    let raw ← consumed (b :: tail) rest
    let it ← (item raw).expect
    return some (it, rest)

/-- The item is returned by one of the successive calls of `next` from these bytes on. -/
inductive Yields : Bytes → Item → Prop where
  | here {data rest : Bytes} {it : Item}
      (h : (next data : Res Malformed (Option (Item × Bytes))) = .ok (some (it, rest))) : Yields data it
  | later {data rest : Bytes} {it it' : Item}
      (h : (next data : Res Malformed (Option (Item × Bytes))) = .ok (some (it', rest)))
      (hrest : Yields rest it) : Yields data it

/-- The items reached from the root of an accepted scan, by iterating over the children of
an item that was reached. -/
inductive Reached : Item → Prop where
  | root {strict utf8 : Bool} {data : Bytes} {tokens tokens' cap : Nat} {it : Item}
      (hcap : cap < 2 ^ 64) (h : oneWith strict utf8 data tokens cap = .ok (it, tokens')) : Reached it
  | child {it k : Item} (hit : Reached it) (hk : Yields (if it.null then [] else it.data) k) : Reached k

theorem scanned_of_next {ε : Type} {data rest : Bytes} {it : Item}
    (h : (next data : Res ε (Option (Item × Bytes))) = .ok (some (it, rest))) : Scanned it := by
  cases data with
  | nil => simp [next] at h
  | cons b tail =>
    simp only [next, Res.bind_eq_ok, Res.expect_eq_ok, Prod.exists, Res.pure_eq_ok,
      Option.some.injEq, Prod.mk.injEq] at h
    obtain ⟨rest', n, hscan, raw, hraw, it', hitem, rfl, rfl⟩ := h
    obtain ⟨t, hacc, hdata, rfl, hcap⟩ := (scan_accepts false false usizeMax_lt _ _ _ _ _).mp hscan
    rw [hdata, consumed_append] at hraw
    obtain rfl := Except.ok.inj hraw
    rw [item_encode hacc.2.root.fits] at hitem
    refine ⟨t, hacc.scannable ?_, (Except.ok.inj hitem).symm⟩
    have := usizeMax_lt
    omega

theorem scanned_of_yields {data : Bytes} {it : Item} (h : Yields data it) : Scanned it := by
  induction h with
  | here h => exact scanned_of_next h
  | later _ _ ih => exact ih

theorem Reached.scanned {it : Item} (h : Reached it) : Scanned it := by
  cases h with
  | root hcap h => exact scanned_of_oneWith hcap h
  | child _ hk => exact scanned_of_yields hk

/-- How many children an item with this head has. -/
def childWidth (major arg : Nat) : Nat :=
  if major = 4 then arg else if major = 5 then 2 * arg else if major = 6 then 1 else 0

theorem major_of_null {it : Item} (h : it.null = true) : it.major = 7 := by
  simp only [Item.null, Bool.and_eq_true] at h
  exact of_decide_eq_true h.1

theorem length_kids {t : Value} (hfits : t.Fits) (h2 : t.major ≠ 2) (h3 : t.major ≠ 3) :
    t.kids.length = childWidth t.major t.arg := by
  have heven := hfits.2
  cases t <;> simp at h2 h3 <;>
    simp [childWidth] at heven ⊢
  omega

/-- The content of a container or of null is its items, one behind the other. -/
theorem content_eq_encodeAll {t : Value} (h2 : t.major ≠ 2) (h3 : t.major ≠ 3) :
    t.content = Value.encodeAll t.kids := by
  cases t <;> simp at h2 h3 <;> simp

/-- A scanned item scans on its own as the root of a scan. -/
theorem Scanned.rescans {it : Item} (h : Scanned it) : ∃ n, oneLoose it.raw 0 usizeMax = .ok (it, n) := by
  obtain ⟨t, ht, rfl⟩ := h
  refine ⟨t.count, (oneWith_eq_ok usizeMax_lt).mpr ⟨t, ht.accepted, rfl, rfl, by simp, ?_⟩⟩
  have := ht.few
  simp only [usizeMax]
  omega

/-- Iterating over the children of a container or of null. -/
theorem Scanned.iterate {ε : Type} {it : Item} (h : Scanned it) (h2 : it.major ≠ 2) (h3 : it.major ≠ 3) :
    ∃ kids, (it.children : Res ε (List Item)) = .ok kids ∧ kids.length = childWidth it.major it.arg ∧
      (∀ k ∈ kids, Scanned k) ∧ (kids.map Item.raw).flatten = it.data := by
  obtain ⟨t, ht, rfl⟩ := h
  refine ⟨t.kids.map itemOf, children_itemOf ht h2 h3, ?_, ?_, ?_⟩
  · rw [List.length_map, length_kids ht.fits.root h2 h3]
    rfl
  · intro k hk
    obtain ⟨u, hu, rfl⟩ := List.mem_map.mp hk
    exact ⟨u, ht.kid hu, rfl⟩
  · rw [List.map_map, itemOf_data, content_eq_encodeAll h2 h3, Value.encodeAll_eq_flatten]
    rfl

end Ureth.Source.B1.Cbor
