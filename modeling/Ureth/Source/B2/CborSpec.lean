import Ureth.Source.B1.CborItem
import Ureth.Source.B2.Cbor

/-!
# What the B2 scanner accepts

The native mode accepts the same trees as the loose B1 scan. The ordinary mode
accepts those without text strings and maps. The item methods are computed on
the items of trees, as for B1.
-/

namespace Ureth.Source.B2.Cbor
open Ureth.Foundation
open Ureth.Foundation.Cbor (Value readHead)
open Ureth.Source.B1.Cbor (consumed consumed_append usizeMax usizeMax_lt Accepts Calm LevelOk Room Scannable)

theorem getD_minArg {ai : Nat} (hlo : 24 ≤ ai) (hhi : ai < 28) :
    [24, 256, 65536, 4294967296].getD (ai - 24) 0 = Foundation.Cbor.minArg ai := by
  have hcases : ai = 24 ∨ ai = 25 ∨ ai = 26 ∨ ai = 27 := by omega
  rcases hcases with rfl | rfl | rfl | rfl <;> rfl

/-- `head` reads exactly the shortest heads. -/
theorem head_eq_ok {data rest : Bytes} {m n : Nat} :
    head data = .ok (m, n, rest) ↔ readHead data = some (m, n, rest) := by
  cases data with
  | nil => simp [head, readHead]
  | cons first tail =>
    simp only [head, headArg, readHead]
    split
    next h24 => simp
    next h24 =>
      split
      next h28 =>
        rw [getD_minArg (by omega) h28]
        split
        next hshort => simp [hshort]
        next hshort =>
          split
          next hmin => simp [hmin]
          next hmin => simp [hshort, hmin]
      next h28 => split <;> simp

@[simp] theorem quiet_head (data : Bytes) : Quiet (head data) := by
  cases data with
  | nil => exact Res.failsOnly_fail (by simp)
  | cons first tail =>
    refine Res.FailsOnly.bind ?_ fun _ _ => by simp
    unfold headArg
    simp only
    repeat' split
    all_goals first
      | exact Res.failsOnly_ok _
      | exact Res.failsOnly_fail (by simp)

/-- What the scan checks at one node. -/
def NodeOk (native : Bool) (t : Value) : Prop :=
  t.Fits ∧ (native = false → t.major ≠ 3 ∧ t.major ≠ 5)

/-! ## The loose B1 scan under another guard -/

/-- An item scanner with the errors of the B1 scanner. -/
def loose (child : Scan) : B1.Cbor.Scan := fun data tokens => (child data tokens).mapErr fun _ => .cbor

theorem loose_eq_ok {child : Scan} {data : Bytes} {tokens : Nat} {r : Bytes × Nat} :
    loose child data tokens = .ok r ↔ child data tokens = .ok r := Res.mapErr_eq_ok

theorem scanChildren_loose {child : Scan} (count i : Nat) (data : Bytes) (tokens : Nat) {r : Bytes × Nat} :
    scanChildren child count data tokens = .ok r ↔
      B1.Cbor.scanChildren (loose child) false count i [] data tokens = .ok r := by
  induction count generalizing i data tokens with
  | zero => simp [scanChildren, B1.Cbor.scanChildren]
  | succ count ih =>
    simp only [scanChildren, B1.Cbor.scanChildren, Res.bind_eq_ok, loose_eq_ok, ih (i + 1), Bool.false_and,
      Bool.false_eq_true, if_false]

theorem childCount_loose {m n c : Nat} (hm : 4 ≤ m ∧ m ≤ 6) : childCount m n = .ok c ↔ B1.Cbor.childCount m n = .ok c := by
  have hcases : m = 4 ∨ m = 5 ∨ m = 6 := by omega
  rcases hcases with rfl | rfl | rfl <;> simp [childCount, B1.Cbor.childCount, Res.u64_eq_ok]

/-- The majors that the ordinary mode forbids. -/
def Forbidden (native : Bool) (data : Bytes) : Prop :=
  data.head?.any (fun b => !native && (b.toNat / 32 = 3 || b.toNat / 32 = 5)) = true

theorem scanItem_loose {items : Items} {below : Option Scan} {data : Bytes} {tokens : Nat} {r : Bytes × Nat} :
    scanItem items below data tokens = .ok r ↔
      ¬ Forbidden items.native data ∧ B1.Cbor.scanItem items.cap false false (below.map loose) data tokens = .ok r := by
  have hguard : data.head?.any (fun b => (!items.native && (b.toNat / 32 = 3 || b.toNat / 32 = 5)) ||
      (b.toNat / 32 = 7 && b ≠ 0xf6)) = true ↔ Forbidden items.native data ∨
        data.head?.any (fun b => b.toNat / 32 = 7 && b ≠ 0xf6) = true := by
    unfold Forbidden
    cases data.head? <;> simp
  simp only [scanItem, B1.Cbor.scanItem, Res.bind_eq_ok, Res.u64_eq_ok, Res.refuse_eq_ok, exists_const, Prod.exists,
    head_eq_ok, B1.Cbor.head_eq_ok, hguard, not_or]
  by_cases hforbidden : Forbidden items.native data
  · simp [hforbidden]
  simp only [hforbidden, not_false_eq_true, true_and]
  refine exists_congr fun tokens => and_congr_right fun _ => and_congr_right fun _ => and_congr_right fun _ =>
    exists_congr fun m => exists_congr fun n => exists_congr fun rest => and_congr_right fun _ => ?_
  by_cases h0 : m = 0
  · simp [h0]
  by_cases h23 : m = 2 ∨ m = 3
  · simp only [if_neg h0, if_pos h23, B1.take, gt_iff_lt]
    split <;> simp [Res.refuse]
  by_cases h456 : 4 ≤ m ∧ m ≤ 6
  · simp only [if_neg h0, if_neg h23, if_pos h456]
    cases below with
    | none => simp
    | some child =>
      simp only [Option.map_some, Res.bind_eq_ok, Res.refuse_eq_ok, exists_const, childCount_loose h456,
        scanChildren_loose _ 0, Bool.false_and, Bool.false_eq_true, false_and, and_false, not_false_eq_true, true_and]
  · simp only [if_neg h0, if_neg h23, if_neg h456]
    split <;> simp

/-- The guard on the first byte refuses exactly the mode's forbidden majors. -/
theorem forbidden_encode (native : Bool) (t : Value) (rest : Bytes) :
    Forbidden native (t.encode ++ rest) ↔ native = false ∧ (t.major = 3 ∨ t.major = 5) := by
  obtain ⟨b, hb, hm⟩ := Foundation.Cbor.head?_head_append t.major t.arg (t.content ++ rest) t.major_lt
  rw [Forbidden, Value.encode_eq, List.append_assoc, hb]
  simp [hm]

/-- One level of the scan, given what the level below accepts. -/
theorem scanItem_accepts {items : Items} {below : Option Scan} {good : Value → Prop} (hword : items.cap < 2 ^ 64)
    (hbelow : ∀ child, below = some child → Accepts items.cap good child) :
    Accepts items.cap (LevelOk (NodeOk items.native) below.isNone good) (scanItem items below) := by
  have hloose : ∀ child, below.map loose = some child → Accepts items.cap good child := by
    intro child hchild
    obtain ⟨child, hsome, rfl⟩ := Option.map_eq_some_iff.mp hchild
    intro data tokens rest tokens'
    rw [loose_eq_ok, hbelow child hsome]
  intro data tokens rest tokens'
  rw [scanItem_loose, B1.Cbor.scanItem_accepts hword hloose, Option.isNone_map, ← exists_and_left]
  refine exists_congr fun t => ?_
  constructor
  · rintro ⟨hguard, ⟨hnode, hkids, hflat⟩, rfl, hcount⟩
    rw [forbidden_encode, not_and, not_or] at hguard
    exact ⟨⟨⟨hnode.fits, hguard⟩, hkids, hflat⟩, rfl, hcount⟩
  · rintro ⟨⟨⟨hfits, hguard⟩, hkids, hflat⟩, rfl, hcount⟩
    rw [forbidden_encode, not_and, not_or]
    exact ⟨hguard, ⟨⟨hfits, by simp, by simp⟩, hkids, hflat⟩, rfl, hcount⟩

/-- The trees the whole scan accepts. -/
def Accepted (native : Bool) (room : Nat) (t : Value) : Prop :=
  t.height ≤ room ∧ Value.All (NodeOk native) t

/-- The scan accepts exactly the strings that start with an accepted tree, within
the item budget. -/
theorem scan_accepts {items : Items} (hword : items.cap < 2 ^ 64) (room : Nat) :
    Accepts items.cap (Accepted items.native room) (scan items room) :=
  B1.Cbor.accepts_of_levels (scanItem_accepts hword (by simp))
    (fun _ _ ih => scanItem_accepts hword (by rintro child ⟨⟩; exact ih)) room

/-- The failures of the scan: never a panic where there is room. -/
abbrev QuietScan (child : Scan) : Prop := Calm (· ≠ Error.outOfGas) child

theorem scanChildren_quiet {child : Scan} (hchild : QuietScan child) (count : Nat) (data : Bytes)
    (tokens : Nat) (hroom : Room data tokens) : Quiet (scanChildren child count data tokens) := by
  induction count generalizing data tokens with
  | zero => simp [scanChildren]
  | succ count ih =>
    rw [scanChildren]
    refine (hchild.failsOnly _ _ hroom).bind fun ⟨rest, tokens'⟩ hok => ih _ _ ?_
    obtain ⟨hle, hsum⟩ := hchild.shrinks _ _ _ _ hok
    unfold Room at hroom ⊢
    omega

theorem scanItem_quiet {items : Items} {below : Option Scan}
    (hbelow : ∀ child, below = some child → QuietScan child) (data : Bytes) (tokens : Nat)
    (hroom : Room data tokens) : Quiet (scanItem items below data tokens) := by
  unfold Room at hroom
  unfold scanItem
  refine (Res.failsOnly_u64 (by omega)).bind fun tokens' htok => ?_
  obtain ⟨-, rfl⟩ := Res.u64_eq_ok.mp htok
  refine (Res.failsOnly_refuse (by simp)).bind fun _ _ => ?_
  refine (Res.failsOnly_refuse (by simp)).bind fun _ _ => ?_
  refine (quiet_head data).bind fun ⟨m, n, data'⟩ hhead => ?_
  obtain ⟨rfl, -, hn⟩ := Foundation.Cbor.eq_head_of_readHead (head_eq_ok.mp hhead)
  have hlen := Foundation.Cbor.head_length_pos m n
  rw [List.length_append] at hroom
  dsimp only
  split
  · simp
  · split
    · split
      · exact Res.failsOnly_fail (by simp)
      · simp
    · split
      · cases below with
        | none => exact Res.failsOnly_fail (by simp)
        | some child =>
          refine (Res.failsOnly_refuse (by simp)).bind fun _ hpairs => ?_
          rw [Res.refuse_eq_ok] at hpairs
          refine Res.FailsOnly.bind ?_ fun count hcount => ?_
          · unfold childCount
            split
            next => simp
            next =>
              split
              next h5 => exact Res.failsOnly_u64 (by omega)
              next => simp
          refine (Res.failsOnly_refuse (by simp)).bind fun _ _ => ?_
          exact scanChildren_quiet (hbelow child rfl) _ _ _ (by unfold Room; omega)
      · split
        · simp
        · exact Res.failsOnly_fail (by simp)

theorem scan_quiet {items : Items} (hword : items.cap < 2 ^ 64) (room : Nat) :
    QuietScan (scan items room) := by
  refine ⟨?_, (scan_accepts hword room).shrinks⟩
  induction room with
  | zero => exact fun data tokens h => scanItem_quiet (by simp) data tokens h
  | succ room ih =>
    refine fun data tokens h => scanItem_quiet ?_ data tokens h
    rintro child ⟨⟩
    exact ⟨ih, (scan_accepts hword room).shrinks⟩

@[simp] theorem quiet_item (data : Bytes) : Quiet (item data) :=
  (quiet_head data).bind fun _ _ => by simp

end Ureth.Source.B2.Cbor
