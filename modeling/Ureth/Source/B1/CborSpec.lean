import Ureth.Source.B1.Cbor

/-!
# What the B1 scanner accepts

`scan` accepts exactly the strings that start with the encoding of a tree whose
nodes meet the rules of the mode, and counts its items. Every later result about
B1 items is stated on trees: `itemOf t` is the item of the tree `t`, and the
item methods are computed on it.
-/

namespace Ureth.Source.B1.Cbor
open Ureth.Foundation
open Ureth.Foundation.Cbor (Value readHead)

theorem headArg_eq_ok {ai n : Nat} {data rest : Bytes} :
    headArg ai data = .ok (n, rest) ↔
      (ai < 24 ∧ n = ai ∧ rest = data) ∨
      (24 ≤ ai ∧ ai < 28 ∧ 2 ^ (ai - 24) ≤ data.length ∧
        n = beNat (data.take (2 ^ (ai - 24))) ∧ rest = data.drop (2 ^ (ai - 24))) := by
  unfold headArg
  split
  next h =>
    simp only [Except.ok.injEq, Prod.mk.injEq]
    constructor
    · rintro ⟨rfl, rfl⟩
      exact .inl ⟨h, rfl, rfl⟩
    · rintro (⟨_, rfl, rfl⟩ | ⟨h', _⟩)
      · exact ⟨rfl, rfl⟩
      · omega
  next h =>
    split
    next h' =>
      rw [uint_eq_ok]
      constructor
      · rintro ⟨v, hlen, rfl, rfl⟩
        refine .inr ⟨by omega, h', by simp [hlen], ?_, ?_⟩
        · rw [List.take_left' hlen]
        · rw [List.drop_left' hlen]
      · rintro (⟨h'', _⟩ | ⟨_, _, hlen, rfl, rfl⟩)
        · omega
        · exact ⟨data.take (2 ^ (ai - 24)), by rw [List.length_take]; omega, rfl,
            (List.take_append_drop _ _).symm⟩
    next h' =>
      have hbad : (if ai < 31 then (Res.fail .canonical : Res Malformed (Nat × Bytes))
          else Res.fail .cbor) = .ok (n, rest) ↔ False := by
        split <;> simp
      rw [hbad]
      constructor
      · exact False.elim
      · rintro (⟨h'', _⟩ | ⟨_, h'', _⟩) <;> omega

/-- `head` reads exactly the shortest heads. -/
theorem head_eq_ok {data rest : Bytes} {m n : Nat} :
    head data = .ok (m, n, rest) ↔ readHead data = some (m, n, rest) := by
  unfold head
  cases data with
  | nil =>
    have : uint 1 [] = Res.fail .truncated := rfl
    simp [this, readHead]
  | cons first tail =>
    have hone : uint 1 (first :: tail) = .ok (first.toNat, tail) :=
      uint_eq_ok.mpr ⟨[first], rfl, by simp [beNat], rfl⟩
    simp only [hone, Res.bind_ok, Res.bind_eq_ok, Prod.exists, headArg_eq_ok, Res.refuse_eq_ok,
      Res.pure_eq_ok, Prod.mk.injEq, exists_const, readHead]
    have hai : first.toNat % 32 < 32 := by omega
    generalize first.toNat % 32 = ai at *
    by_cases h24 : ai < 24
    · rw [if_pos h24]
      simp only [Option.some.injEq, Prod.mk.injEq]
      constructor
      · rintro ⟨a, b, ⟨-, rfl, rfl⟩ | ⟨h, -⟩, -, rfl, rfl, rfl⟩
        · exact ⟨rfl, rfl, rfl⟩
        · omega
      · rintro ⟨rfl, rfl, rfl⟩
        exact ⟨ai, tail, .inl ⟨h24, rfl, rfl⟩, by omega, rfl, rfl, rfl⟩
    · rw [if_neg h24]
      by_cases h28 : ai < 28
      · rw [if_pos h28]
        have hmin : ∀ k, ((ai = 24 ∧ k < 24) ∨ (ai = 25 ∧ k ≤ 255) ∨ (ai = 26 ∧ k ≤ 65535) ∨
            (ai = 27 ∧ k ≤ 2 ^ 32 - 1)) ↔ k < Foundation.Cbor.minArg ai := by
          intro k
          have : ai = 24 ∨ ai = 25 ∨ ai = 26 ∨ ai = 27 := by omega
          rcases this with rfl | rfl | rfl | rfl <;> simp [Foundation.Cbor.minArg] <;> omega
        simp only [hmin]
        constructor
        · rintro ⟨a, b, ⟨h, -⟩ | ⟨-, -, hlen, rfl, rfl⟩, hge, rfl, rfl, rfl⟩
          · omega
          · rw [if_neg (by omega)]
        · intro h
          split at h
          · simp at h
          next hok =>
            simp only [Option.some.injEq, Prod.mk.injEq] at h
            obtain ⟨rfl, rfl, rfl⟩ := h
            exact ⟨_, _, .inr ⟨by omega, h28, by omega, rfl, rfl⟩, by omega, rfl, rfl, rfl⟩
      · rw [if_neg h28]
        constructor
        · rintro ⟨a, b, ⟨h, -⟩ | ⟨-, h, -⟩, -⟩ <;> omega
        · simp

@[simp] theorem noPanic_head (data : Bytes) : (head data).NoPanic := by
  refine (noPanic_uint 1 data).bind fun a _ => ?_
  refine Res.FailsOnly.bind ?_ fun b _ => (Res.noPanic_refuse _ _).bind fun _ _ => by simp
  unfold headArg
  repeat' split
  all_goals simp

/-- The elements at even positions, the first element standing at position `i`. -/
def pick {α : Type} : Nat → List α → List α
  | _, [] => []
  | i, x :: xs => if i % 2 = 0 then x :: pick (i + 1) xs else pick (i + 1) xs

/-- The encoded keys of a map node. -/
def keysOf (t : Value) : List Bytes := (pick 0 t.kids).map Value.encode

/-- What the scan checks at one node. -/
structure NodeOk (strict utf8 : Bool) (t : Value) : Prop where
  fits : t.Fits
  text : t.major = 3 → (strict || utf8) = true → validUtf8 t.content = true
  keys : strict = true → t.major = 5 → t.arg ≤ 64 ∧ (keysOf t).Pairwise (· < ·)

/-- One level of the scan: the trees an item scanner accepts and what it returns. -/
def Accepts {ε : Type} (cap : Nat) (good : Value → Prop)
    (child : Bytes → Nat → Res ε (Bytes × Nat)) : Prop :=
  ∀ data tokens rest tokens', child data tokens = .ok (rest, tokens') ↔
    ∃ t, good t ∧ data = t.encode ++ rest ∧ tokens' = tokens + t.count ∧ tokens' ≤ cap

/-- A strictly increasing list goes on with a key above its last one. -/
theorem pairwise_snoc {keys : List Bytes} {key : Bytes} (hk : keys.Pairwise (· < ·))
    (habove : ∀ last ∈ keys.getLast?, last < key) : (keys ++ [key]).Pairwise (· < ·) := by
  refine List.pairwise_append.mpr ⟨hk, List.pairwise_singleton _ _, ?_⟩
  intro k hkmem k' hk'
  obtain rfl := List.mem_singleton.mp hk'
  cases hget : keys.getLast? with
  | none => simp [List.getLast?_eq_none_iff.mp hget] at hkmem
  | some last =>
    have hlast := habove last hget
    obtain ⟨init, rfl⟩ := List.getLast?_eq_some_iff.mp hget
    rcases List.mem_append.mp hkmem with hin | hin
    · exact List.lt_trans ((List.pairwise_append.mp hk).2.2 k hin last (by simp)) hlast
    · rw [List.mem_singleton.mp hin]
      exact hlast

/-- In a strictly increasing list a new last key is accepted exactly when it is
above the previous one; the membership test adds nothing. -/
theorem pairwise_append_singleton {keys : List Bytes} {key : Bytes}
    (hk : keys.Pairwise (· < ·)) :
    (keys ++ [key]).Pairwise (· < ·) ↔
      ¬ (key ∈ keys ∨ keys.getLast?.any (fun last => key ≤ last) = true) := by
  constructor
  · intro hpairs
    have hlt : ∀ k ∈ keys, k < key := fun k hk => (List.pairwise_append.mp hpairs).2.2 k hk key (by simp)
    rintro (hmem | hlast)
    · exact List.lt_irrefl _ (hlt key hmem)
    · rw [Option.any_eq_true] at hlast
      obtain ⟨last, hget, hle⟩ := hlast
      have hin : last ∈ keys := List.mem_of_getLast? hget
      exact absurd (hlt last hin) (not_lt.mpr (of_decide_eq_true hle))
  · intro hno
    refine pairwise_snoc hk fun last hget => ?_
    by_contra hnot
    rw [Option.mem_def] at hget
    exact hno (.inr (by simpa [hget] using hnot))

@[simp] theorem consumed_append {ε : Type} (a rest : Bytes) :
    (consumed (a ++ rest) rest : Res ε Bytes) = .ok a := by
  simp [consumed, Res.sub]

/-- The keys met so far, then those of the remaining items, are in order and few. -/
def KeysOk (keyed : Bool) (keys : List Bytes) : Prop :=
  keyed = true → keys.Pairwise (· < ·) ∧ keys.length ≤ 64

theorem KeysOk.of_append {keyed : Bool} {keys more : List Bytes} (h : KeysOk keyed (keys ++ more)) :
    KeysOk keyed keys := by
  intro hk
  obtain ⟨hp, hl⟩ := h hk
  rw [List.length_append] at hl
  exact ⟨(List.pairwise_append.mp hp).1, by omega⟩

/-- The loop accepts a run of accepted items whose keys continue the table. -/
theorem scanChildren_eq_ok {cap : Nat} {good : Value → Prop} {child : Scan} {keyed : Bool}
    (hchild : Accepts cap good child) (count i : Nat) (keys : List Bytes) (data : Bytes)
    (tokens : Nat) (rest : Bytes) (tokens' : Nat) (htok : tokens ≤ cap)
    (hkeys : KeysOk keyed keys) :
    scanChildren child keyed count i keys data tokens = .ok (rest, tokens') ↔
      ∃ ts : List Value, ts.length = count ∧ (∀ t ∈ ts, good t) ∧
        data = Value.encodeAll ts ++ rest ∧ tokens' = tokens + Value.countAll ts ∧ tokens' ≤ cap ∧
        KeysOk keyed (keys ++ (pick i ts).map Value.encode) := by
  induction count generalizing i keys data tokens with
  | zero =>
    simp only [scanChildren, Except.ok.injEq, Prod.mk.injEq]
    constructor
    · rintro ⟨rfl, rfl⟩
      exact ⟨[], rfl, by simp, by simp, by simp, htok, by simpa [pick] using hkeys⟩
    · rintro ⟨ts, hlen, -, rfl, rfl, -, -⟩
      rw [List.eq_nil_of_length_eq_zero hlen]
      simp
  | succ count ih =>
    rw [scanChildren, Res.bind_eq_ok]
    constructor
    · rintro ⟨⟨mid, tok⟩, hfirst, hloop⟩
      obtain ⟨t, hgood, rfl, rfl, hcap⟩ := (hchild _ _ _ _).mp hfirst
      dsimp only at hloop
      split at hloop
      next heven =>
        simp only [Bool.and_eq_true, decide_eq_true_eq] at heven
        simp only [consumed_append, Res.bind_ok, Res.bind_eq_ok, Res.refuse_eq_ok,
          exists_const] at hloop
        obtain ⟨hnew, hloop⟩ := hloop
        split at hloop
        next hfew =>
          have hp := (pairwise_append_singleton (hkeys heven.1).1).mpr hnew
          have hkeys' : KeysOk keyed (keys ++ [t.encode]) := fun _ =>
            ⟨hp, by simp only [List.length_append, List.length_singleton]; omega⟩
          obtain ⟨ts, hlen, hall, rfl, rfl, hcap', hk⟩ := (ih _ _ _ _ hcap hkeys').mp hloop
          refine ⟨t :: ts, by simp [hlen], by simpa using ⟨hgood, hall⟩, by simp, ?_, hcap', ?_⟩
          · simp only [Value.countAll_cons]
            omega
          · simpa [pick, heven.2] using hk
        next => simp at hloop
      next hodd =>
        obtain ⟨ts, hlen, hall, rfl, rfl, hcap', hk⟩ := (ih _ _ _ _ hcap hkeys).mp hloop
        refine ⟨t :: ts, by simp [hlen], by simpa using ⟨hgood, hall⟩, by simp, ?_, hcap', ?_⟩
        · simp only [Value.countAll_cons]
          omega
        · intro hkeyed
          have hi : ¬ i % 2 = 0 := by simpa [hkeyed] using hodd
          simpa [pick, hi] using hk hkeyed
    · rintro ⟨ts, hlen, hall, rfl, rfl, hcap, hk⟩
      cases ts with
      | nil => simp at hlen
      | cons t ts =>
        simp only [Value.countAll_cons] at hcap
        refine ⟨(Value.encodeAll ts ++ rest, tokens + t.count), ?_, ?_⟩
        · exact (hchild _ _ _ _).mpr ⟨t, hall t (by simp), by simp, rfl, by omega⟩
        · dsimp only
          have hts : ∀ u ∈ ts, good u := fun u hu => hall u (by simp [hu])
          have hsum : tokens + Value.countAll (t :: ts) = tokens + t.count + Value.countAll ts := by
            simp only [Value.countAll_cons]
            omega
          split
          next heven =>
            simp only [Bool.and_eq_true, decide_eq_true_eq] at heven
            have hk' : KeysOk keyed ((keys ++ [t.encode]) ++ (pick (i + 1) ts).map Value.encode) := by
              simpa [pick, heven.2] using hk
            obtain ⟨hp, hl⟩ := hk'.of_append heven.1
            have hnew := (pairwise_append_singleton (hkeys heven.1).1).mp hp
            rw [List.length_append, List.length_singleton] at hl
            simp only [Value.encodeAll_cons, List.append_assoc, consumed_append, Res.bind_ok,
              Res.refuse_of_not hnew]
            rw [if_pos (by omega)]
            exact (ih _ _ _ _ (by omega) hk'.of_append).mpr
              ⟨ts, by simpa using hlen, hts, rfl, hsum, by omega, hk'⟩
          next hodd =>
            refine (ih _ _ _ _ (by omega) hkeys).mpr
              ⟨ts, by simpa using hlen, hts, rfl, hsum, by omega, ?_⟩
            intro hkeyed
            have hi : ¬ i % 2 = 0 := by simpa [hkeyed] using hodd
            simpa [pick, hi] using hk hkeyed

theorem childCount_eq_ok {m n c : Nat} (h5 : m = 5 → n * 2 < 2 ^ 64) :
    childCount m n = .ok c ↔ c = if m = 5 then n * 2 else if m = 6 then 1 else n := by
  unfold childCount
  split
  next h =>
    rw [Res.u64_eq_ok]
    exact ⟨fun h => h.2.symm, fun hc => ⟨h5 h, hc.symm⟩⟩
  next h =>
    rw [Except.ok.injEq]
    exact eq_comm

/-- The guard on simple values never refuses an encoded tree. -/
theorem simple_guard_encode (t : Value) (rest : Bytes) :
    ¬ ((t.encode ++ rest).head?.any (fun b => b.toNat / 32 = 7 && b ≠ 0xf6) = true) := by
  by_cases h7 : t.major = 7
  · obtain rfl : t = .null := by cases t <;> simp at h7 ⊢
    simp [Value.encode, Foundation.Cbor.head]
  · obtain ⟨b, hb, hm⟩ := Foundation.Cbor.head?_head_append t.major t.arg (t.content ++ rest) t.major_lt
    rw [Value.encode_eq, List.append_assoc, hb]
    simp [hm, h7]

/-- The trees one level of a scan accepts: a rule at the node, and below it what the next level accepts,
if there is one. -/
structure LevelOk (node : Value → Prop) (last : Bool) (good : Value → Prop) (t : Value) : Prop where
  node : node t
  kids : ∀ u ∈ t.kids, good u
  flat : last = true → t.height = 0

/-- Levels that accept one tree deeper each, together. -/
theorem accepts_of_levels {ε : Type} {cap : Nat} {node : Value → Prop} {scan : Nat → Bytes → Nat → Res ε (Bytes × Nat)}
    (hlast : Accepts cap (LevelOk node true fun _ => False) (scan 0))
    (hnext : ∀ room good, Accepts cap good (scan room) → Accepts cap (LevelOk node false good) (scan (room + 1)))
    (room : Nat) : Accepts cap (fun t => t.height ≤ room ∧ Value.All node t) (scan room) := by
  induction room with
  | zero =>
    intro data tokens rest tokens'
    rw [hlast]
    refine exists_congr fun t => and_congr_left fun _ => ?_
    beta_reduce
    rw [Value.all_iff, Nat.le_zero]
    constructor
    · rintro ⟨hnode, hno, hh⟩
      exact ⟨hh rfl, hnode, fun u hu => (hno u hu).elim⟩
    · rintro ⟨hh, hnode, -⟩
      exact ⟨hnode, fun u hu => by have := Value.height_kid_lt hu; omega, fun _ => hh⟩
  | succ room ih =>
    intro data tokens rest tokens'
    rw [hnext room _ ih]
    refine exists_congr fun t => and_congr_left fun _ => ?_
    beta_reduce
    rw [Value.all_iff]
    constructor
    · rintro ⟨hnode, hall, -⟩
      refine ⟨?_, hnode, fun u hu => (hall u hu).2⟩
      have hkids := Value.heightAll_le fun u hu => (hall u hu).1
      cases t <;> simp only [Value.height, Value.kids, Value.heightAll_cons, Value.heightAll_nil] at * <;>
        omega
    · rintro ⟨hh, hnode, hall⟩
      exact ⟨hnode, fun u hu => ⟨by have := Value.height_kid_lt hu; omega, hall u hu⟩, by simp⟩

/-- A container read by the loop: the count of its head and the items found. -/
theorem scanItem_container {cap : Nat} {strict utf8 : Bool} {child : Scan} {good : Value → Prop}
    (hchild : Accepts cap good child) (m n : Nat) (data : Bytes) (tokens : Nat) (rest : Bytes)
    (tokens' : Nat) (hn : n < 2 ^ 64) (hm : 4 ≤ m ∧ m ≤ 6) (htok : tokens ≤ cap)
    (hrun : (do
      Res.refuse (m = 5 ∧ strict = true ∧ n > 64) Malformed.limit
      Res.refuse (m = 5 ∧ n > data.length) Malformed.truncated
      let count ← childCount m n
      Res.refuse (count > data.length) Malformed.truncated
      scanChildren child (strict && m = 5) count 0 [] data tokens) = .ok (rest, tokens')) :
    ∃ t : Value, LevelOk (NodeOk strict utf8) false good t ∧ t.major = m ∧ t.arg = n ∧
      data = t.content ++ rest ∧ tokens' + 1 = tokens + t.count ∧ tokens' ≤ cap := by
  simp only [Res.bind_eq_ok, Res.refuse_eq_ok, exists_const] at hrun
  obtain ⟨hstrict, -, count, hcount, -, hloop⟩ := hrun
  obtain ⟨ts, hlen, hall, rfl, rfl, hcap, hkeys⟩ :=
    (scanChildren_eq_ok hchild _ _ _ _ _ _ _ htok (by simp [KeysOk])).mp hloop
  have hcases : m = 4 ∨ m = 5 ∨ m = 6 := by omega
  rcases hcases with rfl | rfl | rfl
  · have hc : count = n := by simpa [childCount] using hcount.symm
    have hts : ts.length = n := by omega
    refine ⟨.array ts, ⟨⟨⟨by simpa [hts] using hn, by simp⟩,
      by simp, by simp⟩, hall, by simp⟩, rfl, hts, by simp,
      by simp only [Value.count]; omega, hcap⟩
  · have hc : count = n * 2 := by
      simp only [childCount, if_true, Res.u64_eq_ok] at hcount
      omega
    have harg : ts.length / 2 = n := by omega
    refine ⟨.map ts, ⟨⟨⟨by simpa [harg] using hn, by simp; omega⟩,
      by simp, fun hs _ => ?_⟩, hall, by simp⟩, rfl, harg, by simp,
      by simp only [Value.count]; omega, hcap⟩
    have hk := hkeys (by simp [hs])
    simp only [List.nil_append] at hk
    refine ⟨?_, hk.1⟩
    simp only [Value.arg]
    simp [hs] at hstrict
    omega
  · have hc : count = 1 := by simpa [childCount] using hcount.symm
    obtain ⟨u, rfl⟩ := List.length_eq_one_iff.mp (hlen.trans hc)
    refine ⟨.tag n u, ⟨⟨⟨hn, by simp⟩, by simp, by simp⟩,
      hall, by simp⟩, rfl, rfl, by simp,
      by simp only [Value.count, Value.countAll_cons, Value.countAll_nil]; omega, hcap⟩

/-- The converse of `scanItem_container`. -/
theorem scanItem_container_of {cap : Nat} {strict utf8 : Bool} {child : Scan} {good : Value → Prop}
    (hchild : Accepts cap good child) (t : Value) (tokens : Nat) (rest : Bytes)
    (hmajor : 4 ≤ t.major ∧ t.major ≤ 6) (hok : NodeOk strict utf8 t) (hall : ∀ u ∈ t.kids, good u)
    (hcap : tokens + t.count ≤ cap + 1) (htok : tokens ≤ cap) (hword : cap < 2 ^ 64) :
    (do
      Res.refuse (t.major = 5 ∧ strict = true ∧ t.arg > 64) Malformed.limit
      Res.refuse (t.major = 5 ∧ t.arg > (t.content ++ rest).length) Malformed.truncated
      let count ← childCount t.major t.arg
      Res.refuse (count > (t.content ++ rest).length) Malformed.truncated
      scanChildren child (strict && t.major = 5) count 0 [] (t.content ++ rest) tokens) =
      .ok (rest, tokens + t.count - 1) := by
  have hcontent := Value.content_eq_encodeAll (t := t) (by omega) (by omega)
  have hlen := Value.length_le_encodeAll t.kids
  have hcnt := Value.length_le_countAll t.kids
  have heven : t.major = 5 → t.kids.length = t.arg * 2 := by
    intro h5
    have := hok.fits.2 h5
    cases t <;> simp at h5
    simp only [Value.arg, Value.kids] at this ⊢
    omega
  rw [Value.count_eq] at hcap
  have hcount : childCount t.major t.arg = .ok t.kids.length := by
    rw [childCount_eq_ok (fun h5 => by have := heven h5; omega)]
    split
    next h5 => exact heven h5
    next =>
      cases t <;> simp at hmajor <;> simp_all
  have hkeyed : KeysOk (strict && t.major = 5) ([] ++ (pick 0 t.kids).map Value.encode) := by
    intro hk
    simp only [Bool.and_eq_true, decide_eq_true_eq] at hk
    obtain ⟨hle, hpair⟩ := hok.keys hk.1 hk.2
    refine ⟨by simpa [keysOf] using hpair, ?_⟩
    have hpick : ∀ (ts : List Value) (i : Nat), 2 * (pick i ts).length ≤ ts.length + 1 - i % 2 := by
      intro ts
      induction ts with
      | nil => simp [pick]
      | cons x xs ih =>
        intro i
        have := ih (i + 1)
        simp only [pick]
        split <;> simp only [List.length_cons] <;> omega
    have := hpick t.kids 0
    have := heven hk.2
    simp only [List.nil_append, List.length_map]
    omega
  simp only [hcount, Res.bind_ok, hcontent, List.length_append]
  rw [Res.refuse_of_not, Res.refuse_of_not, Res.refuse_of_not]
  · simp only [Res.bind_ok]
    refine (scanChildren_eq_ok hchild _ _ _ _ _ _ _ htok (by simp [KeysOk])).mpr
      ⟨t.kids, rfl, hall, rfl, ?_, ?_, hkeyed⟩
    · rw [Value.count_eq]
      omega
    · rw [Value.count_eq]
      omega
  · omega
  · rintro ⟨h5, hgt⟩
    have := heven h5
    omega
  · rintro ⟨h5, hs, hgt⟩
    have := (hok.keys hs h5).1
    omega

/-- One level of the scan, given what the level below accepts. -/
theorem scanItem_accepts {cap : Nat} {strict utf8 : Bool} {below : Option Scan}
    {good : Value → Prop} (hword : cap < 2 ^ 64)
    (hbelow : ∀ child, below = some child → Accepts cap good child) :
    Accepts cap (LevelOk (NodeOk strict utf8) below.isNone good) (scanItem cap strict utf8 below) := by
  intro data tokens rest tokens'
  unfold scanItem
  simp only [Res.bind_eq_ok, Res.u64_eq_ok, Res.refuse_eq_ok, exists_const, Prod.exists]
  constructor
  · rintro ⟨_, ⟨-, rfl⟩, hlim, -, m, n, data', hhead, hrun⟩
    obtain ⟨rfl, hm, hn⟩ := Foundation.Cbor.eq_head_of_readHead (head_eq_ok.mp hhead)
    split at hrun
    next h0 =>
      simp only [Except.ok.injEq, Prod.mk.injEq] at hrun
      obtain ⟨rfl, rfl⟩ := hrun
      subst h0
      exact ⟨.uint n, ⟨⟨⟨hn, by simp⟩, by simp, by simp⟩,
        by simp, by simp [Value.height]⟩, by simp [Value.encode], rfl, by omega⟩
    next h0 =>
      split at hrun
      next h23 =>
        simp only [Res.bind_eq_ok, Prod.exists, Res.refuse_eq_ok, exists_const, Res.pure_eq_ok, Prod.mk.injEq] at hrun
        obtain ⟨content, after, htake, htext, rfl, rfl⟩ := hrun
        obtain ⟨hlen, rfl⟩ := take_eq_ok.mp htake
        rcases h23 with rfl | rfl
        · exact ⟨.bytes content, ⟨⟨⟨by simpa [hlen] using hn, by simp⟩,
            by simp, by simp⟩, by simp,
            by simp [Value.height]⟩, by simp [Value.encode, hlen], rfl, by omega⟩
        · refine ⟨.text content, ⟨⟨⟨by simpa [hlen] using hn, by simp⟩,
            fun _ hmode => ?_, by simp⟩, by simp,
            by simp [Value.height]⟩, by simp [Value.encode, hlen], rfl, by omega⟩
          simpa [hmode] using htext
      next h23 =>
        split at hrun
        next h456 =>
          cases below with
          | none => simp at hrun
          | some child =>
            obtain ⟨t, hok, rfl, rfl, rfl, hsum, hcap⟩ := scanItem_container
              (hbelow child rfl) m n data' _ rest tokens' hn h456 (by omega) hrun
            refine ⟨t, hok, ?_, by omega, hcap⟩
            rw [Value.encode_eq, List.append_assoc]
        next h456 =>
          split at hrun
          next h7 =>
            simp only [Except.ok.injEq, Prod.mk.injEq] at hrun
            obtain ⟨rfl, rfl⟩ := hrun
            obtain ⟨rfl, rfl⟩ := h7
            exact ⟨.null, ⟨⟨⟨by simp, by simp⟩, by simp,
              by simp⟩, by simp, by simp [Value.height]⟩,
              by simp [Value.encode], rfl, by omega⟩
          next => simp at hrun
  · rintro ⟨t, ⟨hok, hall, hnone⟩, rfl, rfl, hcap⟩
    have hpos := t.count_pos
    refine ⟨_, ⟨by omega, rfl⟩, by omega, simple_guard_encode t rest, t.major, t.arg,
      t.content ++ rest, ?_, ?_⟩
    · rw [head_eq_ok, Value.encode_eq, List.append_assoc]
      exact Foundation.Cbor.readHead_head _ _ _ t.major_lt hok.fits.1
    · by_cases hm : 4 ≤ t.major ∧ t.major ≤ 6
      · obtain ⟨child, rfl⟩ : ∃ child, below = some child := by
          cases below with
          | none => cases t <;> simp [Value.height] at hnone hm
          | some child => exact ⟨child, rfl⟩
        rw [if_neg (by omega), if_neg (by omega), if_pos hm]
        have hrun := scanItem_container_of (hbelow child rfl) t (tokens + 1) rest hm hok hall (by omega) (by omega) hword
        rwa [show tokens + 1 + t.count - 1 = tokens + t.count by omega] at hrun
      · cases t with
        | uint n => simp [Value.count]
        | null => simp [Value.count]
        | bytes b =>
          have htake : take b.length (b ++ rest) = .ok (b, rest) := take_eq_ok.mpr ⟨rfl, rfl⟩
          simp [Value.count, htake, Res.refuse]
        | text b =>
          have htake : take b.length (b ++ rest) = .ok (b, rest) := take_eq_ok.mpr ⟨rfl, rfl⟩
          have hno : ¬ ((strict = true ∨ utf8 = true) ∧ validUtf8 b = false) := by
            rintro ⟨hmode, hbad⟩
            have := hok.text rfl (by simpa using hmode)
            simp [hbad] at this
          simp [Value.count, htake]
          rw [Res.refuse_of_not hno, Res.bind_ok]
        | _ => simp at hm

/-- The trees the whole scan accepts. -/
def Accepted (strict utf8 : Bool) (room : Nat) (t : Value) : Prop :=
  t.height ≤ room ∧ Value.All (NodeOk strict utf8) t

/-- The scan accepts exactly the strings that start with an accepted tree, within
the item budget. -/
theorem scan_accepts {cap : Nat} (strict utf8 : Bool) (hword : cap < 2 ^ 64) (room : Nat) :
    Accepts cap (Accepted strict utf8 room) (scan cap strict utf8 room) :=
  accepts_of_levels (scanItem_accepts hword (by simp))
    (fun _ _ ih => scanItem_accepts hword (by rintro child ⟨⟩; exact ih)) room

/-! Absence of panics in the scan itself: the item count stays below the bytes read. -/

/-- A scan from here cannot overflow the running count or a doubled pair count. A
slice holds at most `isize::MAX` bytes. -/
def Room (data : Bytes) (tokens : Nat) : Prop := tokens + data.length + 1 < 2 ^ 63

/-- An item scanner that fails only with errors of `P` where there is room, and keeps the room. -/
structure Calm {ε : Type} (P : ε → Prop) (child : Bytes → Nat → Res ε (Bytes × Nat)) : Prop where
  failsOnly : ∀ data tokens, Room data tokens → (child data tokens).FailsOnly P
  shrinks : ∀ data tokens rest tokens', child data tokens = .ok (rest, tokens') →
    rest.length ≤ data.length ∧ tokens' + rest.length ≤ tokens + data.length

theorem Accepts.shrinks {ε : Type} {cap : Nat} {good : Value → Prop}
    {child : Bytes → Nat → Res ε (Bytes × Nat)} (h : Accepts cap good child) (data : Bytes) (tokens : Nat) (rest : Bytes) (tokens' : Nat)
    (hok : child data tokens = .ok (rest, tokens')) :
    rest.length ≤ data.length ∧ tokens' + rest.length ≤ tokens + data.length := by
  obtain ⟨t, -, rfl, rfl, -⟩ := (h _ _ _ _).mp hok
  have := t.count_le_length
  simp only [List.length_append]
  omega

/-- The 64-slot key table is never overrun: a keyed loop makes at most 128 rounds. -/
theorem scanChildren_noPanic {child : Scan} {keyed : Bool} (hchild : Calm (fun _ => True) child) (count i : Nat)
    (keys : List Bytes) (data : Bytes) (tokens : Nat) (hroom : Room data tokens)
    (hkeys : keyed = true → keys.length = (i + 1) / 2 ∧ i + count ≤ 128) :
    (scanChildren child keyed count i keys data tokens).NoPanic := by
  induction count generalizing i keys data tokens with
  | zero => simp [scanChildren]
  | succ count ih =>
    rw [scanChildren]
    refine (hchild.failsOnly _ _ hroom).bind fun ⟨rest, tokens'⟩ hok => ?_
    obtain ⟨hle, hsum⟩ := hchild.shrinks _ _ _ _ hok
    have hroom' : Room rest tokens' := by
      unfold Room at hroom ⊢
      omega
    dsimp only
    split
    next heven =>
      simp only [Bool.and_eq_true, decide_eq_true_eq] at heven
      obtain ⟨hlen, hcount⟩ := hkeys heven.1
      refine Res.FailsOnly.bind ?_ fun key _ => ?_
      · exact (Res.noPanic_sub hle).bind fun _ _ => by simp
      refine (Res.noPanic_refuse _ _).bind fun _ _ => ?_
      rw [if_pos (by omega)]
      exact ih _ _ _ _ hroom' fun _ => by
        rw [List.length_append, List.length_singleton]
        omega
    next hodd =>
      refine ih _ _ _ _ hroom' fun hkeyed => ?_
      have hi : ¬ i % 2 = 0 := by simpa [hkeyed] using hodd
      have := hkeys hkeyed
      omega

theorem scanItem_noPanic {cap : Nat} {strict utf8 : Bool} {below : Option Scan}
    (hbelow : ∀ child, below = some child → Calm (fun _ => True) child) (data : Bytes) (tokens : Nat)
    (hroom : Room data tokens) : (scanItem cap strict utf8 below data tokens).NoPanic := by
  unfold Room at hroom
  unfold scanItem
  refine (Res.noPanic_u64 (by omega)).bind fun tokens' htok => ?_
  obtain ⟨-, rfl⟩ := Res.u64_eq_ok.mp htok
  refine (Res.noPanic_refuse _ _).bind fun _ _ => ?_
  refine (Res.noPanic_refuse _ _).bind fun _ _ => ?_
  refine (noPanic_head data).bind fun ⟨m, n, data'⟩ hhead => ?_
  obtain ⟨rfl, -, hn⟩ := Foundation.Cbor.eq_head_of_readHead (head_eq_ok.mp hhead)
  have hlen := Foundation.Cbor.head_length_pos m n
  rw [List.length_append] at hroom
  dsimp only
  split
  · simp
  · split
    · refine (noPanic_take _ _).bind fun _ _ => ?_
      exact (Res.noPanic_refuse _ _).bind fun _ _ => by simp
    · split
      · cases below with
        | none => simp
        | some child =>
          refine (Res.noPanic_refuse _ _).bind fun _ hstrict => ?_
          refine (Res.noPanic_refuse _ _).bind fun _ hpairs => ?_
          rw [Res.refuse_eq_ok] at hstrict hpairs
          refine Res.FailsOnly.bind ?_ fun count hcount => ?_
          · unfold childCount
            split
            next h5 => exact Res.noPanic_u64 (by omega)
            next => simp
          refine (Res.noPanic_refuse _ _).bind fun _ _ => ?_
          refine scanChildren_noPanic (hbelow child rfl) _ _ _ _ _ (by unfold Room; omega) ?_
          intro hkeyed
          simp only [Bool.and_eq_true, decide_eq_true_eq] at hkeyed
          obtain ⟨hs, rfl⟩ := hkeyed
          simp only [childCount, if_true, Res.u64_eq_ok] at hcount
          simp only [hs, true_and] at hstrict
          exact ⟨rfl, by omega⟩
      · split <;> simp

theorem scan_calm {cap : Nat} (strict utf8 : Bool) (hword : cap < 2 ^ 64) (room : Nat) :
    Calm (fun _ => True) (scan cap strict utf8 room) := by
  refine ⟨?_, (scan_accepts strict utf8 hword room).shrinks⟩
  induction room with
  | zero => exact fun data tokens h => scanItem_noPanic (by simp) data tokens h
  | succ room ih =>
    refine fun data tokens h => scanItem_noPanic ?_ data tokens h
    rintro child ⟨⟩
    exact ⟨ih, (scan_accepts strict utf8 hword room).shrinks⟩

@[simp] theorem noPanic_item (data : Bytes) : (item data).NoPanic :=
  (noPanic_head data).bind fun _ _ => by simp

theorem oneWith_noPanic {cap : Nat} (strict utf8 : Bool) (hword : cap < 2 ^ 64) (data : Bytes)
    (tokens : Nat) (hroom : Room data tokens) : (oneWith strict utf8 data tokens cap).NoPanic := by
  refine ((scan_calm strict utf8 hword _).failsOnly _ _ hroom).bind fun _ _ => ?_
  refine (Res.noPanic_refuse _ _).bind fun _ _ => ?_
  exact (noPanic_item data).bind fun _ _ => by simp

/-! Items of accepted scans. -/

/-- The item of a tree. -/
def itemOf (t : Value) : Item where
  raw := t.encode
  major := t.major
  arg := t.arg
  data := t.content

@[simp] theorem itemOf_raw (t : Value) : (itemOf t).raw = t.encode := rfl
@[simp] theorem itemOf_major (t : Value) : (itemOf t).major = t.major := rfl
@[simp] theorem itemOf_arg (t : Value) : (itemOf t).arg = t.arg := rfl
@[simp] theorem itemOf_data (t : Value) : (itemOf t).data = t.content := rfl

theorem item_encode {t : Value} (h : t.Fits) : item t.encode = .ok (itemOf t) := by
  have hhead : head t.encode = .ok (t.major, t.arg, t.content) := by
    rw [head_eq_ok, Value.encode_eq]
    exact Foundation.Cbor.readHead_head _ _ _ t.major_lt h.1
  simp [item, hhead, itemOf]

/-- What any accepted scan knows of its tree, whatever its rules: enough to rescan
the tree and everything below it without a ceiling. -/
structure Scannable (t : Value) : Prop where
  fits : Value.All Value.Fits t
  shallow : t.height ≤ maxDepth
  few : t.count < 2 ^ 64

theorem Scannable.kid {t u : Value} (h : Scannable t) (hu : u ∈ t.kids) : Scannable u := by
  refine ⟨h.fits.kid hu, ?_, ?_⟩
  · have := Value.height_kid_lt hu
    have := h.shallow
    omega
  · have hle : ∀ ts : List Value, u ∈ ts → u.count ≤ Value.countAll ts := by
      intro ts
      induction ts with
      | nil => simp
      | cons v vs ih =>
        intro hmem
        rcases List.mem_cons.mp hmem with rfl | hmem
        · simp
        · have := ih hmem
          simp only [Value.countAll_cons]
          omega
    have := hle _ hu
    have := h.few
    rw [Value.count_eq] at this
    omega

theorem Accepted.scannable {strict utf8 : Bool} {t : Value}
    (h : Accepted strict utf8 maxDepth t) (hcount : t.count < 2 ^ 64) : Scannable t :=
  ⟨h.2.imp fun _ hn => hn.fits, h.1, hcount⟩

theorem Scannable.accepted {t : Value} (h : Scannable t) : Accepted false false maxDepth t :=
  ⟨h.shallow, h.fits.imp fun _ hf => ⟨hf, by simp, by simp⟩⟩

/-- A complete scan returns the item of the one tree its bytes encode. -/
theorem oneWith_eq_ok {cap : Nat} {strict utf8 : Bool} (hword : cap < 2 ^ 64) {data : Bytes}
    {tokens tokens' : Nat} {it : Item} :
    oneWith strict utf8 data tokens cap = .ok (it, tokens') ↔
      ∃ t, Accepted strict utf8 maxDepth t ∧ data = t.encode ∧ it = itemOf t ∧
        tokens' = tokens + t.count ∧ tokens' ≤ cap := by
  unfold oneWith
  simp only [Res.bind_eq_ok, Prod.exists, Res.refuse_eq_ok, exists_const, not_not, Res.pure_eq_ok, Prod.mk.injEq]
  constructor
  · rintro ⟨rest, tok, hscan, rfl, it', hitem, rfl, rfl⟩
    obtain ⟨t, hacc, rfl, rfl, hcap⟩ := (scan_accepts strict utf8 hword _ _ _ _ _).mp hscan
    rw [List.append_nil, item_encode hacc.2.root.fits] at hitem
    exact ⟨t, hacc, by simp, (Except.ok.inj hitem).symm, rfl, hcap⟩
  · rintro ⟨t, hacc, rfl, rfl, rfl, hcap⟩
    refine ⟨[], _, (scan_accepts strict utf8 hword _ _ _ _ _).mpr
      ⟨t, hacc, by simp, rfl, hcap⟩, rfl, itemOf t, item_encode hacc.2.root.fits, rfl, rfl⟩

theorem usizeMax_lt : usizeMax < 2 ^ 64 := by
  unfold usizeMax
  omega

theorem maxItems_lt : maxItems < 2 ^ 64 := by
  unfold maxItems
  omega

/-- Iterating over the encodings of scannable trees returns their items. -/
theorem childrenOf_encodeAll {ε : Type} (fuel : Nat) (ts : List Value)
    (hts : ∀ t ∈ ts, Scannable t) (hfuel : ts.length ≤ fuel) :
    (childrenOf fuel (Value.encodeAll ts) : Res ε (List Item)) = .ok (ts.map itemOf) := by
  induction ts generalizing fuel with
  | nil => cases fuel <;> simp [childrenOf]
  | cons t ts ih =>
    obtain ⟨fuel, rfl⟩ : ∃ k, fuel = k + 1 := ⟨fuel - 1, by simp at hfuel; omega⟩
    have ht := hts t (by simp)
    obtain ⟨b, tail, hcons⟩ := List.exists_cons_of_ne_nil
      (show Value.encodeAll (t :: ts) ≠ [] by simp [Value.encode_ne_nil])
    have hscan : scan usizeMax false false maxDepth (Value.encodeAll (t :: ts)) 0 =
        .ok (Value.encodeAll ts, t.count) :=
      (scan_accepts false false usizeMax_lt _ _ _ _ _).mpr
        ⟨t, ht.accepted, by simp, by simp, by have := ht.few; unfold usizeMax; omega⟩
    have hraw : (consumed (Value.encodeAll (t :: ts)) (Value.encodeAll ts) : Res ε Bytes) =
        .ok t.encode := by
      rw [Value.encodeAll_cons, consumed_append]
    rw [hcons] at hscan hraw ⊢
    rw [childrenOf, hscan]
    simp [Res.expect, hraw, item_encode ht.fits.root,
      ih fuel (fun u hu => hts u (by simp [hu])) (by simpa using hfuel)]

/-- The children of an item other than a string are its subtrees, in order. -/
theorem children_itemOf {ε : Type} {t : Value} (h : Scannable t) (h2 : t.major ≠ 2)
    (h3 : t.major ≠ 3) : ((itemOf t).children : Res ε (List Item)) = .ok (t.kids.map itemOf) := by
  have hall : ∀ u ∈ t.kids, Scannable u := fun u hu => h.kid hu
  have hcontent := Value.content_eq_encodeAll h2 h3
  unfold Item.children
  split
  next hnull =>
    have : t.major = 7 := by
      simp only [Item.null, itemOf_major, Bool.and_eq_true] at hnull
      exact of_decide_eq_true hnull.1
    cases t <;> simp at this
    simp
  next =>
    rw [itemOf_data, hcontent]
    exact childrenOf_encodeAll _ _ hall (Value.length_le_encodeAll _)

end Ureth.Source.B1.Cbor
