import Ureth.Foundation.Bytes

/-!
# Deterministic CBOR as trees

The values of the grammar (unsigned integers, byte and text strings, arrays,
maps, tags and null) and their one deterministic encoding: shortest heads and
definite lengths. The encoding is prefix-free, so a byte string starts with at
most one value. A map is the list of its keys and values in turn; the rules that
differ between decoders (key order, text, sizes) are predicates on nodes and are
not part of the tree.
-/

namespace Ureth.Foundation.Cbor

/-- The shortest head of a major type and its argument. -/
def head (major n : Nat) : Bytes :=
  if n < 24 then [UInt8.ofNat (32 * major + n)]
  else if n < 2 ^ 8 then UInt8.ofNat (32 * major + 24) :: beBytes 1 n
  else if n < 2 ^ 16 then UInt8.ofNat (32 * major + 25) :: beBytes 2 n
  else if n < 2 ^ 32 then UInt8.ofNat (32 * major + 26) :: beBytes 4 n
  else UInt8.ofNat (32 * major + 27) :: beBytes 8 n

/-- The least argument whose shortest head has additional information `ai`. -/
def minArg : Nat → Nat
  | 24 => 24
  | 25 => 2 ^ 8
  | 26 => 2 ^ 16
  | _ => 2 ^ 32

/-- Reading a shortest head: major type, argument and what follows. -/
def readHead : Bytes → Option (Nat × Nat × Bytes)
  | [] => none
  | first :: rest =>
    let ai := first.toNat % 32
    if ai < 24 then some (first.toNat / 32, ai, rest)
    else if ai < 28 then
      let width := 2 ^ (ai - 24)
      let n := beNat (rest.take width)
      if rest.length < width ∨ n < minArg ai then none
      else some (first.toNat / 32, n, rest.drop width)
    else none

private theorem ofNat_toNat_split (x : UInt8) (m ai : Nat) (hm : x.toNat / 32 = m)
    (ha : x.toNat % 32 = ai) : UInt8.ofNat (32 * m + ai) = x := by
  apply UInt8.toNat.inj
  have := x.toNat_lt
  rw [UInt8.toNat_ofNat']
  omega

private theorem toNat_ofNat_head (m ai : Nat) (hm : m < 8) (ha : ai < 32) :
    (UInt8.ofNat (32 * m + ai)).toNat = 32 * m + ai := by
  rw [UInt8.toNat_ofNat']
  omega

private theorem readHead_wide (m ai n : Nat) (rest : Bytes) (hm : m < 8) (hlo : 24 ≤ ai)
    (hhi : ai < 28) (hmin : minArg ai ≤ n) (hn : n < 256 ^ 2 ^ (ai - 24)) :
    readHead (UInt8.ofNat (32 * m + ai) :: (beBytes (2 ^ (ai - 24)) n ++ rest)) =
      some (m, n, rest) := by
  have hmod : (UInt8.ofNat (32 * m + ai)).toNat % 32 = ai := by
    rw [toNat_ofNat_head m ai hm (by omega)]
    omega
  have hdiv : (UInt8.ofNat (32 * m + ai)).toNat / 32 = m := by
    rw [toNat_ofNat_head m ai hm (by omega)]
    omega
  have htake : (beBytes (2 ^ (ai - 24)) n ++ rest).take (2 ^ (ai - 24)) =
      beBytes (2 ^ (ai - 24)) n :=
    List.take_left' (beBytes_length _ _)
  have hdrop : (beBytes (2 ^ (ai - 24)) n ++ rest).drop (2 ^ (ai - 24)) = rest :=
    List.drop_left' (beBytes_length _ _)
  have hval : beNat (beBytes (2 ^ (ai - 24)) n) = n := by
    rw [beNat_beBytes, Nat.mod_eq_of_lt hn]
  simp only [readHead, hmod, hdiv, htake, hdrop, hval]
  rw [if_neg (by omega), if_pos hhi, if_neg]
  simp only [List.length_append, beBytes_length]
  omega

theorem readHead_head (m n : Nat) (rest : Bytes) (hm : m < 8) (hn : n < 2 ^ 64) :
    readHead (head m n ++ rest) = some (m, n, rest) := by
  unfold head
  split
  next h24 =>
    have hb := toNat_ofNat_head m n hm (by omega)
    simp only [List.singleton_append, readHead, hb]
    rw [if_pos (by omega)]
    simp only [Option.some.injEq, Prod.mk.injEq, and_true]
    omega
  next h24 =>
    split
    next h => exact readHead_wide m 24 n rest hm (by omega) (by omega) (by simp [minArg]; omega) h
    next h =>
      split
      next h' => exact readHead_wide m 25 n rest hm (by omega) (by omega) (by simp [minArg]; omega) h'
      next h' =>
        split
        next h'' =>
          exact readHead_wide m 26 n rest hm (by omega) (by omega) (by simp [minArg]; omega) h''
        next h'' =>
          exact readHead_wide m 27 n rest hm (by omega) (by omega) (by simp [minArg]; omega)
            (by simpa using hn)

private theorem head_wide (m n ai : Nat) (hlo : 24 ≤ ai) (hhi : ai < 28) (hmin : minArg ai ≤ n)
    (hn : n < 256 ^ 2 ^ (ai - 24)) :
    head m n = UInt8.ofNat (32 * m + ai) :: beBytes (2 ^ (ai - 24)) n := by
  have hcases : ai = 24 ∨ ai = 25 ∨ ai = 26 ∨ ai = 27 := by omega
  rcases hcases with rfl | rfl | rfl | rfl <;> simp only [minArg] at hmin <;> unfold head
  · rw [if_neg (by omega), if_pos (by simpa using hn)]
    rfl
  · rw [if_neg (by omega), if_neg (by omega), if_pos (by simpa using hn)]
    rfl
  · rw [if_neg (by omega), if_neg (by omega), if_neg (by omega), if_pos (by simpa using hn)]
    rfl
  · rw [if_neg (by omega), if_neg (by omega), if_neg (by omega), if_neg (by omega)]
    rfl

/-- Only the shortest head of an argument is read back to it. -/
theorem eq_head_of_readHead {data rest : Bytes} {m n : Nat}
    (h : readHead data = some (m, n, rest)) :
    data = head m n ++ rest ∧ m < 8 ∧ n < 2 ^ 64 := by
  cases data with
  | nil => simp [readHead] at h
  | cons first tail =>
    have hfirst := first.toNat_lt
    simp only [readHead] at h
    split at h
    next hai =>
      simp only [Option.some.injEq, Prod.mk.injEq] at h
      obtain ⟨hm, hn, rfl⟩ := h
      refine ⟨?_, by omega, by omega⟩
      rw [head, if_pos (by omega), ofNat_toNat_split first m n hm hn]
      rfl
    next hai =>
      split at h
      next hai' =>
        split at h
        next => simp at h
        next hbad =>
          simp only [Option.some.injEq, Prod.mk.injEq] at h
          obtain ⟨hm, hn, rfl⟩ := h
          have hwidth : 2 ^ (first.toNat % 32 - 24) ≤ tail.length := by omega
          have hmin : minArg (first.toNat % 32) ≤ n := by omega
          have hlen : (tail.take (2 ^ (first.toNat % 32 - 24))).length =
              2 ^ (first.toNat % 32 - 24) := by
            rw [List.length_take]
            omega
          have hlt : n < 256 ^ 2 ^ (first.toNat % 32 - 24) := by
            have := beNat_lt (tail.take (2 ^ (first.toNat % 32 - 24)))
            rwa [hlen, hn] at this
          have hpow : 256 ^ 2 ^ (first.toNat % 32 - 24) ≤ 2 ^ 64 := by
            have hle : 2 ^ (first.toNat % 32 - 24) ≤ 2 ^ 3 :=
              Nat.pow_le_pow_right (by omega) (by omega)
            exact le_trans (Nat.pow_le_pow_right (by omega) hle) (by norm_num)
          have hbytes : beBytes (2 ^ (first.toNat % 32 - 24)) n =
              tail.take (2 ^ (first.toNat % 32 - 24)) := by
            have := beBytes_beNat (tail.take (2 ^ (first.toNat % 32 - 24)))
            rwa [hlen, hn] at this
          refine ⟨?_, by omega, by omega⟩
          rw [head_wide m n _ (by omega) hai' hmin hlt, ofNat_toNat_split first m _ hm rfl,
            hbytes, List.cons_append, List.take_append_drop]
      next => simp at h

/-- A string is a head exactly when it reads back to it with nothing left. -/
theorem readHead_eq_nil {data : Bytes} {m n : Nat} (hm : m < 8) (hn : n < 2 ^ 64) :
    readHead data = some (m, n, []) ↔ data = head m n := by
  constructor
  · intro h
    simpa using (eq_head_of_readHead h).1
  · rintro rfl
    simpa using readHead_head m n [] hm hn

/-- A head with its argument after the initial byte. -/
theorem readHead_cons_wide {x : UInt8} {b : Bytes} {m n : Nat} (hlo : 24 ≤ x.toNat % 32)
    (hhi : x.toNat % 32 < 28) :
    readHead (x :: b) = some (m, n, []) ↔
      x.toNat / 32 = m ∧ b.length = 2 ^ (x.toNat % 32 - 24) ∧
        minArg (x.toNat % 32) ≤ beNat b ∧ beNat b = n := by
  simp only [readHead, if_neg (Nat.not_lt.mpr hlo), if_pos hhi]
  split
  next hbad =>
    simp only [reduceCtorEq, false_iff]
    rintro ⟨-, hlen, hmin, -⟩
    rw [← hlen, List.take_length] at hbad
    omega
  next hgood =>
    simp only [Option.some.injEq, Prod.mk.injEq, List.drop_eq_nil_iff]
    constructor
    · rintro ⟨hm, hn, hlen⟩
      have hfull : b.take (2 ^ (x.toNat % 32 - 24)) = b := List.take_of_length_le hlen
      rw [hfull] at hn hgood
      exact ⟨hm, by omega, by omega, hn⟩
    · rintro ⟨hm, hlen, -, hn⟩
      rw [← hlen, List.take_length]
      exact ⟨hm, hn, le_rfl⟩

theorem head_ne_nil (m n : Nat) : head m n ≠ [] := by
  unfold head
  repeat' split
  all_goals simp

/-- The first byte of a head carries the major type. -/
theorem head?_head_append (m n : Nat) (rest : Bytes) (hm : m < 8) :
    ∃ b, (head m n ++ rest).head? = some b ∧ b.toNat / 32 = m := by
  unfold head
  repeat' split
  all_goals
    refine ⟨_, rfl, ?_⟩
    rw [toNat_ofNat_head m _ hm (by omega)]
    omega

theorem head_length_pos (m n : Nat) : 0 < (head m n).length :=
  List.length_pos_iff.mpr (head_ne_nil m n)

/-- Heads are prefix-free. -/
theorem head_append_inj {m m' n n' : Nat} {r r' : Bytes} (hm : m < 8) (hm' : m' < 8)
    (hn : n < 2 ^ 64) (hn' : n' < 2 ^ 64) (h : head m n ++ r = head m' n' ++ r') :
    m = m' ∧ n = n' ∧ r = r' := by
  have hread := readHead_head m n r hm hn
  rw [h, readHead_head m' n' r' hm' hn'] at hread
  simp only [Option.some.injEq, Prod.mk.injEq] at hread
  exact ⟨hread.1.symm, hread.2.1.symm, hread.2.2.symm⟩

inductive Value where
  | uint (n : Nat)
  | bytes (b : Bytes)
  | text (b : Bytes)
  | array (items : List Value)
  | map (items : List Value)
  | tag (n : Nat) (item : Value)
  | null

namespace Value

def major : Value → Nat
  | .uint _ => 0
  | .bytes _ => 2
  | .text _ => 3
  | .array _ => 4
  | .map _ => 5
  | .tag _ _ => 6
  | .null => 7

/-- The argument of the head. -/
def arg : Value → Nat
  | .uint n => n
  | .bytes b => b.length
  | .text b => b.length
  | .array items => items.length
  | .map items => items.length / 2
  | .tag n _ => n
  | .null => 22

/-- The items directly below a node, keys and values of a map in turn. -/
def kids : Value → List Value
  | .array items => items
  | .map items => items
  | .tag _ item => [item]
  | _ => []

mutual

def encode : Value → Bytes
  | .uint n => head 0 n
  | .bytes b => head 2 b.length ++ b
  | .text b => head 3 b.length ++ b
  | .array items => head 4 items.length ++ encodeAll items
  | .map items => head 5 (items.length / 2) ++ encodeAll items
  | .tag n item => head 6 n ++ encode item
  | .null => head 7 22

def encodeAll : List Value → Bytes
  | [] => []
  | t :: ts => encode t ++ encodeAll ts

end

mutual

/-- The number of items, the root included. -/
def count : Value → Nat
  | .array items => 1 + countAll items
  | .map items => 1 + countAll items
  | .tag _ item => 1 + count item
  | _ => 1

def countAll : List Value → Nat
  | [] => 0
  | t :: ts => count t + countAll ts

end

mutual

/-- The nesting of containers; an empty container has height one. -/
def height : Value → Nat
  | .array items => 1 + heightAll items
  | .map items => 1 + heightAll items
  | .tag _ item => 1 + height item
  | _ => 0

def heightAll : List Value → Nat
  | [] => 0
  | t :: ts => max (height t) (heightAll ts)

end

mutual

/-- A rule on single nodes holds at every node. -/
def All (rule : Value → Prop) : Value → Prop
  | .array items => rule (.array items) ∧ AllAll rule items
  | .map items => rule (.map items) ∧ AllAll rule items
  | .tag n item => rule (.tag n item) ∧ All rule item
  | t => rule t

def AllAll (rule : Value → Prop) : List Value → Prop
  | [] => True
  | t :: ts => All rule t ∧ AllAll rule ts

end

/-- The bytes after the head. -/
def content : Value → Bytes
  | .bytes b => b
  | .text b => b
  | .array items => encodeAll items
  | .map items => encodeAll items
  | .tag _ item => encode item
  | _ => []

@[simp] theorem uint_view (n : Nat) : (uint n).major = 0 ∧ (uint n).arg = n ∧ (uint n).kids = [] ∧ (uint n).content = [] :=
  ⟨rfl, rfl, rfl, rfl⟩
@[simp] theorem bytes_view (b : Bytes) : (bytes b).major = 2 ∧ (bytes b).arg = b.length ∧ (bytes b).kids = [] ∧ (bytes b).content = b :=
  ⟨rfl, rfl, rfl, rfl⟩
@[simp] theorem text_view (b : Bytes) : (text b).major = 3 ∧ (text b).arg = b.length ∧ (text b).kids = [] ∧ (text b).content = b :=
  ⟨rfl, rfl, rfl, rfl⟩
@[simp] theorem array_view (ts : List Value) : (array ts).major = 4 ∧ (array ts).arg = ts.length ∧ (array ts).kids = ts ∧ (array ts).content = encodeAll ts :=
  ⟨rfl, rfl, rfl, rfl⟩
@[simp] theorem map_view (ts : List Value) : (map ts).major = 5 ∧ (map ts).arg = ts.length / 2 ∧ (map ts).kids = ts ∧ (map ts).content = encodeAll ts :=
  ⟨rfl, rfl, rfl, rfl⟩
@[simp] theorem tag_view (n : Nat) (t : Value) : (tag n t).major = 6 ∧ (tag n t).arg = n ∧ (tag n t).kids = [t] ∧ (tag n t).content = encode t :=
  ⟨rfl, rfl, rfl, rfl⟩
@[simp] theorem null_view : Value.null.major = 7 ∧ Value.null.arg = 22 ∧ Value.null.kids = [] ∧ Value.null.content = [] :=
  ⟨rfl, rfl, rfl, rfl⟩

theorem encode_eq (t : Value) : encode t = head t.major t.arg ++ content t := by
  cases t <;> simp [encode]

theorem exists_array {t : Value} (h : t.major = 4) : ∃ ts, t = .array ts := by
  cases t <;> simp at h ⊢

theorem exists_tag {t : Value} (h : t.major = 6) : ∃ n u, t = .tag n u := by
  cases t <;> simp at h ⊢

theorem content_eq_encodeAll {t : Value} (h2 : t.major ≠ 2) (h3 : t.major ≠ 3) :
    t.content = encodeAll t.kids := by
  cases t <;> simp [encodeAll] at h2 h3 ⊢

theorem major_lt (t : Value) : t.major < 8 := by
  cases t <;> simp [major]

theorem encode_ne_nil (t : Value) : encode t ≠ [] := by
  rw [encode_eq]
  simp [head_ne_nil]

theorem encode_length_pos (t : Value) : 0 < (encode t).length :=
  List.length_pos_iff.mpr (encode_ne_nil t)

@[simp] theorem encodeAll_nil : encodeAll [] = [] := by simp [encodeAll]

@[simp] theorem encodeAll_cons (t : Value) (ts : List Value) :
    encodeAll (t :: ts) = encode t ++ encodeAll ts := by simp [encodeAll]

theorem encodeAll_eq_flatten (ts : List Value) : encodeAll ts = (ts.map encode).flatten := by
  induction ts with
  | nil => simp
  | cons t ts ih => simp [ih]

theorem length_le_encodeAll (ts : List Value) : ts.length ≤ (encodeAll ts).length := by
  induction ts with
  | nil => simp
  | cons t ts ih =>
    have := encode_length_pos t
    simp only [List.length_cons, encodeAll_cons, List.length_append]
    omega

@[simp] theorem countAll_cons (t : Value) (ts : List Value) :
    countAll (t :: ts) = count t + countAll ts := by simp [countAll]

@[simp] theorem countAll_nil : countAll [] = 0 := by simp [countAll]

theorem length_le_countAll (ts : List Value) : ts.length ≤ countAll ts := by
  induction ts with
  | nil => simp
  | cons t ts ih =>
    have : 0 < count t := by cases t <;> simp [count]
    simp only [List.length_cons, countAll_cons]
    omega

theorem count_eq (t : Value) : count t = 1 + countAll t.kids := by
  cases t <;> simp [count, kids]

theorem count_pos (t : Value) : 0 < count t := by
  rw [count_eq]
  omega

@[simp] theorem heightAll_nil : heightAll [] = 0 := by simp [heightAll]

@[simp] theorem heightAll_cons (t : Value) (ts : List Value) :
    heightAll (t :: ts) = max (height t) (heightAll ts) := by simp [heightAll]

theorem height_le_heightAll {t : Value} {ts : List Value} (h : t ∈ ts) :
    height t ≤ heightAll ts := by
  induction ts with
  | nil => simp at h
  | cons u ts ih =>
    simp only [heightAll_cons]
    rcases List.mem_cons.mp h with rfl | h
    · exact le_max_left _ _
    · exact le_trans (ih h) (le_max_right _ _)

theorem heightAll_le {ts : List Value} {n : Nat} (h : ∀ t ∈ ts, height t ≤ n) :
    heightAll ts ≤ n := by
  induction ts with
  | nil => simp
  | cons t ts ih =>
    simp only [heightAll_cons]
    exact max_le (h t (by simp)) (ih fun u hu => h u (by simp [hu]))

theorem height_kid_lt {t u : Value} (h : u ∈ t.kids) : height u < height t := by
  cases t with
  | array items =>
    have := height_le_heightAll (show u ∈ items from h)
    simp only [height]
    omega
  | map items =>
    have := height_le_heightAll (show u ∈ items from h)
    simp only [height]
    omega
  | tag n item =>
    simp only [kids, List.mem_singleton] at h
    subst h
    simp only [height]
    omega
  | uint n => simp [kids] at h
  | bytes b => simp [kids] at h
  | text b => simp [kids] at h
  | null => simp [kids] at h

variable {rule rule' : Value → Prop}

@[simp] theorem allAll_iff {ts : List Value} : AllAll rule ts ↔ ∀ t ∈ ts, All rule t := by
  induction ts with
  | nil => simp [AllAll]
  | cons t ts ih => simp [AllAll, ih]

theorem all_iff (t : Value) : All rule t ↔ rule t ∧ ∀ u ∈ t.kids, All rule u := by
  cases t <;> simp [All, kids]

theorem All.root {t : Value} (h : All rule t) : rule t := ((all_iff t).mp h).1

theorem All.kid {t u : Value} (h : All rule t) (hu : u ∈ t.kids) : All rule u :=
  ((all_iff t).mp h).2 u hu

/-- Induction on trees with the hypothesis at every item below the node. -/
theorem kidsInduct {motive : Value → Prop} (step : ∀ t, (∀ u ∈ t.kids, motive u) → motive t)
    (t : Value) : motive t := by
  have main : ∀ n (t : Value), height t ≤ n → motive t := by
    intro n
    induction n with
    | zero =>
      intro t ht
      refine step t fun u hu => ?_
      have := height_kid_lt hu
      omega
    | succ n ih =>
      intro t ht
      refine step t fun u hu => ih u ?_
      have := height_kid_lt hu
      omega
  exact main _ t le_rfl

theorem All.imp (himp : ∀ t, rule t → rule' t) {t : Value} (h : All rule t) : All rule' t := by
  induction t using kidsInduct with
  | step t ih =>
    rw [all_iff] at h ⊢
    exact ⟨himp t h.1, fun u hu => ih u hu (h.2 u hu)⟩

theorem all_and (t : Value) : All (fun u => rule u ∧ rule' u) t ↔ All rule t ∧ All rule' t := by
  induction t using kidsInduct with
  | step t ih =>
    rw [all_iff, @all_iff rule, @all_iff rule']
    constructor
    · rintro ⟨⟨hr, hr'⟩, hk⟩
      exact ⟨⟨hr, fun u hu => ((ih u hu).mp (hk u hu)).1⟩,
        ⟨hr', fun u hu => ((ih u hu).mp (hk u hu)).2⟩⟩
    · rintro ⟨⟨hr, hk⟩, ⟨hr', hk'⟩⟩
      exact ⟨⟨hr, hr'⟩, fun u hu => (ih u hu).mpr ⟨hk u hu, hk' u hu⟩⟩

/-- A node whose argument fits its head; a map holds whole pairs. -/
def Fits (t : Value) : Prop :=
  t.arg < 2 ^ 64 ∧ (t.major = 5 → t.kids.length % 2 = 0)

instance (t : Value) : Decidable (Fits t) := inferInstanceAs (Decidable (_ ∧ _))

theorem length_content_lt (t : Value) : t.content.length < (encode t).length := by
  rw [encode_eq, List.length_append]
  have := head_length_pos t.major t.arg
  omega

theorem length_encode_le_encodeAll {t : Value} {ts : List Value} (h : t ∈ ts) :
    (encode t).length ≤ (encodeAll ts).length := by
  rw [encodeAll_eq_flatten]
  exact (List.sublist_flatten_of_mem (List.mem_map_of_mem h)).length_le

theorem length_encode_kid_lt {t u : Value} (h : u ∈ t.kids) :
    (encode u).length < (encode t).length := by
  have hcontent : (encode u).length ≤ t.content.length := by
    cases t with
    | array ts => exact length_encode_le_encodeAll h
    | map ts => exact length_encode_le_encodeAll h
    | tag n v =>
      simp only [kids, List.mem_singleton] at h
      rw [h, content]
    | _ => simp [kids] at h
  exact lt_of_le_of_lt hcontent (length_content_lt t)

theorem all_fits_array {ts : List Value} (hlen : ts.length < 2 ^ 64) (h : ∀ t ∈ ts, All Fits t) :
    All Fits (.array ts) :=
  (all_iff _).mpr ⟨⟨hlen, by simp [major]⟩, h⟩

theorem length_encode_array (ts : List Value) :
    (encode (.array ts)).length = (head 4 ts.length).length + (ts.map fun t => (encode t).length).sum := by
  rw [encode, List.length_append, encodeAll_eq_flatten, List.length_flatten, List.map_map]
  rfl

theorem length_encode_tag (n : Nat) (t : Value) :
    (encode (.tag n t)).length = (head 6 n).length + (encode t).length := by
  rw [encode, List.length_append]

/-- An array of items that are each no longer encodes no longer. -/
theorem length_encode_array_le {ts us : List Value}
    (h : List.Forall₂ (fun t u => (encode t).length ≤ (encode u).length) ts us) :
    (encode (.array ts)).length ≤ (encode (.array us)).length := by
  rw [length_encode_array, length_encode_array, h.length_eq]
  have hsum : (ts.map fun t => (encode t).length).sum ≤ (us.map fun t => (encode t).length).sum := by
    refine List.Forall₂.sum_le_sum ?_
    exact List.forall₂_map_left_iff.mpr (List.forall₂_map_right_iff.mpr h)
  omega

theorem count_le_length (t : Value) : count t ≤ (encode t).length := by
  induction t using kidsInduct with
  | step t ih =>
    have hall : ∀ ts : List Value, (∀ u ∈ ts, count u ≤ (encode u).length) →
        countAll ts ≤ (encodeAll ts).length := by
      intro ts
      induction ts with
      | nil => simp
      | cons u us ihs =>
        intro hk
        have h1 := hk u (by simp)
        have h2 := ihs fun v hv => hk v (by simp [hv])
        simp only [countAll_cons, encodeAll_cons, List.length_append]
        omega
    have hkids : countAll t.kids ≤ (content t).length := by
      cases t with
      | array items => exact hall items ih
      | map items => exact hall items ih
      | tag n item => simpa [kids, content] using ih item (by simp [kids])
      | uint n => simp [kids, content]
      | bytes b => simp [kids]
      | text b => simp [kids]
      | null => simp [kids, content]
    have := head_length_pos t.major t.arg
    rw [count_eq, encode_eq, List.length_append]
    omega

/-- One encoding starts a byte string: equal strings start with the same tree. -/
theorem encode_append_inj {t u : Value} {r r' : Bytes} (ht : All Fits t) (hu : All Fits u)
    (h : encode t ++ r = encode u ++ r') : t = u ∧ r = r' := by
  induction t using kidsInduct generalizing u r r' with
  | step t ih =>
    -- lists of subtrees of one length are peeled one tree at a time
    have hlists : ∀ (ts us : List Value) (r r' : Bytes), (∀ x ∈ ts, x ∈ t.kids) →
        (∀ x ∈ us, All Fits x) → ts.length = us.length →
        encodeAll ts ++ r = encodeAll us ++ r' → ts = us ∧ r = r' := by
      intro ts
      induction ts with
      | nil =>
        intro us r r' _ _ hlen he
        cases us with
        | nil => exact ⟨rfl, by simpa using he⟩
        | cons v us => simp at hlen
      | cons x ts ihs =>
        intro us r r' hmem hfit hlen he
        cases us with
        | nil => simp at hlen
        | cons v us =>
          simp only [encodeAll_cons, List.append_assoc] at he
          obtain ⟨hxv, hrest⟩ := ih x (hmem x (by simp)) (ht.kid (hmem x (by simp)))
            (hfit v (by simp)) he
          obtain ⟨hts, hr⟩ := ihs us r r' (fun y hy => hmem y (by simp [hy]))
            (fun y hy => hfit y (by simp [hy])) (by simpa using hlen) hrest
          exact ⟨by rw [hxv, hts], hr⟩
    have he := h
    rw [encode_eq t, encode_eq u, List.append_assoc, List.append_assoc] at he
    obtain ⟨hmajor, harg, hcont⟩ := head_append_inj t.major_lt u.major_lt ht.root.1 hu.root.1 he
    cases t with
    | uint n =>
      cases u <;> simp [major] at hmajor
      simp only [arg] at harg
      exact ⟨by rw [harg], by simpa [content] using hcont⟩
    | bytes b =>
      cases u <;> simp [major] at hmajor
      obtain ⟨hb, hr⟩ := List.append_inj hcont harg
      exact ⟨by simpa [content] using hb, hr⟩
    | text b =>
      cases u <;> simp [major] at hmajor
      obtain ⟨hb, hr⟩ := List.append_inj hcont harg
      exact ⟨by simpa [content] using hb, hr⟩
    | array items =>
      cases u <;> simp [major] at hmajor
      next items' =>
        obtain ⟨hts, hr⟩ := hlists items items' r r' (fun x hx => hx) (fun x hx => hu.kid hx)
          harg hcont
        exact ⟨by rw [hts], hr⟩
    | map items =>
      cases u <;> simp [major] at hmajor
      next items' =>
        have heven := ht.root.2 rfl
        have heven' := hu.root.2 rfl
        simp only [arg, kids] at harg heven heven'
        obtain ⟨hts, hr⟩ := hlists items items' r r' (fun x hx => hx) (fun x hx => hu.kid hx)
          (by omega) hcont
        exact ⟨by rw [hts], hr⟩
    | tag n item =>
      cases u <;> simp [major] at hmajor
      simp only [arg] at harg
      obtain ⟨hi, hr⟩ := ih item (by simp [kids]) (ht.kid (by simp [kids])) (hu.kid (by simp [kids]))
        hcont
      exact ⟨by rw [harg, hi], hr⟩
    | null =>
      cases u <;> simp [major] at hmajor
      exact ⟨rfl, by simpa [content] using hcont⟩

theorem encode_inj {t u : Value} (ht : All Fits t) (hu : All Fits u) (h : encode t = encode u) :
    t = u := by
  have happ : encode t ++ [] = encode u ++ [] := by rw [h]
  exact (encode_append_inj ht hu happ).1

end Value

end Ureth.Foundation.Cbor
