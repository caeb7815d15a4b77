import Mathlib

/-!
# Authenticated sum trees

A digest commits to a leaf (key, value, weight) or to a branching node with the
digest and the weight of each side. A claim opens the path from the root digest
to one leaf. Where the commitment is injective on the openings at hand, the
claims under one root are leaves of one tree: a key has one value and one weight,
and the weights of different keys add up to at most the weight of the root. The
paths may have different lengths and skip labels.
-/

namespace Ureth.Foundation.SumTree

variable {K V L D : Type}

/-- What a digest commits to. -/
inductive Opening (K V L D : Type) where
  | leaf (key : K) (value : V) (weight : Nat)
  | node (label : L) (left right : D × Nat)

/-- One branching on the way to a leaf: its label and the side not taken. -/
structure Step (L D : Type) where
  label : L
  sibling : D × Nat

/-- A leaf and the path that leads to it, root first. -/
structure Claim (K V L D : Type) where
  key : K
  value : V
  weight : Nat
  path : List (Step L D)

section Climb

variable (commit : Opening K V L D → D) (right : K → L → Bool)

/-- The node above `below` at a step. -/
def join (key : K) (s : Step L D) (below : D × Nat) : Opening K V L D :=
  if right key s.label then .node s.label s.sibling below else .node s.label below s.sibling

/-- Digest and weight above `base` at the top of a path, root first. -/
def climb (key : K) (base : D × Nat) : List (Step L D) → D × Nat
  | [] => base
  | s :: path =>
    let below := climb key base path
    (commit (join right key s below), below.2 + s.sibling.2)

/-- The nodes the climb commits to, root first. -/
def nodes (key : K) (base : D × Nat) : List (Step L D) → List (Opening K V L D)
  | [] => []
  | s :: path => join right key s (climb commit right key base path) :: nodes key base path

namespace Claim

def base (c : Claim K V L D) : D × Nat := (commit (.leaf c.key c.value c.weight), c.weight)

def top (c : Claim K V L D) : D × Nat := climb commit right c.key (c.base commit) c.path

def openings (c : Claim K V L D) : List (Opening K V L D) :=
  .leaf c.key c.value c.weight :: nodes commit right c.key (c.base commit) c.path

/-- The claim below the first step. -/
def below (c : Claim K V L D) : Claim K V L D := { c with path := c.path.tail }

end Claim

/-- A verifier walks the path leaf first: its first step is the last of the climb. -/
theorem climb_append_singleton (key : K) (base : D × Nat) (path : List (Step L D)) (s : Step L D) :
    climb commit right key base (path ++ [s]) =
      climb commit right key (commit (join right key s base), base.2 + s.sibling.2) path := by
  induction path with
  | nil => rfl
  | cons t path ih => simp only [List.cons_append, climb, ih]

theorem nodes_append_singleton (key : K) (base : D × Nat) (path : List (Step L D)) (s : Step L D) :
    nodes commit right key base (path ++ [s]) =
      nodes commit right key (commit (join right key s base), base.2 + s.sibling.2) path ++
        [join right key s base] := by
  induction path with
  | nil => rfl
  | cons t path ih => simp only [List.cons_append, nodes, ih, climb_append_singleton]

/-- The weight at the top is the weight below plus those of the sides not taken. -/
theorem climb_weight (key : K) (base : D × Nat) (path : List (Step L D)) :
    (climb commit right key base path).2 = base.2 + (path.map (·.sibling.2)).sum := by
  induction path with
  | nil => rfl
  | cons s path ih =>
    simp only [climb, ih, List.map_cons, List.sum_cons]
    omega

end Climb

section Conservation

variable {commit : Opening K V L D → D} {right : K → L → Bool} {S : Set (Opening K V L D)}

/-- The claim's openings are among those on which the commitment is injective. -/
def Within (commit : Opening K V L D → D) (right : K → L → Bool) (S : Set (Opening K V L D))
    (c : Claim K V L D) : Prop := ∀ o ∈ c.openings commit right, o ∈ S

theorem Within.below {c : Claim K V L D} (h : Within commit right S c) (hpath : c.path ≠ []) :
    Within commit right S c.below := by
  obtain ⟨key, value, weight, path⟩ := c
  cases path with
  | nil => exact absurd rfl hpath
  | cons s path =>
    intro o ho
    rcases List.mem_cons.mp ho with rfl | ho
    · exact h _ (List.mem_cons_self ..)
    · exact h o (List.mem_cons_of_mem _ (List.mem_cons_of_mem _ ho))

/-- The opening at the top of a claim. -/
def topOpening (commit : Opening K V L D → D) (right : K → L → Bool) (c : Claim K V L D) :
    Opening K V L D :=
  match c.path with
  | [] => .leaf c.key c.value c.weight
  | s :: path => join right c.key s (climb commit right c.key (c.base commit) path)

theorem commit_topOpening (c : Claim K V L D) :
    commit (topOpening commit right c) = (c.top commit right).1 := by
  obtain ⟨key, value, weight, path⟩ := c
  cases path <;> rfl

theorem topOpening_mem (c : Claim K V L D) :
    topOpening commit right c ∈ c.openings commit right := by
  obtain ⟨key, value, weight, path⟩ := c
  cases path <;> simp [topOpening, Claim.openings, nodes]

theorem topOpening_eq (hinj : Set.InjOn commit S) {c c' : Claim K V L D}
    (hc : Within commit right S c) (hc' : Within commit right S c')
    (htop : (c.top commit right).1 = (c'.top commit right).1) :
    topOpening commit right c = topOpening commit right c' := by
  apply hinj (hc _ (topOpening_mem c)) (hc' _ (topOpening_mem c'))
  calc commit (topOpening commit right c)
      = (c.top commit right).1 := commit_topOpening c
    _ = (c'.top commit right).1 := htop
    _ = commit (topOpening commit right c') := (commit_topOpening c').symm

/-- Every claim whose top is the node `label, left, rght` continues on the side
its key selects and keeps key, value and weight there. -/
theorem top_below {c : Claim K V L D} {label : L} {left rght : D × Nat}
    (h : topOpening commit right c = .node label left rght) :
    c.path ≠ [] ∧
      c.below.top commit right = (if right c.key label then rght else left) ∧
      (c.top commit right).2 = left.2 + rght.2 := by
  obtain ⟨key, value, weight, path⟩ := c
  cases path with
  | nil => simp [topOpening] at h
  | cons s path =>
    refine ⟨by simp, ?_⟩
    simp only [topOpening, join] at h
    split at h
    next hr =>
      cases h
      refine ⟨by rw [if_pos hr]; rfl, ?_⟩
      simp only [Claim.top, climb]
      omega
    next hr =>
      cases h
      refine ⟨by rw [if_neg hr]; rfl, ?_⟩
      simp only [Claim.top, climb]

theorem path_eq_nil_of_leaf {c : Claim K V L D} {key : K} {value : V} {weight : Nat}
    (h : topOpening commit right c = .leaf key value weight) :
    c.path = [] ∧ c.key = key ∧ c.value = value ∧ c.weight = weight := by
  obtain ⟨k, v, w, path⟩ := c
  cases path with
  | nil =>
    cases h
    exact ⟨rfl, rfl, rfl, rfl⟩
  | cons s path =>
    simp only [topOpening, join] at h
    split at h <;> cases h

/-- Under one root digest a key has one value and one weight. -/
theorem value_weight_unique (hinj : Set.InjOn commit S) (n : Nat) (c c' : Claim K V L D)
    (hlen : c.path.length ≤ n) (hc : Within commit right S c) (hc' : Within commit right S c')
    (hkey : c.key = c'.key) (htop : (c.top commit right).1 = (c'.top commit right).1) :
    c.value = c'.value ∧ c.weight = c'.weight := by
  induction n generalizing c c' with
  | zero =>
    have hpath : c.path = [] := List.length_eq_zero_iff.mp (Nat.le_zero.mp hlen)
    have hopen : topOpening commit right c = .leaf c.key c.value c.weight := by
      simp [topOpening, hpath]
    obtain ⟨_, _, hv, hw⟩ := path_eq_nil_of_leaf ((topOpening_eq hinj hc hc' htop).symm.trans hopen)
    exact ⟨hv.symm, hw.symm⟩
  | succ n ih =>
    have heq := topOpening_eq hinj hc hc' htop
    cases hopen : topOpening commit right c with
    | leaf key value weight =>
      obtain ⟨_, _, hv, hw⟩ := path_eq_nil_of_leaf hopen
      obtain ⟨_, _, hv', hw'⟩ := path_eq_nil_of_leaf (heq.symm.trans hopen)
      exact ⟨hv.trans hv'.symm, hw.trans hw'.symm⟩
    | node label left rght =>
      obtain ⟨hne, hbelow, _⟩ := top_below hopen
      obtain ⟨hne', hbelow', _⟩ := top_below (heq.symm.trans hopen)
      refine ih c.below c'.below ?_ (hc.below hne) (hc'.below hne') hkey ?_
      · simp only [Claim.below, List.length_tail]
        omega
      · rw [hbelow, hbelow', hkey]

/-- What holds of a claim against the root `(digest, weight)`. -/
def Against (commit : Opening K V L D → D) (right : K → L → Bool) (S : Set (Opening K V L D))
    (n : Nat) (root : D × Nat) (c : Claim K V L D) : Prop :=
  c.path.length ≤ n ∧ Within commit right S c ∧ c.top commit right = root

theorem Against.below {n : Nat} {root : D × Nat} {c : Claim K V L D} {label : L}
    {left rght : D × Nat} (h : Against commit right S (n + 1) root c)
    (hopen : topOpening commit right c = .node label left rght) :
    Against commit right S n (if right c.key label then rght else left) c.below := by
  obtain ⟨hlen, hwithin, _⟩ := h
  obtain ⟨hne, hbelow, _⟩ := top_below hopen
  refine ⟨?_, hwithin.below hne, hbelow⟩
  simp only [Claim.below, List.length_tail]
  omega

theorem leaf_weights {claims : List (Claim K V L D)} {root : D × Nat}
    (htop : ∀ c ∈ claims, c.top commit right = root) (hdistinct : (claims.map (·.key)).Nodup)
    {key : K} {value : V} {weight : Nat}
    (hleaf : ∀ c ∈ claims, topOpening commit right c = .leaf key value weight) :
    (claims.map (·.weight)).sum ≤ root.2 := by
  match claims with
  | [] => simp
  | [c] =>
    obtain ⟨hpath, _⟩ := path_eq_nil_of_leaf (hleaf c (by simp))
    have := congrArg Prod.snd (htop c (by simp))
    simp only [Claim.top, Claim.base, hpath, climb] at this
    simp [this]
  | c :: c' :: rest =>
    -- two leaves under one digest are one leaf
    obtain ⟨_, hk, _⟩ := path_eq_nil_of_leaf (hleaf c (by simp))
    obtain ⟨_, hk', _⟩ := path_eq_nil_of_leaf (hleaf c' (by simp))
    simp [hk, hk'] at hdistinct

theorem map_below_key (claims : List (Claim K V L D)) :
    (claims.map Claim.below).map (·.key) = claims.map (·.key) := by
  simp [Claim.below, Function.comp_def]

theorem map_below_weight (claims : List (Claim K V L D)) :
    (claims.map Claim.below).map (·.weight) = claims.map (·.weight) := by
  simp [Claim.below, Function.comp_def]

theorem sum_filter_add (f : Claim K V L D → Nat) (p : Claim K V L D → Bool)
    (claims : List (Claim K V L D)) :
    (claims.map f).sum = ((claims.filter p).map f).sum + ((claims.filter (!p ·)).map f).sum := by
  induction claims with
  | nil => rfl
  | cons c claims ih =>
    by_cases hp : p c <;> simp [hp, ih] <;> omega

/-- The weights of different keys under one root add up to at most its weight. -/
theorem sum_weight_le (hinj : Set.InjOn commit S) (n : Nat) (claims : List (Claim K V L D))
    (root : D × Nat) (hclaims : ∀ c ∈ claims, Against commit right S n root c)
    (hdistinct : (claims.map (·.key)).Nodup) : (claims.map (·.weight)).sum ≤ root.2 := by
  induction n generalizing claims root with
  | zero =>
    match claims, hclaims, hdistinct with
    | [], _, _ => simp
    | c :: rest, hclaims, hdistinct =>
      obtain ⟨hlen, hwithin, htop⟩ := hclaims c (by simp)
      have hpath : c.path = [] := List.length_eq_zero_iff.mp (Nat.le_zero.mp hlen)
      apply leaf_weights (fun c' hc' => (hclaims c' hc').2.2) hdistinct
      intro c' hc'
      obtain ⟨_, hwithin', htop'⟩ := hclaims c' hc'
      rw [topOpening_eq hinj hwithin' hwithin (by rw [htop, htop'])]
      simp [topOpening, hpath]
      exact ⟨rfl, rfl, rfl⟩
  | succ n ih =>
    match claims, hclaims, hdistinct with
    | [], _, _ => simp
    | c :: rest, hclaims, hdistinct =>
      obtain ⟨_, hwithin, htop⟩ := hclaims c (by simp)
      have hsame : ∀ c' ∈ c :: rest,
          topOpening commit right c' = topOpening commit right c := fun c' hc' =>
        topOpening_eq hinj (hclaims c' hc').2.1 hwithin (by rw [htop, (hclaims c' hc').2.2])
      cases hopen : topOpening commit right c with
      | leaf key value weight =>
        exact leaf_weights (fun c' hc' => (hclaims c' hc').2.2) hdistinct
          (fun c' hc' => (hsame c' hc').trans hopen)
      | node label left rght =>
        -- the keys split by the side they select, and each side is a smaller family
        have hside : ∀ (b : Bool), (((c :: rest).filter (fun c' => right c'.key label == b)).map
            (·.weight)).sum ≤ (if b then rght else left).2 := by
          intro b
          rw [← map_below_weight]
          apply ih
          · intro c' hc'
            obtain ⟨c'', hmem, rfl⟩ := List.mem_map.mp hc'
            obtain ⟨hin, hb⟩ := List.mem_filter.mp hmem
            have := (hclaims c'' hin).below ((hsame c'' hin).trans hopen)
            rwa [show right c''.key label = b by simpa using hb] at this
          · rw [map_below_key]
            exact hdistinct.sublist (List.filter_sublist.map _)
        have hl := hside false
        have hr := hside true
        have hroot : root.2 = left.2 + rght.2 := by
          rw [← htop]
          exact (top_below hopen).2.2
        rw [sum_filter_add _ (fun c' => right c'.key label == true)]
        have hneg : ∀ l : List (Claim K V L D),
            l.filter (fun c' => !(right c'.key label == true)) =
              l.filter (fun c' => right c'.key label == false) := by
          intro l
          apply List.filter_congr
          intro c' _
          cases right c'.key label <;> rfl
        rw [hneg, hroot]
        simp only [if_true, Bool.false_eq_true, if_false] at hl hr
        omega

end Conservation

end Ureth.Foundation.SumTree
