import Ureth.Foundation.Bits
import Ureth.Foundation.HashPath
import Ureth.Source.B1.Rsmt

/-!
# The climb of a membership request as a path of hashes

The bitmap selects the depths, and the sibling at a depth stands in the list after one sibling for
each shallower depth selected. So the climb never leaves the list and uses it up, and it is a path
of nodes from the leaf, each node telling its depth and its sibling.
-/

namespace Ureth.Source.B1
open Ureth.Foundation

/-- What the framing of a request guarantees. -/
structure MemberRequest.Framed (q : MemberRequest) : Prop where
  key : q.key.length = 32
  value : q.value.length ≤ 4096
  bitmap : q.bitmap.length = 32
  siblings : q.siblings.length = 32 * onesBelow q.bitmap 256

theorem onesBelow_bitmap {bitmap : Bytes} (h : bitmap.length = 32) : onesBelow bitmap 256 = popCount bitmap := by
  rw [← onesBelow_eq_popCount, h]

theorem memberRequest_framed {input : Bytes} {q : MemberRequest} (h : memberRequest input = .ok q) :
    q.Framed ∧ input.length = 104 + q.value.length + q.siblings.length := by
  simp only [memberRequest, header, Res.bind_eq_ok, Res.refuse_eq_ok, Prod.exists, Res.pure_eq_ok, take_eq_ok, uint_eq_ok, not_not, not_lt] at h
  obtain ⟨count, r, ⟨version, r1, ⟨v, hv, -, hinput⟩, _, -, flags, r2, ⟨f, hf, -, hr1⟩, _, -, c, hc, -, hr2⟩, _, -,
    root, r3, ⟨hroot, hr⟩, key, r4, ⟨hkey, hr3⟩, len, r5, ⟨l, hl, -, hr4⟩, _, hlimit, value, r6, ⟨hvalue, hr5⟩,
    bitmap, siblings, ⟨hbitmap, hr6⟩, _, hshape, hq⟩ := h
  subst hq
  refine ⟨⟨hkey, ?_, hbitmap, ?_⟩, ?_⟩
  · show value.length ≤ 4096
    omega
  · rw [onesBelow_bitmap hbitmap]
    exact hshape
  · rw [hinput, hr1, hr2, hr, hr3, hr4, hr5, hr6]
    simp only [List.length_append, hv, hf, hc, hroot, hkey, hl, hbitmap]
    omega

/-! ## The path -/

/-- The siblings with their depths, deepest first. -/
def rsmtPath (bitmap siblings : Bytes) : Nat → List (Nat × Bytes)
  | 0 => []
  | d + 1 =>
    if bitOf bitmap d then
      (d, (siblings.drop (32 * onesBelow bitmap d)).take 32) :: rsmtPath bitmap siblings d
    else rsmtPath bitmap siblings d

/-- The first `d` bits of a key of 32 bytes, the rest zero. -/
def keyRegion (key : Bytes) (d : Nat) : Bytes :=
  key.take (d / 8) ++
    [if d % 8 ≠ 0 then key.getD (d / 8) 0 &&& UInt8.ofNat (256 - 2 ^ (8 - d % 8)) else 0] ++
    List.replicate (31 - d / 8) 0

/-- The node of a key's path at a depth, with the sibling there. -/
def pathNode (key : Bytes) (step : Nat × Bytes) (h : Bytes32) : Bytes :=
  if bitOf key step.1 then rsmtNode step.1 (keyRegion key step.1) step.2 h.val
  else rsmtNode step.1 (keyRegion key step.1) h.val step.2

/-- The nodes above a request's leaf. -/
def MemberRequest.path (q : MemberRequest) : List (Nat × Bytes) := rsmtPath q.bitmap q.siblings 256

/-- The strings hashed for a request: its leaf and the nodes above it. -/
def MemberRequest.inputs (H : Bytes → Bytes32) (q : MemberRequest) : List Bytes :=
  rsmtLeaf q.key q.value :: climbed H (q.path.map (pathNode q.key)) (H (rsmtLeaf q.key q.value))

section Climb

variable {ε : Type} {H : Bytes → Bytes32} {key bitmap siblings : Bytes}

theorem bitAt_eq {b : Bytes} (hb : b.length = 32) {d : Nat} (hd : d < 256) :
    (bitAt b d : Res ε Bool) = .ok (bitOf b d) := by
  have hlt : d / 8 < b.length := by omega
  simp [bitAt, bitOf, Res.index_of_lt hlt, hlt]

theorem region_eq (hkey : key.length = 32) {d : Nat} (hd : d < 256) :
    (region key d : Res ε Bytes) = .ok (keyRegion key d) := by
  have hlt : d / 8 < key.length := by omega
  simp [region, keyRegion, Res.index_of_lt hlt, hlt]

theorem climbStep_eq (hkey : key.length = 32) {d : Nat} (hd : d < 256) (sibling : Bytes) (h : Bytes32) :
    (climbStep H key sibling d h : Res ε Bytes32) = .ok (H (pathNode key (d, sibling) h)) := by
  rw [climbStep, region_eq hkey hd, bitAt_eq hkey hd]
  rfl

/-- The source's climb is the path of nodes, and its index stays within the siblings. -/
theorem climb_eq (hkey : key.length = 32) (hbitmap : bitmap.length = 32) {n : Nat} (hn : n ≤ 256)
    (hsiblings : 32 * onesBelow bitmap n ≤ siblings.length) (h : Bytes32) :
    (climb H key bitmap siblings n (onesBelow bitmap n) h : Res ε Bytes32) =
      .ok (Foundation.climb H ((rsmtPath bitmap siblings n).map (pathNode key)) h) := by
  induction n generalizing h with
  | zero => rfl
  | succ d ih =>
    rw [climb, bitAt_eq hbitmap (by omega), Res.bind_ok, rsmtPath]
    cases hbit : bitOf bitmap d with
    | false =>
      have hones : onesBelow bitmap (d + 1) = onesBelow bitmap d := by simp [onesBelow, hbit]
      rw [hones] at hsiblings ⊢
      exact ih (by omega) hsiblings h
    | true =>
      have hones : onesBelow bitmap (d + 1) = onesBelow bitmap d + 1 := by simp [onesBelow, hbit]
      rw [hones] at hsiblings ⊢
      have hslice : (slice siblings (onesBelow bitmap d * 32) 32 : Res ε Bytes) =
          .ok ((siblings.drop (32 * onesBelow bitmap d)).take 32) := by
        rw [slice, if_pos (by omega), Nat.mul_comm]
      have hsub : (Res.sub (onesBelow bitmap d + 1) 1 : Res ε Nat) = .ok (onesBelow bitmap d) :=
        Res.sub_eq_ok.mpr ⟨by omega, rfl⟩
      simp only [if_true, hsub, Res.bind_ok, hslice, climbStep_eq hkey (show d < 256 by omega)]
      exact ih (by omega) (by omega) _

/-- The siblings of the path, shallowest first, are the supplied ones. -/
theorem flatten_rsmtPath {n : Nat} (h : 32 * onesBelow bitmap n ≤ siblings.length) :
    ((rsmtPath bitmap siblings n).map Prod.snd).reverse.flatten = siblings.take (32 * onesBelow bitmap n) := by
  induction n with
  | zero => simp [rsmtPath, onesBelow]
  | succ d ih =>
    cases hbit : bitOf bitmap d with
    | false =>
      have hones : onesBelow bitmap (d + 1) = onesBelow bitmap d := by simp [onesBelow, hbit]
      rw [hones] at h ⊢
      simpa [rsmtPath, hbit] using ih h
    | true =>
      have hones : onesBelow bitmap (d + 1) = onesBelow bitmap d + 1 := by simp [onesBelow, hbit]
      rw [hones] at h ⊢
      have hbelow := ih (by omega)
      rw [rsmtPath, if_pos hbit, List.map_cons, List.reverse_cons, List.flatten_append, hbelow, Nat.mul_add,
        Nat.mul_one, List.take_add]
      simp

theorem depths_rsmtPath (n : Nat) :
    (rsmtPath bitmap siblings n).map Prod.fst = (List.range n).reverse.filter (bitOf bitmap) := by
  induction n with
  | zero => rfl
  | succ d ih =>
    rw [List.range_succ, List.reverse_append, List.reverse_singleton, List.singleton_append, List.filter_cons,
      rsmtPath]
    split
    · rw [List.map_cons, ih]
    · exact ih

theorem mem_rsmtPath {n : Nat} (h : 32 * onesBelow bitmap n ≤ siblings.length) {step : Nat × Bytes}
    (hmem : step ∈ rsmtPath bitmap siblings n) : step.1 < n ∧ step.2.length = 32 := by
  induction n with
  | zero => simp [rsmtPath] at hmem
  | succ d ih =>
    rw [rsmtPath] at hmem
    rw [onesBelow] at h
    split at hmem
    next hbit =>
      rw [hbit, Bool.toNat_true] at h
      rcases List.mem_cons.mp hmem with rfl | hmem
      · refine ⟨Nat.lt_succ_self d, ?_⟩
        rw [List.length_take, List.length_drop]
        omega
      · obtain ⟨hlt, hlen⟩ := ih (by omega) hmem
        exact ⟨by omega, hlen⟩
    next =>
      obtain ⟨hlt, hlen⟩ := ih (by omega) hmem
      exact ⟨by omega, hlen⟩

/-! ## What a node tells -/

theorem length_keyRegion (hkey : key.length = 32) {d : Nat} (hd : d < 256) : (keyRegion key d).length = 32 := by
  simp only [keyRegion, List.length_append, List.length_take, List.length_singleton, List.length_replicate]
  omega

theorem rsmtNode_inj {d d' : Nat} {r r' l l' x x' : Bytes} (hd : d < 256) (hd' : d' < 256)
    (hr : r.length = r'.length) (hl : l.length = l'.length) (h : rsmtNode d r l x = rsmtNode d' r' l' x') :
    d = d' ∧ l = l' ∧ x = x' := by
  simp only [rsmtNode, List.cons_append, List.nil_append, List.cons.injEq, true_and] at h
  obtain ⟨hdepth, h⟩ := h
  have hnat := congrArg UInt8.toNat hdepth
  rw [UInt8.toNat_ofNat', UInt8.toNat_ofNat'] at hnat
  rw [List.append_assoc, List.append_assoc] at h
  obtain ⟨-, h⟩ := List.append_inj h hr
  obtain ⟨hleft, hright⟩ := List.append_inj h hl
  exact ⟨by omega, hleft, hright⟩

theorem pathNode_inj (hkey : key.length = 32) {s t : Nat × Bytes} (hs : s.1 < 256 ∧ s.2.length = 32)
    (ht : t.1 < 256 ∧ t.2.length = 32) {h k : Bytes32} (heq : pathNode key s h = pathNode key t k) :
    s = t ∧ h = k := by
  have hregion : (keyRegion key s.1).length = (keyRegion key t.1).length := by
    rw [length_keyRegion hkey hs.1, length_keyRegion hkey ht.1]
  have hdepth : s.1 = t.1 := by
    unfold pathNode at heq
    split at heq <;> split at heq
    all_goals exact (rsmtNode_inj hs.1 ht.1 hregion (by simp [hs.2, ht.2]) heq).1
  unfold pathNode at heq
  rw [hdepth] at heq
  split at heq
  · obtain ⟨-, hsib, hval⟩ := rsmtNode_inj ht.1 ht.1 rfl (by simp [hs.2, ht.2]) heq
    exact ⟨Prod.ext hdepth hsib, Subtype.ext hval⟩
  · obtain ⟨-, hval, hsib⟩ := rsmtNode_inj ht.1 ht.1 rfl (by simp) heq
    exact ⟨Prod.ext hdepth hsib, Subtype.ext hval⟩

theorem pathNode_ne_leaf (key' value : Bytes) (step : Nat × Bytes) (h : Bytes32) :
    pathNode key step h ≠ rsmtLeaf key' value := by
  unfold pathNode
  split <;> simp [rsmtNode, rsmtLeaf]

end Climb

/-! ## Runs -/

section Runs

variable {ε : Type} {H : Bytes → Bytes32} {q : MemberRequest}

/-- The hash the climb of a request ends in. -/
def MemberRequest.top (H : Bytes → Bytes32) (q : MemberRequest) : Bytes32 :=
  Foundation.climb H (q.path.map (pathNode q.key)) (H (rsmtLeaf q.key q.value))

theorem MemberRequest.Framed.climb (h : q.Framed) :
    (climb H q.key q.bitmap q.siblings 256 (popCount q.bitmap) (H (rsmtLeaf q.key q.value)) : Res ε Bytes32) =
      .ok (q.top H) := by
  rw [← onesBelow_bitmap h.bitmap]
  exact climb_eq h.key h.bitmap (Nat.le_refl 256) h.siblings.ge _

theorem MemberRequest.Framed.memberHolds (h : q.Framed) :
    (memberHolds H q : Res ε Bool) =
      .ok (decide (q.root ≠ List.replicate 32 0) && decide ((q.top H).val = q.root)) := by
  rw [B1.memberHolds, h.climb]
  rfl

theorem rsmtRun_accepts {input : Bytes} {gas : Nat} {out : Output}
    (h : (rsmtRun H input gas : Res (Error ε) Output) = .ok out) (hverdict : out.verdict = true)
    (hq : memberRequest input = .ok q) : q.Framed ∧ (q.top H).val = q.root := by
  obtain ⟨hframed, -⟩ := memberRequest_framed hq
  simp only [rsmtRun, hq, Res.bind_eq_ok, Res.mapErr_eq_ok, Res.refuse_eq_ok, Res.pure_eq_ok,
    Except.ok.injEq] at h
  obtain ⟨_, rfl, charge, -, _, -, valid, hvalid, rfl⟩ := h
  rw [hframed.memberHolds, Except.ok.injEq] at hvalid
  rw [Output.new, Output.versioned_verdict] at hverdict
  subst hvalid
  exact ⟨hframed, of_decide_eq_true (Bool.and_eq_true_iff.mp hverdict).2⟩

/-- Requests of one key whose climbs end in one hash are the same, hash collisions aside. -/
theorem MemberRequest.Framed.eq_of_top {q' : MemberRequest} (h : q.Framed) (h' : q'.Framed)
    (hkey : q.key = q'.key) (htop : q.top H = q'.top H) (hno : ¬ Collision H (q.inputs H ++ q'.inputs H)) :
    q.value = q'.value ∧ q.bitmap = q'.bitmap ∧ q.siblings = q'.siblings := by
  rw [top, top, ← hkey] at htop
  simp only [inputs, ← hkey] at hno
  have hpath := fun step (hs : step ∈ q.path) => mem_rsmtPath h.siblings.ge hs
  have hpath' := fun step (hs : step ∈ q'.path) => mem_rsmtPath h'.siblings.ge hs
  obtain ⟨haligned, hleaf⟩ := climb_aligned (R := Eq)
    (fun s hs t ht _ _ => pathNode_inj h.key (hpath s hs) (hpath' t ht))
    (fun s _ _ => pathNode_ne_leaf _ _ s _) (fun t _ _ => pathNode_ne_leaf _ _ t _) hno htop
  have hsame : q.path = q'.path := List.forall₂_eq_eq_eq ▸ haligned
  refine ⟨?_, ?_, ?_⟩
  · simpa [rsmtLeaf] using hleaf
  · refine eq_of_bitOf (by rw [h.bitmap, h'.bitmap]) fun d hd => ?_
    rw [h.bitmap] at hd
    have hdepths := congrArg (fun path => d ∈ path.map Prod.fst) hsame
    simp only [path, depths_rsmtPath, List.mem_filter, List.mem_reverse, List.mem_range, eq_iff_iff] at hdepths
    exact Bool.eq_iff_iff.mpr (by simpa [hd] using hdepths)
  · have hflat := flatten_rsmtPath h.siblings.ge
    have hflat' := flatten_rsmtPath h'.siblings.ge
    rw [← h.siblings, List.take_length] at hflat
    rw [← h'.siblings, List.take_length] at hflat'
    rw [← hflat, ← hflat']
    exact congrArg (fun path => (path.map Prod.snd).reverse.flatten) hsame

theorem onesBelow_le (b : Bytes) (n : Nat) : onesBelow b n ≤ n := by
  induction n with
  | zero => exact Nat.le_refl 0
  | succ d ih =>
    have hbit := Bool.toNat_le (bitOf b d)
    rw [onesBelow]
    omega

theorem noPanic_memberRequest (input : Bytes) : (memberRequest input).NoPanic :=
  (noPanic_header _).bind fun _ _ => (Res.noPanic_refuse _ _).bind fun _ _ =>
    (noPanic_take _ _).bind fun _ _ => (noPanic_take _ _).bind fun _ _ => (noPanic_uint _ _).bind fun _ _ =>
    (Res.noPanic_refuse _ _).bind fun _ _ => (noPanic_take _ _).bind fun _ _ =>
    (noPanic_take _ _).bind fun _ _ => (Res.noPanic_refuse _ _).bind fun _ _ => trivial

theorem noPanic_rsmtRun (input : Bytes) (gas : Nat) : (rsmtRun H input gas : Res (Error ε) Output).NoPanic := by
  refine (Res.failsOnly_mapErr (noPanic_memberRequest input) fun _ => trivial).bind fun q hq => ?_
  obtain ⟨hframed, hlen⟩ := memberRequest_framed (Res.mapErr_eq_ok.mp hq)
  have hvalue := hframed.value
  have hsiblings := hframed.siblings
  have hones := onesBelow_le q.bitmap 256
  have hcount := onesBelow_bitmap hframed.bitmap
  refine (Res.noPanic_u64 (by omega)).bind fun _ _ => (Res.noPanic_refuse _ _).bind fun _ _ => ?_
  rw [hframed.memberHolds]
  trivial

end Runs

end Ureth.Source.B1
