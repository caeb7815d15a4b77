import Ureth.Foundation.Cursor
import Ureth.Foundation.HeadTail
import Ureth.Source.Bridge.Abi

/-!
# The call and the envelope against their canonical encodings

Each reader of the bridge's decoder is compared with the piece of the canonical encoding that
stands where it reads: it succeeds exactly there and ends where the piece ends. So the layout has
no freedom, and the counts declared in the head words are those of the elements.
-/

namespace Ureth.Source.Bridge
open Ureth.Foundation

/-! ## The canonical encodings -/

/-- `abi.encode(uint8 op, bytes cfg, bytes envelope)`. -/
def Call.encoded (c : Call) : Bytes :=
  EthAbi.tuple [.static (EthAbi.word c.op), .dynamic (EthAbi.bytes c.cfg), .dynamic (EthAbi.bytes c.envelope)]

/-- `(uint32, bytes, bytes32, bytes32, bytes32, bytes, bytes)`. -/
def Anchor.encoded (a : Anchor) : Bytes :=
  EthAbi.tuple [.static (EthAbi.word a.partition), .dynamic (EthAbi.bytes a.shard), .static a.shardConfHash,
    .static a.expectedStateRoot, .static a.expectedIrHash, .dynamic (EthAbi.bytes a.uc),
    .dynamic (EthAbi.bytes a.inputRecord)]

/-- The siblings one by one. -/
def LeafProof.siblingWords (p : LeafProof) : List Bytes :=
  (List.range p.siblingCount).map fun i => (p.siblings.drop (32 * i)).take 32

/-- `(uint16 anchorIndex, bytes32 bitmap, bytes32[] siblings)`. -/
def LeafProof.encoded (p : LeafProof) : Bytes :=
  EthAbi.tuple [.static (EthAbi.word p.anchorIndex), .static p.bitmap,
    .dynamic (EthAbi.array (p.siblingWords.map .static))]

/-- `abi.encode(bytes policyBody, bytes history, Anchor[] anchors, LeafProof[] leafProofs)`. -/
def Envelope.encoded (e : Envelope) : Bytes :=
  EthAbi.tuple [.dynamic (EthAbi.bytes e.policyBody), .dynamic (EthAbi.bytes e.history),
    .dynamic (EthAbi.array (EthAbi.members Anchor.encoded e.anchors)),
    .dynamic (EthAbi.array (EthAbi.members LeafProof.encoded e.leafProofs))]

/-- The fields have the widths of their types. -/
structure Anchor.Typed (a : Anchor) : Prop where
  partition : a.partition < 2 ^ 32
  shardConfHash : a.shardConfHash.length = 32
  expectedStateRoot : a.expectedStateRoot.length = 32
  expectedIrHash : a.expectedIrHash.length = 32

structure LeafProof.Typed (p : LeafProof) : Prop where
  anchorIndex : p.anchorIndex < 2 ^ 16
  bitmap : p.bitmap.length = 32
  siblings : p.siblings.length % 32 = 0

structure Envelope.Typed (e : Envelope) : Prop where
  anchors : ∀ a ∈ e.anchors, a.Typed
  leafProofs : ∀ p ∈ e.leafProofs, p.Typed

/-! ## Their pieces -/

section Pieces

variable {b : Bytes} {pos : Nat}

theorem Anchor.Typed.length_encoded {a : Anchor} (h : a.Typed) :
    a.encoded.length = 224 + (EthAbi.bytes a.shard).length + (EthAbi.bytes a.uc).length +
      (EthAbi.bytes a.inputRecord).length := by
  simp only [Anchor.encoded, EthAbi.tuple, EthAbi.heads, EthAbi.tails, List.length_append, EthAbi.length_word,
    h.shardConfHash, h.expectedStateRoot, h.expectedIrHash, List.length_nil]
  omega

theorem Anchor.Typed.length_mod {a : Anchor} (h : a.Typed) : a.encoded.length % 32 = 0 := by
  have hlen := h.length_encoded
  rw [EthAbi.length_bytes, EthAbi.length_bytes, EthAbi.length_bytes] at hlen
  omega

theorem Anchor.Typed.hasAt_encoded {a : Anchor} (h : a.Typed) : HasAt b pos a.encoded ↔
    HasAt b pos (EthAbi.word a.partition) ∧ HasAt b (pos + 32) (EthAbi.word 224) ∧
      HasAt b (pos + 64) a.shardConfHash ∧ HasAt b (pos + 96) a.expectedStateRoot ∧
      HasAt b (pos + 128) a.expectedIrHash ∧
      HasAt b (pos + 160) (EthAbi.word (224 + (EthAbi.bytes a.shard).length)) ∧
      HasAt b (pos + 192)
        (EthAbi.word (224 + ((EthAbi.bytes a.shard).length + (EthAbi.bytes a.uc).length))) ∧
      HasAt b (pos + 224) (EthAbi.bytes a.shard) ∧
      HasAt b (pos + (224 + (EthAbi.bytes a.shard).length)) (EthAbi.bytes a.uc) ∧
      HasAt b (pos + (224 + ((EthAbi.bytes a.shard).length + (EthAbi.bytes a.uc).length)))
        (EthAbi.bytes a.inputRecord) := by
  simp only [Anchor.encoded, EthAbi.tuple, EthAbi.heads, EthAbi.tails, EthAbi.Part.headLength, List.map_cons,
    List.map_nil, List.sum_cons, List.sum_nil, EthAbi.length_word, List.append_nil, hasAt_append,
    List.append_assoc, Nat.reduceAdd, Nat.add_assoc, h.shardConfHash, h.expectedStateRoot, h.expectedIrHash]

theorem flatten_siblingWords {p : LeafProof} (h : p.siblings.length % 32 = 0) :
    p.siblingWords.flatten = p.siblings := by
  have htake : ∀ n, ((List.range n).map fun i => (p.siblings.drop (32 * i)).take 32).flatten =
      p.siblings.take (32 * n) := by
    intro n
    induction n with
    | zero => simp
    | succ n ih => simp [List.range_succ, ih, Nat.mul_add, List.take_add]
  have hall : 32 * p.siblingCount = p.siblings.length := by
    unfold LeafProof.siblingCount
    omega
  rw [LeafProof.siblingWords, htake, hall, List.take_length]

theorem LeafProof.Typed.encoded_eq {p : LeafProof} (h : p.Typed) :
    p.encoded = EthAbi.word p.anchorIndex ++ p.bitmap ++ EthAbi.word 96 ++ EthAbi.word p.siblingCount ++
      p.siblings := by
  have hcount : p.siblingWords.length = p.siblingCount := by simp [LeafProof.siblingWords]
  simp only [LeafProof.encoded, EthAbi.tuple, EthAbi.array, EthAbi.heads, EthAbi.tails, EthAbi.Part.headLength,
    List.map_cons, List.map_nil, List.sum_cons, List.sum_nil, EthAbi.length_word, List.append_nil, h.bitmap,
    EthAbi.heads_static, EthAbi.tails_static, flatten_siblingWords h.siblings, List.length_map, hcount,
    List.append_assoc, Nat.reduceAdd]

theorem LeafProof.Typed.length_encoded {p : LeafProof} (h : p.Typed) :
    p.encoded.length = 128 + 32 * p.siblingCount := by
  have hsiblings := h.siblings
  rw [h.encoded_eq]
  simp only [List.length_append, EthAbi.length_word, h.bitmap, LeafProof.siblingCount]
  omega

theorem LeafProof.Typed.length_mod {p : LeafProof} (h : p.Typed) : p.encoded.length % 32 = 0 := by
  have hlen := h.length_encoded
  omega

theorem LeafProof.Typed.hasAt_encoded {p : LeafProof} (h : p.Typed) : HasAt b pos p.encoded ↔
    HasAt b pos (EthAbi.word p.anchorIndex) ∧ HasAt b (pos + 32) p.bitmap ∧ HasAt b (pos + 64) (EthAbi.word 96) ∧
      HasAt b (pos + 96) (EthAbi.word p.siblingCount) ∧ HasAt b (pos + 128) p.siblings := by
  rw [h.encoded_eq]
  simp only [hasAt_append, List.length_append, EthAbi.length_word, h.bitmap, Nat.reduceAdd, and_assoc]

theorem Envelope.eq_encoded_iff {e : Envelope} : b = e.encoded ↔
    HasAt b 0 (EthAbi.word 128) ∧ HasAt b 32 (EthAbi.word (128 + (EthAbi.bytes e.policyBody).length)) ∧
      HasAt b 64 (EthAbi.word (128 + (EthAbi.bytes e.policyBody).length + (EthAbi.bytes e.history).length)) ∧
      HasAt b 96 (EthAbi.word (128 + (EthAbi.bytes e.policyBody).length + (EthAbi.bytes e.history).length +
        (EthAbi.array (EthAbi.members Anchor.encoded e.anchors)).length)) ∧
      HasAt b 128 (EthAbi.bytes e.policyBody) ∧
      HasAt b (128 + (EthAbi.bytes e.policyBody).length) (EthAbi.bytes e.history) ∧
      HasAt b (128 + (EthAbi.bytes e.policyBody).length + (EthAbi.bytes e.history).length)
        (EthAbi.array (EthAbi.members Anchor.encoded e.anchors)) ∧
      HasAt b (128 + (EthAbi.bytes e.policyBody).length + (EthAbi.bytes e.history).length +
        (EthAbi.array (EthAbi.members Anchor.encoded e.anchors)).length)
        (EthAbi.array (EthAbi.members LeafProof.encoded e.leafProofs)) ∧
      128 + (EthAbi.bytes e.policyBody).length + (EthAbi.bytes e.history).length +
        (EthAbi.array (EthAbi.members Anchor.encoded e.anchors)).length +
        (EthAbi.array (EthAbi.members LeafProof.encoded e.leafProofs)).length = b.length := by
  rw [← hasAt_zero_and_length]
  simp only [Envelope.encoded, EthAbi.tuple, EthAbi.heads, EthAbi.tails, EthAbi.Part.headLength, List.map_cons,
    List.map_nil, List.sum_cons, List.sum_nil, EthAbi.length_word, List.append_nil, hasAt_append, List.length_append,
    List.append_assoc, Nat.reduceAdd, Nat.zero_add, Nat.add_assoc]
  constructor
  · rintro ⟨⟨hfirst, hsecond, hthird, hfourth, hpolicy, hhistory, hanchors, hleaves⟩, hlen⟩
    exact ⟨hfirst, hsecond, hthird, hfourth, hpolicy, hhistory, hanchors, hleaves, by omega⟩
  · rintro ⟨hfirst, hsecond, hthird, hfourth, hpolicy, hhistory, hanchors, hleaves, hlen⟩
    exact ⟨⟨hfirst, hsecond, hthird, hfourth, hpolicy, hhistory, hanchors, hleaves⟩, by omega⟩

theorem siblings_le_tails {ps : List LeafProof} (h : ∀ p ∈ ps, p.Typed) :
    32 * (ps.map LeafProof.siblingCount).sum ≤ (EthAbi.tails (EthAbi.members LeafProof.encoded ps)).length := by
  induction ps with
  | nil => exact Nat.le_refl 0
  | cons p ps ih =>
    have hp := (h p (by simp)).length_encoded
    have hrest := ih fun q hq => h q (by simp [hq])
    rw [EthAbi.tails_members_cons, List.length_append, List.map_cons, List.sum_cons]
    omega

theorem length_tails_mod {α : Type} {enc : α → Bytes} {vs : List α} (h : ∀ v ∈ vs, (enc v).length % 32 = 0) :
    (EthAbi.tails (EthAbi.members enc vs)).length % 32 = 0 := by
  induction vs with
  | nil => rfl
  | cons v vs ih =>
    have hv := h v (by simp)
    have hrest := ih fun u hu => h u (by simp [hu])
    rw [EthAbi.tails_members_cons, List.length_append]
    omega

/-- An encoded envelope is whole words, four of them in its head. -/
theorem Envelope.Typed.length_encoded {e : Envelope} (h : e.Typed) (heq : b = e.encoded) :
    b.length % 32 = 0 ∧ 4 * 32 ≤ b.length := by
  obtain ⟨-, -, -, -, -, -, -, -, hlen⟩ := Envelope.eq_encoded_iff.mp heq
  have hpolicy := EthAbi.length_bytes e.policyBody
  have hhistory := EthAbi.length_bytes e.history
  have hanchors := @EthAbi.length_array_members _ Anchor.encoded e.anchors
  have hleaves := @EthAbi.length_array_members _ LeafProof.encoded e.leafProofs
  have hanchorTails := length_tails_mod fun a ha => (h.anchors a ha).length_mod
  have hleafTails := length_tails_mod fun p hp => (h.leafProofs p hp).length_mod
  omega

end Pieces

/-- No panic, and no failure whose status is the code of success. -/
abbrev Graceful {α : Type} (x : Res Status α) : Prop := x.FailsOnly (· ≠ .ok)

namespace Abi

variable {b d w : Bytes} {pos n stop t : Nat}

/-! ## Words and byte strings -/

section Readers

variable (hb : b.length < 2 ^ 63)
include hb

theorem word32_eq_ok : word32 b pos = .ok w ↔ w.length = 32 ∧ HasAt b pos w := by
  simp only [word32, Res.bind_eq_ok, Res.checkedAdd_eq_ok, Res.okOr_eq_ok, byteRange_eq_some]
  constructor
  · rintro ⟨_, ⟨-, rfl⟩, -, hlen, hw⟩
    exact ⟨by omega, hw⟩
  · rintro ⟨hlen, hw⟩
    have hle := hw.length_le
    exact ⟨_, ⟨by omega, rfl⟩, by omega, by omega, hw⟩

theorem word_eq_ok : word b pos = .ok n ↔ n < 2 ^ 64 ∧ HasAt b pos (EthAbi.word n) := by
  simp only [word, Res.bind_eq_ok, word32_eq_ok hb, Res.refuse_eq_ok, Res.pure_eq_ok]
  constructor
  · rintro ⟨w, ⟨hlen, hw⟩, _, hzero, hn⟩
    obtain ⟨hlt, rfl⟩ := (EthAbi.eq_word_iff hlen).mp ⟨hzero, hn⟩
    exact ⟨hlt, hw⟩
  · rintro ⟨hn, hw⟩
    obtain ⟨hzero, hvalue⟩ := (EthAbi.eq_word_iff (EthAbi.length_word n)).mpr ⟨hn, rfl⟩
    exact ⟨_, ⟨EthAbi.length_word n, hw⟩, (), hzero, hvalue⟩

theorem size_eq_ok : size b pos = .ok n ↔ n ≤ b.length ∧ HasAt b pos (EthAbi.word n) := by
  simp only [size, Res.bind_eq_ok, word_eq_ok hb, Res.refuse_eq_ok, Res.pure_eq_ok, not_lt]
  constructor
  · rintro ⟨_, ⟨-, hw⟩, _, hle, rfl⟩
    exact ⟨hle, hw⟩
  · rintro ⟨hle, hw⟩
    exact ⟨n, ⟨by omega, hw⟩, (), hle, rfl⟩

theorem bytesAt_eq_ok : bytesAt b pos = .ok (d, stop) ↔
    HasAt b pos (EthAbi.bytes d) ∧ stop = pos + (EthAbi.bytes d).length := by
  simp only [bytesAt, pad32, Res.bind_eq_ok, size_eq_ok hb, Res.checkedAdd_eq_ok, Res.u64_eq_ok, Res.okOr_eq_ok,
    Res.refuse_eq_ok, Res.pure_eq_ok, Prod.mk.injEq, byteRange_eq_some, EthAbi.bytes,
    hasAt_append, List.length_append, EthAbi.length_word, List.length_replicate, EthAbi.padding,
    Bool.not_eq_true, EthAbi.any_ne_zero_eq_false]
  constructor
  · rintro ⟨n, ⟨-, hword⟩, _, ⟨-, rfl⟩, _, ⟨-, rfl⟩, _, ⟨-, rfl⟩, _, ⟨-, rfl⟩, data, ⟨-, hlen, hdata⟩, zeros,
      ⟨-, hzlen, hzeros⟩, _, hzero, rfl, rfl⟩
    have hn : data.length = n := by omega
    subst hn
    have hwidth : zeros.length = (data.length + 31) / 32 * 32 - data.length := by omega
    refine ⟨⟨⟨hword, hdata⟩, ?_⟩, by omega⟩
    rwa [← hwidth, ← hzero, ← Nat.add_assoc]
  · rintro ⟨⟨⟨hword, hdata⟩, hzeros⟩, rfl⟩
    have hle := hzeros.length_le
    rw [List.length_replicate] at hle
    rw [← Nat.add_assoc] at hzeros
    refine ⟨d.length, ⟨by omega, hword⟩, _, ⟨by omega, rfl⟩, _, ⟨by omega, rfl⟩, _, ⟨by omega, rfl⟩, _,
      ⟨by omega, rfl⟩, d, ⟨by omega, by omega, hdata⟩, _, ⟨by omega, ?_, hzeros⟩, (), ?_, rfl, by omega⟩
    · rw [List.length_replicate]
      omega
    · rw [List.length_replicate]

/-! ## The call -/

theorem decodeCall_eq_ok {c : Call} : decodeCall b = .ok c ↔ c.op ≤ 255 ∧ b = c.encoded := by
  rw [Call.encoded, EthAbi.eq_call_iff]
  simp only [decodeCall, Res.bind_eq_ok, Res.refuse_eq_ok, Prod.exists, Res.pure_eq_ok, not_lt,
    not_not, word_eq_ok hb, size_eq_ok hb, bytesAt_eq_ok hb]
  constructor
  · rintro ⟨op, ⟨-, hop⟩, _, hsmall, _, ⟨-, hfirst⟩, _, rfl, cfg, _, ⟨hcfg, rfl⟩, _, ⟨-, hsecond⟩, _, rfl, envelope,
      _, ⟨henvelope, hstop⟩, _, rfl, rfl⟩
    exact ⟨hsmall, hop, hfirst, hsecond, hcfg, henvelope, hstop.symm⟩
  · rintro ⟨hsmall, hop, hfirst, hsecond, hcfg, henvelope, hlen⟩
    exact ⟨c.op, ⟨by omega, hop⟩, (), hsmall, 96, ⟨by omega, hfirst⟩, (), rfl, c.cfg, _, ⟨hcfg, rfl⟩, _,
      ⟨by omega, hsecond⟩, (), rfl, c.envelope, _, ⟨henvelope, rfl⟩, (), hlen, rfl⟩

/-! ## The elements -/

theorem anchorAt_eq_ok {a : Anchor} : anchorAt b t = .ok (a, stop) ↔
    a.Typed ∧ HasAt b t a.encoded ∧ stop = t + a.encoded.length := by
  simp only [anchorAt, Res.bind_eq_ok, Res.refuse_eq_ok, Prod.exists, Res.pure_eq_ok, Prod.mk.injEq,
    not_le, not_not, Res.u64_eq_ok, Res.sub_eq_ok, word_eq_ok hb, size_eq_ok hb, bytesAt_eq_ok hb, word32_eq_ok hb]
  constructor
  · rintro ⟨partition, ⟨-, hpartition⟩, _, hnarrow, _, ⟨-, rfl⟩, _, ⟨-, hfirst⟩, _, rfl, shard, _, ⟨hshard, rfl⟩, _,
      ⟨-, hsecond⟩, _, ⟨-, rfl⟩, _, rfl, uc, _, ⟨huc, rfl⟩, _, ⟨-, hthird⟩, _, ⟨-, rfl⟩, _, rfl, record, _,
      ⟨hrecord, rfl⟩, conf, ⟨hconf, hconfAt⟩, state, ⟨hstate, hstateAt⟩, ir, ⟨hir, hirAt⟩, rfl, rfl⟩
    have htyped : Anchor.Typed ⟨partition, shard, conf, state, ir, uc, record⟩ := ⟨hnarrow, hconf, hstate, hir⟩
    rw [Nat.add_assoc t, Nat.add_sub_cancel_left] at hsecond
    rw [Nat.add_assoc, Nat.add_assoc t, Nat.add_sub_cancel_left] at hthird
    rw [Nat.add_assoc t] at huc
    rw [Nat.add_assoc, Nat.add_assoc t] at hrecord
    have hlen := htyped.length_encoded
    dsimp only at hlen
    exact ⟨htyped, htyped.hasAt_encoded.mpr ⟨hpartition, hfirst, hconfAt, hstateAt, hirAt, hsecond, hthird, hshard,
      huc, hrecord⟩, by omega⟩
  · rintro ⟨htyped, hat, rfl⟩
    have hle := hat.length_le
    obtain ⟨hpartition, hfirst, hconfAt, hstateAt, hirAt, hsecond, hthird, hshard, huc, hrecord⟩ :=
      htyped.hasAt_encoded.mp hat
    have hnarrow := htyped.partition
    rw [htyped.length_encoded] at hle ⊢
    rw [← Nat.add_assoc] at huc
    rw [← Nat.add_assoc, ← Nat.add_assoc] at hrecord
    refine ⟨a.partition, ⟨by omega, hpartition⟩, (), hnarrow, _, ⟨by omega, rfl⟩, _, ⟨by omega, hfirst⟩, (), rfl,
      a.shard, _, ⟨hshard, rfl⟩, _, ⟨by omega, hsecond⟩, _, ⟨by omega, rfl⟩, (), by omega, a.uc, _, ⟨huc, rfl⟩, _,
      ⟨by omega, hthird⟩, _, ⟨by omega, rfl⟩, (), by omega, a.inputRecord, _, ⟨hrecord, rfl⟩, _,
      ⟨htyped.shardConfHash, hconfAt⟩, _, ⟨htyped.expectedStateRoot, hstateAt⟩, _, ⟨htyped.expectedIrHash, hirAt⟩,
      rfl, by omega⟩

theorem leafAt_eq_ok {p : LeafProof} : leafAt b t = .ok (p, stop) ↔
    p.Typed ∧ HasAt b t p.encoded ∧ stop = t + p.encoded.length := by
  simp only [leafAt, Res.bind_eq_ok, Res.refuse_eq_ok, Res.pure_eq_ok, Prod.mk.injEq, not_le, not_not,
    Res.u64_eq_ok, Res.checkedAdd_eq_ok, Res.okOr_eq_ok, word_eq_ok hb, size_eq_ok hb, word32_eq_ok hb,
    byteRange_eq_some]
  constructor
  · rintro ⟨index, ⟨-, hindex⟩, _, hnarrow, _, ⟨-, rfl⟩, _, ⟨-, hfirst⟩, _, rfl, n, ⟨-, hcount⟩, _, -, _, ⟨-, rfl⟩,
      bitmap, ⟨hbitmap, hbitmapAt⟩, siblings, ⟨-, hlen, hsiblings⟩, rfl, rfl⟩
    have hwhole : siblings.length = n * 32 := by omega
    have htyped : LeafProof.Typed ⟨index, bitmap, siblings⟩ := ⟨hnarrow, hbitmap, by dsimp only; omega⟩
    have hn : LeafProof.siblingCount ⟨index, bitmap, siblings⟩ = n := by
      rw [LeafProof.siblingCount, hwhole]
      omega
    have hlength := htyped.length_encoded
    rw [hn] at hlength
    refine ⟨htyped, htyped.hasAt_encoded.mpr ⟨hindex, hbitmapAt, hfirst, ?_, hsiblings⟩, by omega⟩
    rw [hn]
    exact hcount
  · rintro ⟨htyped, hat, rfl⟩
    have hle := hat.length_le
    obtain ⟨hindex, hbitmapAt, hfirst, hcount, hsiblings⟩ := htyped.hasAt_encoded.mp hat
    have hnarrow := htyped.anchorIndex
    have hwhole : p.siblings.length = p.siblingCount * 32 := by
      have := htyped.siblings
      rw [LeafProof.siblingCount]
      omega
    rw [htyped.length_encoded] at hle ⊢
    exact ⟨p.anchorIndex, ⟨by omega, hindex⟩, (), hnarrow, _, ⟨by omega, rfl⟩, _, ⟨by omega, hfirst⟩, (), rfl, _,
      ⟨by omega, hcount⟩, (), by omega, _, ⟨by omega, rfl⟩, _, ⟨htyped.bitmap, hbitmapAt⟩, p.siblings,
      ⟨by omega, by omega, hsiblings⟩, rfl, by omega⟩

/-! ## Arrays of tuples -/

section Arrays

variable {α : Type} {elem : Bytes → Nat → Res Unit (α × Nat)} {enc : α → Bytes} {P : α → Prop}
  (helem : ∀ t v stop, elem b t = .ok (v, stop) ↔ P v ∧ HasAt b t (enc v) ∧ stop = t + (enc v).length)
include helem

/-- The elements from index `i` on stand one after the other from `next`, with their offsets from
the `i`th head on. -/
theorem tupleElems_eq_ok {base i next : Nat} {vs : List α} (hnext : base ≤ next)
    (hroom : n = 0 → base + 32 * i ≤ b.length ∧ next ≤ b.length) :
    tupleElems b elem base n i next = .ok (vs, stop) ↔
      vs.length = n ∧ (∀ v ∈ vs, P v) ∧
        HasAt b (base + 32 * i) (EthAbi.heads (next - base) (EthAbi.members enc vs)) ∧
        HasAt b next (EthAbi.tails (EthAbi.members enc vs)) ∧
        stop = next + (EthAbi.tails (EthAbi.members enc vs)).length := by
  induction n generalizing i next vs stop with
  | zero =>
    obtain ⟨hheads, htails⟩ := hroom rfl
    simp only [tupleElems, Except.ok.injEq, Prod.mk.injEq, List.length_eq_zero_iff]
    constructor
    · rintro ⟨rfl, rfl⟩
      exact ⟨rfl, by simp, hasAt_nil.mpr hheads, hasAt_nil.mpr htails, rfl⟩
    · rintro ⟨rfl, -, -, -, rfl⟩
      exact ⟨rfl, rfl⟩
  | succ n ih =>
    simp only [tupleElems, Res.bind_eq_ok, Res.refuse_eq_ok, Prod.exists, Res.pure_eq_ok,
      Prod.mk.injEq, not_not, Res.u64_eq_ok, Res.sub_eq_ok, size_eq_ok hb, helem]
    constructor
    · rintro ⟨_, ⟨-, rfl⟩, _, ⟨-, hoffset⟩, _, ⟨-, rfl⟩, _, rfl, v, _, ⟨hv, hat, rfl⟩, vs, _, hrest, rfl, rfl⟩
      have hword := hoffset.length_le
      have hbody := hat.length_le
      rw [EthAbi.length_word] at hword
      obtain ⟨hlen, hall, hheads, htails, rfl⟩ := (ih (by omega) fun _ => ⟨by omega, hbody⟩).mp hrest
      refine ⟨by simp [hlen], by simpa using ⟨hv, hall⟩, ?_, ?_, ?_⟩
      · rw [EthAbi.heads_members_cons, hasAt_append, EthAbi.length_word]
        refine ⟨hoffset, ?_⟩
        rw [Nat.mul_add, ← Nat.add_assoc, Nat.sub_add_comm hnext] at hheads
        exact hheads
      · rw [EthAbi.tails_members_cons, hasAt_append]
        exact ⟨hat, htails⟩
      · rw [EthAbi.tails_members_cons, List.length_append]
        omega
    · rintro ⟨hlen, hall, hheads, htails, rfl⟩
      obtain ⟨v, vs, rfl⟩ := List.exists_cons_of_length_eq_add_one hlen
      rw [EthAbi.heads_members_cons, hasAt_append, EthAbi.length_word] at hheads
      rw [EthAbi.tails_members_cons, hasAt_append] at htails
      have hword := hheads.1.length_le
      have hbody := htails.1.length_le
      rw [EthAbi.length_word] at hword
      refine ⟨_, ⟨by omega, rfl⟩, _, ⟨by omega, hheads.1⟩, _, ⟨hnext, rfl⟩, (), rfl, v, _,
        ⟨hall v (by simp), htails.1, rfl⟩, vs, _,
        (ih (by omega) fun _ => ⟨by omega, hbody⟩).mpr ⟨by simpa using hlen, fun u hu => hall u (by simp [hu]), ?_,
          htails.2, rfl⟩, rfl, ?_⟩
      · rw [Nat.mul_add, ← Nat.add_assoc, Nat.sub_add_comm hnext]
        exact hheads.2
      · rw [EthAbi.tails_members_cons, List.length_append]
        omega

theorem tupleArray_eq_ok {vs : List α} : tupleArray b pos elem = .ok (vs, stop) ↔
    (∀ v ∈ vs, P v) ∧ HasAt b pos (EthAbi.array (EthAbi.members enc vs)) ∧
      stop = pos + (EthAbi.array (EthAbi.members enc vs)).length := by
  simp only [tupleArray, Res.bind_eq_ok, Res.refuse_eq_ok, Res.checkedAdd_eq_ok, size_eq_ok hb, not_le,
    EthAbi.hasAt_array_members, EthAbi.length_array_members]
  constructor
  · rintro ⟨n, ⟨-, hcount⟩, _, ⟨-, rfl⟩, _, -, _, ⟨-, rfl⟩, helems⟩
    have hword := hcount.length_le
    rw [EthAbi.length_word] at hword
    obtain ⟨rfl, hall, hheads, htails, rfl⟩ :=
      (tupleElems_eq_ok hb helem (by omega) fun hn => ⟨by omega, by omega⟩).mp helems
    rw [Nat.mul_zero, Nat.add_zero, Nat.add_sub_cancel_left, Nat.mul_comm] at hheads
    rw [Nat.mul_comm] at htails
    exact ⟨hall, ⟨hcount, hheads, htails⟩, by omega⟩
  · rintro ⟨hall, ⟨hcount, hheads, htails⟩, rfl⟩
    have hword := hcount.length_le
    have hroom := hheads.length_le
    rw [EthAbi.length_word] at hword
    rw [EthAbi.length_heads_members] at hroom
    refine ⟨vs.length, ⟨by omega, hcount⟩, _, ⟨by omega, rfl⟩, (), by omega, _, ⟨by omega, rfl⟩,
      (tupleElems_eq_ok hb helem (by omega) fun hn => ⟨by omega, by omega⟩).mpr ⟨rfl, hall, ?_, ?_, by omega⟩⟩
    · rw [Nat.mul_zero, Nat.add_zero, Nat.add_sub_cancel_left, Nat.mul_comm]
      exact hheads
    · rw [Nat.mul_comm vs.length 32]
      exact htails

end Arrays

/-! ## The envelope -/

theorem layout_eq_ok {e : Envelope} : layout b = .ok e ↔ e.Typed ∧ b = e.encoded := by
  rw [Envelope.eq_encoded_iff]
  simp only [layout, Res.bind_eq_ok, Res.refuse_eq_ok, Prod.exists, Res.pure_eq_ok, not_not,
    size_eq_ok hb, bytesAt_eq_ok hb, tupleArray_eq_ok hb fun _ _ _ => anchorAt_eq_ok hb,
    tupleArray_eq_ok hb fun _ _ _ => leafAt_eq_ok hb]
  constructor
  · rintro ⟨_, ⟨-, hfirst⟩, _, rfl, policy, _, ⟨hpolicy, rfl⟩, _, ⟨-, hsecond⟩, _, rfl, history, _, ⟨hhistory, rfl⟩, _,
      ⟨-, hthird⟩, _, rfl, anchors, _, ⟨hanchors, hanchorsAt, rfl⟩, _, ⟨-, hfourth⟩, _, rfl, leaves, _,
      ⟨hleaves, hleavesAt, hstop⟩, _, rfl, rfl⟩
    exact ⟨⟨hanchors, hleaves⟩, hfirst, hsecond, hthird, hfourth, hpolicy, hhistory, hanchorsAt, hleavesAt, hstop.symm⟩
  · rintro ⟨⟨hanchors, hleaves⟩, hfirst, hsecond, hthird, hfourth, hpolicy, hhistory, hanchorsAt, hleavesAt, hlen⟩
    have hcount := hfourth.length_le
    rw [EthAbi.length_word] at hcount
    exact ⟨128, ⟨by omega, hfirst⟩, (), rfl, _, _, ⟨hpolicy, rfl⟩, _, ⟨by omega, hsecond⟩, (), rfl, _, _,
      ⟨hhistory, rfl⟩, _, ⟨by omega, hthird⟩, (), rfl, _, _, ⟨hanchors, hanchorsAt, rfl⟩, _, ⟨by omega, hfourth⟩, (),
      rfl, _, _, ⟨hleaves, hleavesAt, rfl⟩, (), hlen, rfl⟩

theorem countWord_eq_ok : countWord b pos = .ok n ↔ n < 2 ^ 64 ∧ HasAt b pos (EthAbi.word n) := by
  rw [countWord, Res.mapErr_eq_ok, word_eq_ok hb]

/-- The declared siblings of leaf proofs that stand in place pass the bound. -/
theorem boundLeaves_of_hasAt {ps : List LeafProof} (hps : ∀ p ∈ ps, p.Typed) {offLeaves room i off steps : Nat}
    (hheads : HasAt b (offLeaves + 32 + 32 * i) (EthAbi.heads off (EthAbi.members LeafProof.encoded ps)))
    (htails : HasAt b (offLeaves + 32 + off) (EthAbi.tails (EthAbi.members LeafProof.encoded ps)))
    (hroom : steps + (ps.map LeafProof.siblingCount).sum ≤ room) (hsmall : room ≤ b.length) :
    boundLeaves b offLeaves room ps.length i steps = .ok () := by
  induction ps generalizing i off steps with
  | nil => rfl
  | cons p ps ih =>
    have hp := hps p (by simp)
    rw [EthAbi.heads_members_cons, hasAt_append, EthAbi.length_word] at hheads
    rw [EthAbi.tails_members_cons, hasAt_append] at htails
    obtain ⟨-, -, hfirst, hcount, -⟩ := hp.hasAt_encoded.mp htails.1
    have hword := hheads.1.length_le
    have hfield := hcount.length_le
    rw [EthAbi.length_word] at hword hfield
    rw [List.map_cons, List.sum_cons] at hroom
    have hheads' : HasAt b (offLeaves + 32 + 32 * (i + 1))
        (EthAbi.heads (off + p.encoded.length) (EthAbi.members LeafProof.encoded ps)) := by
      rw [Nat.mul_add, ← Nat.add_assoc]
      exact hheads.2
    have htails' : HasAt b (offLeaves + 32 + (off + p.encoded.length))
        (EthAbi.tails (EthAbi.members LeafProof.encoded ps)) := by
      rw [← Nat.add_assoc]
      exact htails.2
    have hroom' : steps + p.siblingCount + (ps.map LeafProof.siblingCount).sum ≤ room := by omega
    have hrest := ih (fun q hq => hps q (by simp [hq])) hheads' htails' hroom'
    simp only [List.length_cons, boundLeaves, Res.bind_eq_ok, Res.u64_eq_ok, Res.checkedAdd_eq_ok, Res.sub_eq_ok,
      Res.refuse_eq_ok, countWord_eq_ok hb, not_lt]
    exact ⟨_, ⟨by omega, rfl⟩, _, ⟨by omega, rfl⟩, off, ⟨by omega, by rw [← Nat.add_assoc]; exact hheads.1⟩, _,
      ⟨by omega, rfl⟩, _, ⟨by omega, rfl⟩, _, ⟨by omega, rfl⟩, 96, ⟨by omega, hfirst⟩, _, ⟨by omega, rfl⟩,
      p.siblingCount, ⟨by omega, hcount⟩, _, ⟨by omega, rfl⟩, (), by omega, _, ⟨by omega, rfl⟩, hrest⟩

/-- The anchor count that is bounded is the one of the anchors collected later. -/
theorem anchors_le_of_boundCounts {e : Envelope} (heq : b = e.encoded) (h : boundCounts b = .ok ()) :
    e.anchors.length ≤ maxAnchors := by
  obtain ⟨-, -, hthird, -, -, -, hanchors, -, hlen⟩ := Envelope.eq_encoded_iff.mp heq
  obtain ⟨hcount, -, -⟩ := EthAbi.hasAt_array_members.mp hanchors
  have hanchorsLen := @EthAbi.length_array_members _ Anchor.encoded e.anchors
  simp only [boundCounts, Res.bind_eq_ok, Res.refuse_eq_ok, countWord_eq_ok hb, not_lt] at h
  obtain ⟨off, ⟨hoff, hoffAt⟩, _, -, _, -, na, ⟨hna, hnaAt⟩, _, -, _, hle, -⟩ := h
  obtain rfl := EthAbi.word_inj hoff (by omega) (hoffAt.eq hthird (by simp))
  obtain rfl := EthAbi.word_inj hna (by omega) (hnaAt.eq hcount (by simp))
  exact hle

/-- The counts of a canonical envelope pass the bound that is checked before anything is collected. -/
theorem boundCounts_of_encoded {e : Envelope} (htyped : e.Typed) (hmax : e.anchors.length ≤ maxAnchors)
    (heq : b = e.encoded) : boundCounts b = .ok () := by
  obtain ⟨-, -, hthird, hfourth, -, -, hanchors, hleaves, hlen⟩ := Envelope.eq_encoded_iff.mp heq
  have hanchorsLen := @EthAbi.length_array_members _ Anchor.encoded e.anchors
  have hleavesLen := @EthAbi.length_array_members _ LeafProof.encoded e.leafProofs
  have hsiblings := siblings_le_tails htyped.leafProofs
  obtain ⟨hanchorCount, -, -⟩ := EthAbi.hasAt_array_members.mp hanchors
  obtain ⟨hleafCount, hheads, htails⟩ := EthAbi.hasAt_array_members.mp hleaves
  simp only [boundCounts, Res.bind_eq_ok, Res.refuse_eq_ok, countWord_eq_ok hb, not_lt, not_or]
  exact ⟨_, ⟨by omega, hthird⟩, _, ⟨by omega, hfourth⟩, (), ⟨by omega, by omega⟩, e.anchors.length,
    ⟨by omega, hanchorCount⟩, (), by omega, (), hmax, e.leafProofs.length, ⟨by omega, hleafCount⟩, (), by omega,
    boundLeaves_of_hasAt hb htyped.leafProofs hheads htails (by omega) (by omega)⟩

end Readers

/-- The envelope decoder is the inverse of the canonical encoder within the limits. -/
theorem decodeEnvelope_eq_ok {b : Bytes} {e : Envelope} : decodeEnvelope b = .ok e ↔
    e.Typed ∧ e.anchors.length ≤ maxAnchors ∧ b.length ≤ maxEnvelopeBytes ∧ b = e.encoded := by
  have hmax : maxEnvelopeBytes < 2 ^ 63 := by decide
  simp only [decodeEnvelope, Res.bind_eq_ok, Res.refuse_eq_ok, Res.mapErr_eq_ok, not_lt, not_or, not_not]
  constructor
  · rintro ⟨_, hlen, _, -, _, hcounts, hlayout⟩
    obtain ⟨htyped, heq⟩ := (layout_eq_ok (by omega)).mp hlayout
    exact ⟨htyped, anchors_le_of_boundCounts (by omega) heq hcounts, hlen, heq⟩
  · rintro ⟨htyped, hanchors, hlen, heq⟩
    exact ⟨(), hlen, (), htyped.length_encoded heq, (),
      boundCounts_of_encoded (by omega) htyped hanchors heq, (layout_eq_ok (by omega)).mpr ⟨htyped, heq⟩⟩

/-! ## No reader overflows or leaves its input -/

section Safety

variable {b : Bytes} {pos t : Nat}

theorem noPanic_word32 : (word32 b pos).NoPanic :=
  (Res.failsOnly_checkedAdd trivial).bind fun _ _ => Res.noPanic_okOr _ _

theorem noPanic_word : (word b pos).NoPanic :=
  noPanic_word32.bind fun _ _ => (Res.noPanic_refuse _ _).bind fun _ _ => trivial

theorem noPanic_size : (size b pos).NoPanic :=
  noPanic_word.bind fun _ _ => (Res.noPanic_refuse _ _).bind fun _ _ => trivial

theorem graceful_countWord : Graceful (countWord b pos) := Res.failsOnly_mapErr noPanic_word fun _ => by decide

/-- A read that ended did so inside the input. -/
theorem bytesAt_stop (hb : b.length < 2 ^ 63) {d : Bytes} {stop : Nat} (h : bytesAt b pos = .ok (d, stop)) :
    pos ≤ stop ∧ stop ≤ b.length := by
  obtain ⟨hat, rfl⟩ := (bytesAt_eq_ok hb).mp h
  exact ⟨Nat.le_add_right _ _, hat.length_le⟩

theorem noPanic_bytesAt (hb : b.length < 2 ^ 63) : (bytesAt b pos).NoPanic := by
  refine noPanic_size.bind fun len hlen => ?_
  obtain ⟨hle, -⟩ := (size_eq_ok hb).mp hlen
  refine (Res.failsOnly_checkedAdd trivial).bind fun _ _ => (Res.failsOnly_checkedAdd trivial).bind fun _ _ => ?_
  refine Res.FailsOnly.bind (Res.noPanic_u64 (by omega)) fun _ _ => ?_
  exact (Res.failsOnly_checkedAdd trivial).bind fun _ _ => (Res.noPanic_okOr _ _).bind fun _ _ =>
    (Res.noPanic_okOr _ _).bind fun _ _ => (Res.noPanic_refuse _ _).bind fun _ _ => trivial

theorem noPanic_decodeCall (hb : b.length < 2 ^ 63) : (decodeCall b).NoPanic :=
  noPanic_word.bind fun _ _ => (Res.noPanic_refuse _ _).bind fun _ _ => noPanic_word.bind fun _ _ =>
    (Res.noPanic_refuse _ _).bind fun _ _ => (noPanic_bytesAt hb).bind fun _ _ => noPanic_size.bind fun _ _ =>
    (Res.noPanic_refuse _ _).bind fun _ _ => (noPanic_bytesAt hb).bind fun _ _ =>
    (Res.noPanic_refuse _ _).bind fun _ _ => trivial

theorem noPanic_anchorAt (hb : b.length < 2 ^ 63) (ht : t ≤ 64 + 33 * maxEnvelopeBytes) : (anchorAt b t).NoPanic := by
  have hmax : maxEnvelopeBytes = 2 ^ 21 := by decide
  refine noPanic_word.bind fun _ _ => (Res.noPanic_refuse _ _).bind fun _ _ => ?_
  refine Res.FailsOnly.bind (Res.noPanic_u64 (by omega)) fun tail htail => ?_
  obtain ⟨-, rfl⟩ := Res.u64_eq_ok.mp htail
  refine noPanic_size.bind fun _ _ => (Res.noPanic_refuse _ _).bind fun _ _ => ?_
  refine (noPanic_bytesAt hb).bind fun ⟨_, afterShard⟩ hshard => noPanic_size.bind fun _ _ => ?_
  have hshardStop := bytesAt_stop hb hshard
  refine Res.FailsOnly.bind (Res.noPanic_sub (by omega)) fun _ _ => (Res.noPanic_refuse _ _).bind fun _ _ => ?_
  refine (noPanic_bytesAt hb).bind fun ⟨_, afterUc⟩ huc => noPanic_size.bind fun _ _ => ?_
  have hucStop := bytesAt_stop hb huc
  refine Res.FailsOnly.bind (Res.noPanic_sub (by omega)) fun _ _ => ?_
  exact (Res.noPanic_refuse _ _).bind fun _ _ => (noPanic_bytesAt hb).bind fun _ _ => noPanic_word32.bind fun _ _ =>
    noPanic_word32.bind fun _ _ => noPanic_word32.bind fun _ _ => trivial

theorem noPanic_leafAt (ht : t ≤ 64 + 33 * maxEnvelopeBytes) : (leafAt b t).NoPanic := by
  have hmax : maxEnvelopeBytes = 2 ^ 21 := by decide
  refine noPanic_word.bind fun _ _ => (Res.noPanic_refuse _ _).bind fun _ _ => ?_
  refine Res.FailsOnly.bind (Res.noPanic_u64 (by omega)) fun _ _ => ?_
  exact noPanic_size.bind fun _ _ => (Res.noPanic_refuse _ _).bind fun _ _ => noPanic_size.bind fun _ _ =>
    (Res.noPanic_refuse _ _).bind fun _ _ => (Res.failsOnly_checkedAdd trivial).bind fun _ _ =>
    noPanic_word32.bind fun _ _ => (Res.noPanic_okOr _ _).bind fun _ _ => trivial

section Arrays

variable {α : Type} {elem : Bytes → Nat → Res Unit (α × Nat)} (hb : b.length ≤ maxEnvelopeBytes)
  (helem : ∀ t ≤ 64 + 33 * maxEnvelopeBytes, (elem b t).NoPanic)
  (hstop : ∀ t v stop, elem b t = .ok (v, stop) → t ≤ stop ∧ stop ≤ b.length)

include hb helem hstop

theorem noPanic_tupleElems {base n i next : Nat} (hbase : base ≤ next) (hnext : next ≤ 64 + 33 * maxEnvelopeBytes)
    (hi : i + n ≤ b.length) : (tupleElems b elem base n i next).NoPanic := by
  have hmax : maxEnvelopeBytes = 2 ^ 21 := by decide
  induction n generalizing i next with
  | zero => trivial
  | succ n ih =>
    refine Res.FailsOnly.bind (Res.noPanic_u64 (by omega)) fun _ _ => noPanic_size.bind fun _ _ => ?_
    refine Res.FailsOnly.bind (Res.noPanic_sub hbase) fun _ _ => (Res.noPanic_refuse _ _).bind fun _ _ => ?_
    refine Res.FailsOnly.bind (helem next hnext) fun ⟨v, stop⟩ hv => ?_
    obtain ⟨hle, hin⟩ := hstop next v stop hv
    exact (ih (by omega) (by omega) (by omega)).bind fun _ _ => trivial

theorem noPanic_tupleArray (hpos : pos ≤ b.length) : (tupleArray b pos elem).NoPanic := by
  refine noPanic_size.bind fun n hn => (Res.failsOnly_checkedAdd trivial).bind fun base hbase =>
    (Res.noPanic_refuse _ _).bind fun _ _ => (Res.failsOnly_checkedAdd trivial).bind fun next hnext => ?_
  have hmax : maxEnvelopeBytes = 2 ^ 21 := by decide
  obtain ⟨hle, -⟩ := (size_eq_ok (by omega)).mp hn
  obtain ⟨-, rfl⟩ := Res.checkedAdd_eq_ok.mp hbase
  obtain ⟨-, rfl⟩ := Res.checkedAdd_eq_ok.mp hnext
  exact noPanic_tupleElems hb helem hstop (by omega) (by omega) (by omega)

end Arrays

theorem noPanic_layout (hb : b.length ≤ maxEnvelopeBytes) : (layout b).NoPanic := by
  have hmax : maxEnvelopeBytes = 2 ^ 21 := by decide
  have hb' : b.length < 2 ^ 63 := by omega
  have hanchorStop : ∀ t v stop, anchorAt b t = .ok (v, stop) → t ≤ stop ∧ stop ≤ b.length := by
    intro t v stop h
    obtain ⟨-, hat, rfl⟩ := (anchorAt_eq_ok hb').mp h
    exact ⟨Nat.le_add_right _ _, hat.length_le⟩
  have hleafStop : ∀ t v stop, leafAt b t = .ok (v, stop) → t ≤ stop ∧ stop ≤ b.length := by
    intro t v stop h
    obtain ⟨-, hat, rfl⟩ := (leafAt_eq_ok hb').mp h
    exact ⟨Nat.le_add_right _ _, hat.length_le⟩
  refine noPanic_size.bind fun _ _ => (Res.noPanic_refuse _ _).bind fun _ _ => (noPanic_bytesAt hb').bind fun _ _ =>
    noPanic_size.bind fun _ _ => (Res.noPanic_refuse _ _).bind fun _ _ =>
    (noPanic_bytesAt hb').bind fun ⟨_, _⟩ hhistory => noPanic_size.bind fun _ _ =>
    (Res.noPanic_refuse _ _).bind fun _ _ => ?_
  refine Res.FailsOnly.bind (noPanic_tupleArray hb (fun t ht => noPanic_anchorAt hb' ht) hanchorStop
    (bytesAt_stop hb' hhistory).2) fun ⟨anchors, _⟩ hanchors => ?_
  obtain ⟨-, hat, rfl⟩ := (tupleArray_eq_ok hb' fun _ _ _ => anchorAt_eq_ok hb').mp hanchors
  refine noPanic_size.bind fun _ _ => (Res.noPanic_refuse _ _).bind fun _ _ => ?_
  exact (noPanic_tupleArray hb (fun t ht => noPanic_leafAt ht) hleafStop hat.length_le).bind fun _ _ =>
    (Res.noPanic_refuse _ _).bind fun _ _ => trivial

theorem graceful_boundLeaves (hb : b.length ≤ maxEnvelopeBytes) {offLeaves room n i steps : Nat}
    (hoff : offLeaves ≤ b.length) (hroom : room ≤ b.length) (hi : i + n ≤ b.length) (hsteps : steps ≤ room) :
    Graceful (boundLeaves b offLeaves room n i steps) := by
  have hmax : maxEnvelopeBytes = 2 ^ 21 := by decide
  have hadd : ∀ m k, Graceful (Res.checkedAdd .abiFraming m k) := fun m k => Res.failsOnly_checkedAdd (by decide)
  induction n generalizing i steps with
  | zero => trivial
  | succ n ih =>
    refine Res.FailsOnly.bind (Res.failsOnly_u64 (by omega)) fun _ _ => (hadd _ _).bind fun _ _ =>
      graceful_countWord.bind fun _ _ => ?_
    refine Res.FailsOnly.bind (Res.failsOnly_u64 (by omega)) fun _ _ => (hadd _ _).bind fun _ _ =>
      (hadd _ _).bind fun _ _ => graceful_countWord.bind fun _ _ =>
      (hadd _ _).bind fun _ _ => graceful_countWord.bind fun ns _ => ?_
    refine Res.FailsOnly.bind (Res.failsOnly_sub hsteps) fun left hleft => ?_
    obtain ⟨-, rfl⟩ := Res.sub_eq_ok.mp hleft
    refine Res.FailsOnly.bind (Res.failsOnly_refuse (by decide)) fun _ hns => ?_
    rw [Res.refuse_eq_ok] at hns
    refine Res.FailsOnly.bind (Res.failsOnly_u64 (by omega)) fun total htotal => ?_
    obtain ⟨-, rfl⟩ := Res.u64_eq_ok.mp htotal
    exact ih (by omega) (by omega)

/-- Every sum and difference of the decoder stays within its machine word and every slice within the input. -/
theorem graceful_decodeEnvelope : Graceful (decodeEnvelope b) := by
  refine Res.FailsOnly.bind (Res.failsOnly_refuse (by decide)) fun _ hlen => ?_
  rw [Res.refuse_eq_ok, not_lt] at hlen
  refine (Res.failsOnly_refuse (by decide)).bind fun _ _ => ?_
  refine Res.FailsOnly.bind ?_ fun _ _ => Res.failsOnly_mapErr (noPanic_layout hlen) fun _ => by decide
  refine graceful_countWord.bind fun _ _ => graceful_countWord.bind fun offLeaves _ =>
    Res.FailsOnly.bind (Res.failsOnly_refuse (by decide)) fun _ hoff => graceful_countWord.bind fun _ _ =>
    (Res.failsOnly_refuse (by decide)).bind fun _ _ => (Res.failsOnly_refuse (by decide)).bind fun _ _ =>
    graceful_countWord.bind fun nl _ => Res.FailsOnly.bind (Res.failsOnly_refuse (by decide)) fun _ hnl => ?_
  rw [Res.refuse_eq_ok] at hoff hnl
  exact graceful_boundLeaves hlen (by omega) (by omega) (by omega) (Nat.zero_le _)

end Safety

end Abi

end Ureth.Source.Bridge
