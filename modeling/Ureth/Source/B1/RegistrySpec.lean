import Ureth.Source.B1.CborSpec
import Ureth.Source.B1.Registry

/-!
# What a stored epoch entry is

An entry that the registry reader accepts lists its members by strictly increasing names, with
different keys and positive weights that add up to its total.
-/

namespace Ureth.Source.B1
open Ureth.Foundation

variable {S : Secp256k1}

/-- The members read so far, and the sum of their weights. -/
structure Roll (members : List (Member S)) (sum : Nat) : Prop where
  ids : (members.map Member.id).Pairwise (· < ·)
  named : ∀ m ∈ members, m.id ≠ []
  keys : (members.map Member.key).Nodup
  weights : ∀ m ∈ members, 0 < m.weight
  sum_eq : (members.map Member.weight).sum = sum
  fits : sum < 2 ^ 64

/-- An entry as `entry` accepts it. -/
structure Entry.Sound (e : Entry S) : Prop where
  roll : Roll e.members e.total
  pos : 0 < e.total

theorem roll_nil : Roll (S := S) [] 0 := by
  refine ⟨List.Pairwise.nil, ?_, List.nodup_nil, ?_, rfl, by decide⟩
  · simp
  · simp

theorem memberId_ne_nil {ε : Type} {m : List Word} {id : Bytes}
    (h : (memberId m : Res (Error ε) Bytes) = .ok id) : id ≠ [] := by
  simp only [memberId, Res.bind_eq_ok, Res.refuse_eq_ok, Res.pure_eq_ok, not_not] at h
  obtain ⟨len, -, _, hlen, _, -, _, -, rfl⟩ := h
  have hbytes : (memberIdBytes m).length = 128 := by
    simp [memberIdBytes, Fixed.length_val]
  intro hnil
  have hzero := congrArg List.length hnil
  rw [List.length_take, hbytes, List.length_nil] at hzero
  omega

section Reads

variable {ρ ε : Type} {R : RegistryRead ρ ε} {keccak : Bytes → Bytes32} {s s' : Session ρ}

/-- One more member keeps the roll. -/
theorem Roll.addMember {m : List Word} {members members' : List (Member S)} {sum sum' : Nat}
    (hroll : Roll members sum)
    (h : (addMember S m members sum : Run (Session ρ) (Error ε) _) s = (.ok (members', sum'), s')) :
    Roll members' sum' ∧ members'.length = members.length + 1 := by
  simp only [B1.addMember, Run.bind_eq_ok, Run.lift_eq_ok, Run.refuse_eq_ok, Run.pure_eq_ok,
    Prod.mk.injEq, not_or, not_le] at h
  obtain ⟨id, _, ⟨hid, -⟩, key, t, hkey, weight, _, ⟨hweight, -⟩, _, _, ⟨⟨hpos, hlast, hfresh⟩, -⟩, _, _,
    ⟨hfits, -⟩, ⟨rfl, rfl⟩, -⟩ := h
  have hids : ((members ++ [Member.mk id key weight]).map Member.id).Pairwise (· < ·) := by
    rw [List.map_append, List.map_singleton]
    refine Cbor.pairwise_snoc hroll.ids fun last hmem => ?_
    rw [List.getLast?_map] at hmem
    obtain ⟨prev, hprev, rfl⟩ := Option.map_eq_some_iff.mp hmem
    rw [hprev] at hlast
    simpa using hlast
  have hkeys : ((members ++ [Member.mk id key weight]).map Member.key).Nodup := by
    rw [List.map_append, List.map_singleton, List.nodup_append]
    refine ⟨hroll.keys, List.nodup_singleton _, ?_⟩
    intro k hk k' hk' heq
    obtain ⟨prev, hprev, rfl⟩ := List.mem_map.mp hk
    obtain rfl := List.mem_singleton.mp hk'
    exact hfresh (List.any_eq_true.mpr ⟨prev, hprev, decide_eq_true heq⟩)
  refine ⟨⟨hids, ?_, hkeys, ?_, ?_, hfits⟩, by simp⟩
  · intro m' hm'
    rcases List.mem_append.mp hm' with hold | hnew
    · exact hroll.named m' hold
    · rw [List.mem_singleton.mp hnew]
      exact memberId_ne_nil hid
  · intro m' hm'
    rcases List.mem_append.mp hm' with hold | hnew
    · exact hroll.weights m' hold
    · rw [List.mem_singleton.mp hnew]
      exact Nat.pos_of_ne_zero hpos
  · rw [List.map_append, List.sum_append, hroll.sum_eq]
    simp

theorem Roll.readMembers {epoch count j : Nat} {members members' : List (Member S)} {sum sum' : Nat}
    (hroll : Roll members sum)
    (h : readMembers R keccak S epoch count j members sum s = (.ok (members', sum'), s')) :
    Roll members' sum' ∧ members'.length = members.length + count := by
  induction count generalizing j members sum s with
  | zero =>
    obtain ⟨hsame, -⟩ := Run.pure_eq_ok.mp h
    obtain ⟨rfl, rfl⟩ := Prod.mk.inj hsame
    exact ⟨hroll, rfl⟩
  | succ count ih =>
    simp only [B1.readMembers, Run.bind_eq_ok, Prod.exists] at h
    obtain ⟨m, t, -, members1, sum1, t', hadd, hrest⟩ := h
    obtain ⟨hroll1, hlen1⟩ := hroll.addMember hadd
    obtain ⟨hroll', hlen'⟩ := ih hroll1 hrest
    exact ⟨hroll', by omega⟩

/-- An entry that is read is sound. -/
theorem sound_of_entry {epoch : Nat} {e : Entry S}
    (h : entry R keccak S epoch s = (.ok (some e), s')) : e.Sound := by
  obtain ⟨w, t, -, h⟩ := Run.bind_eq_ok.mp h
  split at h
  · simp only [Run.bind_eq_ok, Run.pure_eq_ok, reduceCtorEq, false_and, and_false, exists_false] at h
  · obtain ⟨head, t', hhead, h⟩ := Run.bind_eq_ok.mp h
    simp only [entryMembers, Run.bind_eq_ok, Run.refuse_eq_ok, Run.pure_eq_ok, Prod.exists, not_not,
      Option.some.injEq] at h
    obtain ⟨members, sum, t'', hmembers, _, _, ⟨rfl, -⟩, rfl, -⟩ := h
    obtain ⟨hroll, hlen⟩ := roll_nil.readMembers hmembers
    refine ⟨hroll, ?_⟩
    have hcount : 1 ≤ head.count := by
      rw [Run.lift_eq_ok] at hhead
      simp only [entryHead, Res.bind_eq_ok, Res.refuse_eq_ok, Res.pure_eq_ok, not_or,
        not_not] at hhead
      obtain ⟨⟨_, -, _, -, _, -, _, -, _, -, count, -, _, -, _, hchecks, rfl⟩, -⟩ := hhead
      exact hchecks.2.2.2.2.2.2.1.1
    obtain ⟨m, hm⟩ := List.exists_mem_of_length_pos (by omega : 0 < members.length)
    show 0 < head.total
    rw [← hroll.sum_eq]
    exact lt_of_lt_of_le (hroll.weights m hm) (List.single_le_sum (by simp) _ (List.mem_map_of_mem hm))

end Reads

end Ureth.Source.B1
