import Ureth.Source.Payload.PruneSpec

/-!
# Retention of recovery material and completeness of eviction

Which companions and accounting records survive a retention pass, and what a pass of the
eviction leaves behind. Both are decided by numbers known before the pass: the lag of the
persisted frontier behind the tip, and the numbers at which blocks are stored after the
cursor has moved on.
-/

namespace Ureth.Guarantees
open Ureth.Foundation Ureth.Source.Execution Ureth.Source.Store Ureth.Source.Payload

/-- A pass at `tip` keeps every canonical companion and every accounting record of the repair
window behind the persisted frontier, for every chain and every content of the store. -/
def MaterialRetained (depth : Option UInt64) (limit tip frontier : UInt64) : Prop :=
  ∀ (π : Type) (provider : ChainReader π) (canon : UInt64 → Bytes32), provider.Truthful canon →
    (∀ p n, (provider.lastBlockNumber p).1 = .ok n → n = frontier) →
    ∀ p s a, Represents s a → ∀ r p' s',
      CompanionPruner.pruneOnce ⟨provider, depth, limit⟩ tip (p, s) = (r, (p', s')) →
      ∀ hash number, satSub frontier limit ≤ number → number ≤ frontier →
        (∀ companion, HoldsAt s hash number → CompanionStore.get hash s = .ok (.found companion) →
          hash = canon number →
          HoldsAt s' hash number ∧ CompanionStore.get hash s' = .ok (.found companion)) ∧
        (∀ record, CompanionStore.getAccounting hash s = .ok (some record) →
          record.blockNumber = number → CompanionStore.getAccounting hash s' = .ok (some record))

/-- The depth reaches down to the window whenever the tip is not too far ahead. -/
theorem materialRetained_of_le {depth : Option UInt64} {limit tip frontier : UInt64}
    (h : ∀ d ∈ depth, satSub tip d ≤ satSub frontier limit) :
    MaterialRetained depth limit tip frontier := by
  intro π provider canon htrue hfrontier p s a hs r p' s' hrun hash number hlow hhigh
  obtain ⟨b, hb, hretained, -⟩ := pruneOnce_spec htrue hfrontier hs hrun
  constructor
  · intro companion hholds hget hcanon
    obtain ⟨c, hc⟩ := (holdsAt_iff hs).mp hholds
    have hkept : b.companions hash = some (number, c) := by
      refine hretained.companions hash _ hc hcanon ?_
      intro n hn
      obtain ⟨d, hd, rfl⟩ := Option.mem_map.mp hn
      exact UInt64.le_trans (h d hd) hlow
    have hsame : a.lookup hash = b.lookup hash := by simp only [Shelf.lookup, hc, hkept]
    exact ⟨(holdsAt_iff hb).mpr ⟨c, hkept⟩, by rw [hb.get, ← hsame, ← hs.get, hget]⟩
  · intro record hrecord hnumber
    rw [hs.getAccounting, Except.ok.injEq] at hrecord
    rw [hb.getAccounting, hretained.accounting hash record hrecord ?_]
    rw [hnumber]
    rw [UInt64.le_iff_toNat_le, toNat_satSub] at hlow ⊢
    have hlimit := limit.toNat_lt
    simp only [toNat_satAdd]
    omega

/-- A chain without a finalized block, persisted up to `frontier`. -/
def stillChain (canon : UInt64 → Bytes32) (frontier : UInt64) : ChainReader Unit where
  finalizedBlockNumber := pure none
  blockHash n := pure (some (canon n))
  lastBlockNumber := pure frontier

/-- A chain whose blocks are hashed to their numbers. -/
def ownHash (number : UInt64) : Bytes32 := .literal 32 number.toNat

/-- A companion with nothing in it. -/
def blankCompanion : SealCompanion :=
  ⟨ByteVec.empty, ByteVec.empty, ByteVec.empty, ByteVec.empty, [], Text.empty⟩

theorem put_blankCompanion {s : CompanionStore} {a : Shelf} (h : Represents s a) (hash : Bytes32)
    (number : UInt64) :
    ∃ t, CompanionStore.put hash number blankCompanion s = (.ok (), t) ∧
      Represents t (a.put hash number blankCompanion) := by
  have hframed : blankCompanion.Framed := by constructor <;> simp [blankCompanion, ByteVec.empty, Text.empty]
  obtain ⟨t, ht⟩ := h.put_ok hframed (by decide) hash number
  exact ⟨t, ht, h.put ht⟩

theorem stillChain_truthful (canon : UInt64 → Bytes32) (frontier : UInt64) :
    (stillChain canon frontier).Truthful canon := by
  intro n p h hanswer
  simpa [stillChain, eq_comm] using hanswer

theorem stillChain_frontier (canon : UInt64 → Bytes32) (frontier : UInt64) (p : Unit) (n : UInt64)
    (hanswer : ((stillChain canon frontier).lastBlockNumber p).1 = .ok n) : n = frontier := by
  simpa [stillChain, eq_comm] using hanswer

theorem pruneOnce_stillChain (canon : UInt64 → Bytes32) (depth : Option UInt64)
    (limit tip frontier : UInt64) {s : CompanionStore} {a : Shelf} (hs : Represents s a) :
    ∃ s', CompanionPruner.pruneOnce ⟨stillChain canon frontier, depth, limit⟩ tip ((), s) =
      (.ok (), ((), s')) := by
  have hevict : CompanionPruner.evictNonCanonical ⟨stillChain canon frontier, depth, limit⟩ ((), s) =
      (.ok (), ((), s)) := rfl
  rcases hdepth : CompanionPruner.pruneToDepth ⟨stillChain canon frontier, depth, limit⟩ tip ((), s)
    with ⟨r, ⟨⟩, s₁⟩
  obtain ⟨rfl, m, hm, -, -⟩ := pruneToDepth_spec hs hdepth
  obtain ⟨s', hs', -⟩ := hm.pruneAccountingBelow (satSub frontier (satAdd accountingWindow limit))
  have haccounting : CompanionPruner.pruneAccounting ⟨stillChain canon frontier, depth, limit⟩
      ((), s₁) = (.ok (), ((), s')) := onStore_eq_ok.mpr ⟨hs', rfl⟩
  refine ⟨s', ?_⟩
  simp only [CompanionPruner.pruneOnce, Run.bind_apply_ok hevict, hdepth, haccounting, Res.bind_ok]

/-- Once the depth counted from the tip passes the window, the canonical companion at the foot
of the window is lost. -/
theorem foot_of_window_lost {d limit tip frontier : UInt64}
    (h : ¬ satSub tip d ≤ satSub frontier limit) (canon : UInt64 → Bytes32) :
    ∃ s s', CompanionStore.put (canon (satSub frontier limit)) (satSub frontier limit) blankCompanion
        .fresh = (.ok (), s) ∧
      CompanionPruner.pruneOnce ⟨stillChain canon frontier, some d, limit⟩ tip ((), s) =
        (.ok (), ((), s')) ∧
      HoldsAt s (canon (satSub frontier limit)) (satSub frontier limit) ∧
      ¬ HoldsAt s' (canon (satSub frontier limit)) (satSub frontier limit) := by
  obtain ⟨s, hput, hs⟩ := put_blankCompanion represents_fresh (canon (satSub frontier limit))
    (satSub frontier limit)
  obtain ⟨s', hrun⟩ := pruneOnce_stillChain canon (some d) limit tip frontier hs
  refine ⟨s, s', hput, hrun, (holdsAt_iff hs).mpr ⟨blankCompanion, by simp [Shelf.put]⟩, ?_⟩
  intro hholds
  obtain ⟨b, hb, -, hdeep⟩ := pruneOnce_spec (stillChain_truthful canon frontier)
    (stillChain_frontier canon frontier) hs hrun
  obtain ⟨c, hc⟩ := (holdsAt_iff hb).mp hholds
  exact h (hdeep rfl _ _ hc d rfl)

/-- Recovery material survives a pass exactly when the horizon of the tip does not pass the foot
of the repair window behind the persisted frontier. The start-up check alone does not say so. -/
theorem recovery_material_retained (depth : Option UInt64) (limit tip frontier : UInt64)
    (_accepted : validateRetention depth limit = .ok ()) (_behind : frontier ≤ tip) :
    MaterialRetained depth limit tip frontier ↔
      ∀ d ∈ depth, satSub tip d ≤ satSub frontier limit := by
  refine ⟨?_, materialRetained_of_le⟩
  intro hretained d hd
  obtain rfl : depth = some d := hd
  by_contra hlost
  obtain ⟨s, s', hput, hrun, hholds, hgone⟩ := foot_of_window_lost hlost ownHash
  have hs := represents_fresh.put hput
  obtain ⟨hkept, -⟩ := hretained Unit _ _ (stillChain_truthful _ frontier)
    (stillChain_frontier _ frontier) () s _ hs _ _ _ hrun _ (satSub frontier limit)
    (UInt64.le_refl _) (by rw [UInt64.le_iff_toNat_le, toNat_satSub]; omega)
  have hget : CompanionStore.get (ownHash (satSub frontier limit)) s =
      .ok (.found blankCompanion) := by
    rw [hs.get]
    simp [Shelf.lookup, Shelf.put]
  exact hgone (hkept blankCompanion hholds hget rfl).1

theorem recovery_material_retained_default :
    validateRetention (some 80) defaultRepairLimit = .ok () ∧
      MaterialRetained (some 80) defaultRepairLimit 1000 990 :=
  ⟨by decide, (recovery_material_retained (some 80) defaultRepairLimit 1000 990 (by decide)
    (by decide)).mpr fun d hd => by
      obtain rfl : 80 = d := Option.some.inj hd
      decide⟩

/-- A depth of 80 is accepted for the default repair limit of 64. With the tip 500 blocks ahead
of the persisted frontier, the canonical companion of block 436 is lost. -/
theorem recovery_material_lost :
    validateRetention (some 80) 64 = .ok () ∧ (500 : UInt64) ≤ 1000 ∧
      ∃ s s', CompanionStore.put (ownHash 436) 436 blankCompanion .fresh = (.ok (), s) ∧
        CompanionPruner.pruneOnce ⟨stillChain ownHash 500, some 80, 64⟩ 1000 ((), s) =
          (.ok (), ((), s')) ∧
        HoldsAt s (ownHash 436) 436 ∧ ¬ HoldsAt s' (ownHash 436) 436 := by
  refine ⟨by decide, by decide, ?_⟩
  have hfoot : satSub 500 64 = 436 := by decide
  rw [← hfoot]
  exact foot_of_window_lost (by decide) ownHash

/-! ## Eviction -/

/-- Nothing stored at or below `finalized` is foreign to the chain. -/
def Clean (canon : UInt64 → Bytes32) (s : CompanionStore) (finalized : UInt64) : Prop :=
  ∀ hash number, HoldsAt s hash number → number ≤ finalized → hash = canon number

/-- Over every interleaving of stored blocks and passes in which each block is stored in time, a
successful pass with an answer for every number leaves the store clean. A block stored late
between two passes stays, and the next pass that succeeds does not find it. -/
theorem eviction_complete (canon : UInt64 → Bytes32) :
    (∀ ls st finalized st', Steps (CarefulStep canon) ⟨.fresh, .idle⟩ ls st →
      CarefulStep canon st (.passed finalized true) st' → Clean canon st'.store finalized) ∧
    (∀ ls s hash number companion st', Steps (CarefulStep canon) ⟨.fresh, .idle⟩ ls ⟨s, .idle⟩ →
      EvictionStep canon ⟨s, .idle⟩ (.put hash number companion) st' →
      ¬ Timely canon ⟨s, .idle⟩ hash number →
      ∃ finalized st'', EvictionStep canon st' (.passed finalized true) st'' ∧
        ¬ Clean canon st''.store finalized) := by
  constructor
  · intro ls st finalized st' hrun hlast hash number hholds hle
    obtain ⟨a, hinv⟩ := Steps.evictionInv hrun
    obtain ⟨b, hinv'⟩ := hlast.inv hinv
    obtain ⟨c, hc⟩ := (holdsAt_iff hinv'.represents).mp hholds
    exact hinv'.settled hash _ hc (hlast.cursor_of_passed hinv hinv'.represents hle)
  · intro ls s hash number companion st' hrun hput hlate
    obtain ⟨a, hinv⟩ := Steps.evictionInv hrun
    obtain ⟨hforeign, hbelow⟩ := not_or.mp hlate
    rw [hinv.frontier_idle, UInt64.not_le] at hbelow
    cases hput with
    | @put s s' _ _ _ _ stored =>
      have hrep := hinv.represents.put stored
      -- the number just below the cursor is finalized: the pass has nothing to do
      have hpos : 0 < (a.cursor.getD 0).toNat := by
        rw [UInt64.lt_iff_toNat_lt] at hbelow
        omega
      have hpred : ((a.cursor.getD 0) - 1).toNat = (a.cursor.getD 0).toNat - 1 :=
        UInt64.toNat_sub_of_le _ _ (by rw [UInt64.le_iff_toNat_le, UInt64.toNat_one]; omega)
      refine ⟨a.cursor.getD 0 - 1, ⟨s', .idle⟩, .skipped hrep.numbers.readCursor ?_, ?_⟩
      · have hcursor := (a.cursor.getD 0).toNat_lt
        change satAdd (a.cursor.getD 0 - 1) 1 ≤ a.cursor.getD 0
        rw [UInt64.le_iff_toNat_le, toNat_satAdd, hpred, UInt64.toNat_one]
        omega
      · intro hclean
        refine hforeign (hclean hash number ((holdsAt_iff hrep).mpr
          ⟨companion, by simp [Shelf.put]⟩) ?_)
        rw [UInt64.lt_iff_toNat_lt] at hbelow
        rw [UInt64.le_iff_toNat_le, hpred]
        omega

/-- A foreign block stored before the pass is dropped by it. -/
theorem eviction_complete_run :
    ∃ ls st st', Steps (CarefulStep ownHash) ⟨.fresh, .idle⟩ ls st ∧
      CarefulStep ownHash st (.passed 10 true) st' ∧ Clean ownHash st'.store 10 := by
  obtain ⟨s, hput, hs⟩ := put_blankCompanion represents_fresh (ownHash 99) 7
  obtain ⟨entries, hentries, hmem, horder⟩ := hs.entriesInRange 0 11
  have hcursor : CompanionStore.evictionCursor s = .ok none := hs.numbers.readCursor
  have hlist : entries = [(ownHash 99, 7)] := by
    have hnodup : entries.Nodup := by
      refine horder.imp ?_
      rintro x _ hlt rfl
      exact lt_irrefl _ hlt
    refine List.perm_singleton.mp ((List.perm_ext_iff_of_nodup hnodup (by simp)).mpr ?_)
    rintro ⟨h, n⟩
    rw [hmem, List.mem_singleton, Prod.mk.injEq]
    constructor
    · rintro ⟨⟨c, hc⟩, -, -⟩
      by_cases hh : h = ownHash 99
      · subst hh
        obtain ⟨rfl, -⟩ : 7 = n ∧ blankCompanion = c := by simpa [Shelf.put] using hc
        exact ⟨rfl, rfl⟩
      · simp [Shelf.put, hh, Shelf.empty] at hc
    · rintro ⟨rfl, rfl⟩
      exact ⟨⟨blankCompanion, by simp [Shelf.put]⟩, by decide, by decide⟩
  subst hlist
  have htop : (10 : UInt64).toNat < 2 ^ 64 - 1 := by decide
  obtain ⟨t, hremove, ht⟩ := hs.remove (ownHash 99)
  obtain ⟨u, hset, -⟩ := ht.setEvictionCursor 11
  have hrun : Steps (CarefulStep ownHash) ⟨.fresh, .idle⟩
      ([] ++ [.put (ownHash 99) 7 blankCompanion] ++ [.begun 10] ++ [.answered] ++ [.dropped])
      ⟨t, .scanning ⟨10, 0, [], none⟩⟩ :=
    .snoc (.snoc (.snoc (.snoc (.nil _) ⟨.put hput, .inr (by decide)⟩)
      ⟨.begun hcursor (by decide) hentries, htop⟩)
      ⟨.mismatched (by decide), trivial⟩) ⟨.dropped hremove, trivial⟩
  have hlast : CarefulStep ownHash ⟨t, .scanning ⟨10, 0, [], none⟩⟩ (.passed 10 true) ⟨u, .idle⟩ :=
    ⟨.advanced rfl (by decide) hset, htop⟩
  exact ⟨_, _, _, hrun, hlast, (eviction_complete ownHash).1 _ _ _ _ hrun hlast⟩

/-- Block 5 of another branch is stored after a pass has moved the cursor to 11. The next pass at
the same finalized block succeeds and leaves it. -/
theorem late_block_stays :
    ∃ s, Steps (EvictionStep ownHash) ⟨.fresh, .idle⟩
        [.begun 10, .passed 10 true, .put (ownHash 99) 5 blankCompanion, .passed 10 true] ⟨s, .idle⟩ ∧
      HoldsAt s (ownHash 99) 5 ∧ (5 : UInt64) ≤ 10 ∧ ownHash 99 ≠ ownHash 5 := by
  obtain ⟨t, hset, ht⟩ := represents_fresh.setEvictionCursor 11
  obtain ⟨s, hput, hs⟩ := put_blankCompanion ht (ownHash 99) 5
  have hcursor : CompanionStore.evictionCursor s = .ok (some 11) := hs.numbers.readCursor
  have hbegun : EvictionStep ownHash ⟨.fresh, .idle⟩ (.begun 10)
      ⟨.fresh, .scanning ⟨10, (none : Option UInt64).getD 0, [], none⟩⟩ := .begun rfl (by decide) rfl
  have hrun : Steps (EvictionStep ownHash) ⟨.fresh, .idle⟩
      ([] ++ [.begun 10] ++ [.passed 10 true] ++ [.put (ownHash 99) 5 blankCompanion] ++
        [.passed 10 true]) ⟨s, .idle⟩ :=
    .snoc (.snoc (.snoc (.snoc (.nil _) hbegun) (.advanced rfl (by decide) hset)) (.put hput))
      (.skipped hcursor (by decide))
  exact ⟨s, hrun, (holdsAt_iff hs).mpr ⟨blankCompanion, by simp [Shelf.put]⟩, by decide, by decide⟩

end Ureth.Guarantees
