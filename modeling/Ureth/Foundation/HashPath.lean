import Ureth.Foundation.Collision

/-!
# Paths of hashes

A path from a value up to a root: each node builds, from the hash below it, the string that is
hashed next. Two paths that meet in one root are compared from the root down. At every level
either the two strings are equal, and then so are the hashes below them, or they collide.
-/

namespace Ureth.Foundation

variable {α β : Type} (H : α → β)

/-- The root above `h`, through the nodes from the bottom up. -/
def climb : List (β → α) → β → β
  | [], h => h
  | node :: nodes, h => climb nodes (H (node h))

/-- The strings hashed on the way. -/
def climbed : List (β → α) → β → List α
  | [], _ => []
  | node :: nodes, h => node h :: climbed nodes (H (node h))

variable {H}

theorem climb_append (ns ms : List (β → α)) (h : β) : climb H (ns ++ ms) h = climb H ms (climb H ns h) := by
  induction ns generalizing h with
  | nil => rfl
  | cons n ns ih => exact ih (H (n h))

theorem climbed_append (ns ms : List (β → α)) (h : β) :
    climbed H (ns ++ ms) h = climbed H ns h ++ climbed H ms (climb H ns h) := by
  induction ns generalizing h with
  | nil => rfl
  | cons n ns ih => simp only [List.cons_append, climbed, climb, ih (H (n h))]

/-- Paths of one shape with one root start from one hash. -/
theorem climb_inj {ns ms : List (β → α)} {h k : β}
    (hnodes : List.Forall₂ (fun n m => ∀ h k, n h = m k → h = k) ns ms)
    (hno : ¬ Collision H (climbed H ns h ++ climbed H ms k)) (hroot : climb H ns h = climb H ms k) :
    h = k := by
  induction hnodes generalizing h k with
  | nil => exact hroot
  | @cons n m ns ms hnode _ ih =>
    have hbelow : H (n h) = H (m k) := by
      refine ih (fun hc => hno (hc.mono ?_)) hroot
      intro x hx
      simp only [climbed, List.mem_append, List.mem_cons] at hx ⊢
      rcases hx with hx | hx
      · exact .inl (.inr hx)
      · exact .inr (.inr hx)
    exact hnode h k (injOn_of_not_collision hno (by simp [climbed]) (by simp [climbed]) hbelow)

section Aligned

variable {γ : Type} {node : γ → β → α} {R : γ → γ → Prop} {cs ds : List γ} {leaf leaf' : α}

/-- Paths of any two lengths with one root are aligned from the root down and start from one leaf,
where equal nodes are related and no node can be taken for a leaf. The induction takes the topmost
nodes off both. -/
theorem climb_aligned (hnodes : ∀ c ∈ cs, ∀ d ∈ ds, ∀ h k, node c h = node d k → R c d ∧ h = k)
    (hleft : ∀ c ∈ cs, ∀ h, node c h ≠ leaf') (hright : ∀ d ∈ ds, ∀ k, node d k ≠ leaf)
    (hno : ¬ Collision H ((leaf :: climbed H (cs.map node) (H leaf)) ++
      (leaf' :: climbed H (ds.map node) (H leaf'))))
    (hroot : climb H (cs.map node) (H leaf) = climb H (ds.map node) (H leaf')) :
    List.Forall₂ R cs ds ∧ leaf = leaf' := by
  have hinj := injOn_of_not_collision hno
  induction cs using List.reverseRecOn generalizing ds with
  | nil =>
    rcases List.eq_nil_or_concat ds with rfl | ⟨ds, d, rfl⟩
    · exact ⟨.nil, hinj (by simp) (by simp) hroot⟩
    · rw [List.concat_eq_append, List.map_append, climb_append] at hroot
      rw [List.concat_eq_append, List.map_append, climbed_append] at hinj
      exact absurd (hinj (by simp) (by simp [climbed]) hroot).symm
        (hright d (by simp) (climb H (ds.map node) (H leaf')))
  | append_singleton cs c ih =>
    rw [List.map_append, climb_append] at hroot
    rw [List.map_append, climbed_append] at hinj
    rcases List.eq_nil_or_concat ds with rfl | ⟨ds, d, rfl⟩
    · exact absurd (hinj (by simp [climbed]) (by simp) hroot)
        (hleft c (by simp) (climb H (cs.map node) (H leaf)))
    · simp only [List.concat_eq_append] at hno hinj hroot hnodes hright ⊢
      rw [List.map_append, climb_append] at hroot
      rw [List.map_append, climbed_append] at hinj
      have htop : node c (climb H (cs.map node) (H leaf)) = node d (climb H (ds.map node) (H leaf')) :=
        hinj (by simp [climbed]) (by simp [climbed]) hroot
      have hno' : ¬ Collision H ((leaf :: climbed H (cs.map node) (H leaf)) ++
          (leaf' :: climbed H (ds.map node) (H leaf'))) := by
        refine fun hc => hno (hc.mono ?_)
        intro x hx
        simp only [List.map_append, climbed_append, List.mem_append, List.mem_cons] at hx ⊢
        tauto
      obtain ⟨hrelated, hbelow⟩ := hnodes c (by simp) d (by simp) _ _ htop
      obtain ⟨haligned, hleaf⟩ := ih (fun c hc d hd => hnodes c (by simp [hc]) d (by simp [hd]))
        (fun c hc => hleft c (by simp [hc])) (fun d hd => hright d (by simp [hd])) hno' hbelow
        (injOn_of_not_collision hno')
      exact ⟨List.rel_append haligned (.cons hrelated .nil), hleaf⟩

end Aligned

/-- Paths of any two lengths with one root start from one leaf, where no node can be taken for a
leaf. -/
theorem climb_leaf_inj {ns ms : List (β → α)} {leaf leaf' : α}
    (hnodes : ∀ n ∈ ns, ∀ m ∈ ms, ∀ h k, n h = m k → h = k) (hleft : ∀ n ∈ ns, ∀ h, n h ≠ leaf')
    (hright : ∀ m ∈ ms, ∀ k, m k ≠ leaf)
    (hno : ¬ Collision H ((leaf :: climbed H ns (H leaf)) ++ (leaf' :: climbed H ms (H leaf'))))
    (hroot : climb H ns (H leaf) = climb H ms (H leaf')) : leaf = leaf' := by
  have haligned := @climb_aligned α β H (β → α) id (fun _ _ => True) ns ms leaf leaf'
    (fun n hn m hm h k heq => ⟨trivial, hnodes n hn m hm h k heq⟩) hleft hright
  rw [List.map_id, List.map_id] at haligned
  exact (haligned hno hroot).2

end Ureth.Foundation
