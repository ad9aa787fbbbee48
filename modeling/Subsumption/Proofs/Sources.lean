import Subsumption.Facts
import Subsumption.Proofs.PropertyClosure

/-! The sources of the links to a root. The order in which they are come to is left open as far as
the relations are concerned, and makes no difference to which they are. -/
namespace Subsumption

/-- To go through a list key by key is to go through the whole of it. -/
theorem perm_of_keys {κ α : Type} [DecidableEq κ] {ks : List κ} {l : List (κ × α)} (hk : ks.Nodup)
    (hl : ∀ p ∈ l, p.1 ∈ ks) : (ks.flatMap fun k => l.filter (·.1 == k)).Perm l := by
  induction ks generalizing l with
  | nil =>
    have hnone : l = [] := List.eq_nil_iff_forall_not_mem.mpr fun p hp => List.not_mem_nil (hl p hp)
    rw [hnone, List.flatMap_nil]
  | cons k rest ih =>
    obtain ⟨hnew, hrest⟩ := List.nodup_cons.mp hk
    have hothers : ∀ j ∈ rest, (l.filter fun p => !(p.1 == k)).filter (·.1 == j) =
        l.filter (·.1 == j) := by
      intro j hj
      rw [List.filter_filter]
      refine List.filter_congr fun p _ => ?_
      by_cases hp : p.1 = j
      · have hne : j ≠ k := fun he => hnew (he ▸ hj)
        simp [hp, hne]
      · simp [hp]
    have hgo := ih (l := l.filter fun p => !(p.1 == k)) hrest fun p hp => by
      obtain ⟨hp, hne⟩ := List.mem_filter.mp hp
      exact (List.mem_cons.mp (hl p hp)).resolve_left (by simpa using hne)
    rw [List.flatMap_congr hothers] at hgo
    exact (hgo.append_left _).trans (List.filter_append_perm _ l)

namespace Facts

variable {f : Facts} {s : NodeId} {order : List PropertyId}

theorem sources_perm (f : Facts) (order : List PropertyId) :
    (f.sources order).Perm (f.backward.map (·.2)) := by
  have hall : ∀ p ∈ f.backward, p.1 ∈ (order ++ f.backward.map (·.1)).eraseDups := fun p hp =>
    List.mem_eraseDups.mpr (List.mem_append_right _ (List.mem_map_of_mem hp))
  have hperm := (perm_of_keys (Ontology.nodup_eraseDups _) hall).map Prod.snd
  rwa [List.map_flatMap] at hperm

@[simp] theorem mem_sources : s ∈ f.sources order ↔ ∃ r, (r, s) ∈ f.backward := by
  simp [(f.sources_perm order).mem_iff]

theorem length_sources : (f.sources order).length = f.backward.length := by
  simpa using (f.sources_perm order).length_eq

/-- Any order of the relations can be given. -/
theorem sources_of_order (ho : order.Nodup) (hall : ∀ p ∈ f.backward, p.1 ∈ order) :
    f.sources order = order.flatMap f.backwardSources := by
  have hrest : (f.backward.map (·.1)).removeAll order = [] := by
    refine List.filter_eq_nil_iff.mpr fun r hr => ?_
    obtain ⟨p, hp, rfl⟩ := List.mem_map.mp hr
    simpa using hall p hp
  rw [sources, List.eraseDups_append, hrest, Ontology.eraseDups_eq_self ho, List.eraseDups_nil,
    List.append_nil]

end Facts

end Subsumption
