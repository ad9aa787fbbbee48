import Subsumption.Proofs.Changes
import Mathlib.Data.List.Nodup
import Mathlib.Data.List.Perm.Subperm

/-! The super- and sub-properties of a property are those that told pairs lead to and from. -/
namespace Subsumption.Ontology

variable {told : List (PropertyId × PropertyId)} {count k : Nat} {p q r s : PropertyId}
  {todo seen : List PropertyId}

/-- Zero or more told pairs lead from one property to the other. -/
def Reaches (told : List (PropertyId × PropertyId)) : PropertyId → PropertyId → Prop :=
  Relation.ReflTransGen fun r s => (r, s) ∈ told

/-! ### Exploring -/

theorem mem_directSupers : q ∈ directSupers told p ↔ (p, q) ∈ told := by
  constructor
  · intro h
    obtain ⟨⟨a, b⟩, hm, rfl⟩ := List.mem_map.mp h
    obtain ⟨hm, he⟩ := List.mem_filter.mp hm
    have : a = p := by simpa using he
    exact this ▸ hm
  · intro h
    exact List.mem_map.mpr ⟨(p, q), List.mem_filter.mpr ⟨h, by simp⟩, rfl⟩

theorem nodup_eraseDups (xs : List PropertyId) : xs.eraseDups.Nodup := by
  induction hn : xs.length using Nat.strongRecOn generalizing xs with
  | _ n ih =>
    cases xs with
    | nil => simp
    | cons x xs =>
      rw [List.eraseDups_cons, List.nodup_cons]
      constructor
      · intro h
        simpa using List.mem_eraseDups.mp h
      · apply ih _ _ _ rfl
        have := List.length_filter_le (fun b => !b == x) xs
        simp only [List.length_cons] at hn
        omega

theorem eraseDups_eq_self {xs : List PropertyId} (h : xs.Nodup) : xs.eraseDups = xs := by
  induction xs with
  | nil => rfl
  | cons x xs ih =>
    obtain ⟨hx, hxs⟩ := List.nodup_cons.mp h
    have hothers : xs.filter (fun y => !y == x) = xs :=
      List.filter_eq_self.mpr fun y hy => by
        simpa using fun he : y = x => hx (he ▸ hy)
    rw [List.eraseDups_cons, hothers, ih hxs]

theorem length_le_of_index_lt (hd : seen.Nodup) (hb : ∀ q ∈ seen, q.index < count) :
    seen.length ≤ count := by
  have hd' : (seen.map PropertyId.index).Nodup :=
    hd.map_on fun a _ b _ h => PropertyId.index_inj.mp h
  have hsub : seen.map PropertyId.index ⊆ List.range count := by
    intro i hi
    obtain ⟨q, hq, rfl⟩ := List.mem_map.mp hi
    exact List.mem_range.mpr (hb q hq)
  simpa using (hd'.subperm hsub).length_le

/-- What each round of an exploration from `start` keeps. The settled properties, which are seen but
not to be followed, number as many as the rounds already made. -/
structure Exploring (told : List (PropertyId × PropertyId)) (count : Nat) (start : PropertyId)
    (k : Nat) (todo seen : List PropertyId) : Prop where
  distinct : seen.Nodup
  once : todo.Nodup
  within : todo ⊆ seen
  bounded : ∀ q ∈ seen, q.index < count
  rounds : count + todo.length ≤ k + seen.length
  begun : start ∈ seen
  reached : ∀ q ∈ seen, Reaches told start q
  settled : ∀ p ∈ seen, p ∉ todo → ∀ q, (p, q) ∈ told → q ∈ seen

theorem exploring_done (h : Exploring told count p k [] seen) : q ∈ seen ↔ Reaches told p q := by
  constructor
  · exact h.reached q
  · intro hr
    induction hr with
    | refl => exact h.begun
    | tail _ he ih => exact h.settled _ ih (by simp) _ he

theorem exploring_step (ht : ∀ x ∈ told, x.2.index < count)
    (h : Exploring told count p (k + 1) (r :: todo) seen) :
    Exploring told count p k
      ((directSupers told r).eraseDups.filter (!seen.contains ·) ++ todo)
      ((directSupers told r).eraseDups.filter (!seen.contains ·) ++ seen) := by
  have hnew : ∀ q, q ∈ (directSupers told r).eraseDups.filter (!seen.contains ·) ↔
      (r, q) ∈ told ∧ q ∉ seen := by
    intro q
    rw [List.mem_filter, List.mem_eraseDups, mem_directSupers]
    simp
  have hnodup := (nodup_eraseDups (directSupers told r)).filter (!seen.contains ·)
  generalize (directSupers told r).eraseDups.filter (!seen.contains ·) = new at hnew hnodup ⊢
  have hrest : todo ⊆ seen := fun x hx => h.within (List.mem_cons_of_mem _ hx)
  have hr : r ∈ seen := h.within List.mem_cons_self
  constructor
  · refine List.nodup_append.mpr ⟨hnodup, h.distinct, ?_⟩
    rintro a ha b hb rfl
    exact ((hnew a).mp ha).2 hb
  · refine List.nodup_append.mpr ⟨hnodup, (List.nodup_cons.mp h.once).2, ?_⟩
    rintro a ha b hb rfl
    exact ((hnew a).mp ha).2 (hrest hb)
  · intro x hx
    rcases List.mem_append.mp hx with hx | hx
    · exact List.mem_append_left _ hx
    · exact List.mem_append_right _ (hrest hx)
  · intro q hq
    rcases List.mem_append.mp hq with hq | hq
    · exact ht _ ((hnew q).mp hq).1
    · exact h.bounded q hq
  · have := h.rounds
    simp only [List.length_append, List.length_cons] at this ⊢
    omega
  · exact List.mem_append_right _ h.begun
  · intro q hq
    rcases List.mem_append.mp hq with hq | hq
    · exact (h.reached r hr).tail ((hnew q).mp hq).1
    · exact h.reached q hq
  · intro x hx hout q he
    have hxs : x ∈ seen := by
      rcases List.mem_append.mp hx with hx | hx
      · exact absurd (List.mem_append_left _ hx) hout
      · exact hx
    by_cases hq : q ∈ seen
    · exact List.mem_append_right _ hq
    · by_cases hxr : x = r
      · subst hxr
        exact List.mem_append_left _ ((hnew q).mpr ⟨he, hq⟩)
      · have hxt : x ∉ r :: todo := by
          intro hx'
          rcases List.mem_cons.mp hx' with hx' | hx'
          · exact hxr hx'
          · exact hout (List.mem_append_right _ hx')
        exact absurd (h.settled x hxs hxt q he) hq

theorem mem_explore (ht : ∀ x ∈ told, x.2.index < count)
    (h : Exploring told count p k todo seen) :
    q ∈ explore told k todo seen ↔ Reaches told p q := by
  induction k generalizing todo seen with
  | zero =>
    have hlen := length_le_of_index_lt h.distinct h.bounded
    have hr := h.rounds
    have : todo = [] := List.eq_nil_of_length_eq_zero (by omega)
    subst this
    exact exploring_done h
  | succ k ih =>
    cases todo with
    | nil => exact exploring_done h
    | cons r rest => exact ih (exploring_step ht h)

theorem mem_reached (ht : ∀ x ∈ told, x.2.index < count) (hp : p.index < count) :
    q ∈ reached told count p ↔ Reaches told p q := by
  apply mem_explore ht
  refine ⟨by simp, by simp, by simp, ?_, by simp, by simp, ?_, ?_⟩
  · simpa using hp
  · intro q hq
    rw [List.mem_singleton.mp hq]
    exact .refl
  · intro x hx hout
    exact absurd hx hout

/-! ### The hierarchy of an ontology -/

variable {o o' : Ontology}

theorem mem_propertyIds : p ∈ o.propertyIds ↔ p.index < o.properties.size := by
  simp only [propertyIds, List.mem_map, List.mem_range]
  constructor
  · rintro ⟨i, hi, rfl⟩
    have := Nat.mod_le i (UInt32.size)
    simp only [PropertyId.index, PropertyId.ofIndex, UInt32.toNat_ofNat']
    omega
  · intro h
    exact ⟨p.index, h, p.ofIndex_index⟩

theorem lookup_reachedProperties (h : p.index < o.properties.size) :
    o.reachedProperties.lookup p = some (reached o.toldProperties o.properties.size p) := by
  have hm := mem_propertyIds.mpr h
  unfold reachedProperties
  generalize o.propertyIds = ids at hm
  induction ids with
  | nil => simp at hm
  | cons x xs ih =>
    by_cases hx : p = x
    · subst hx
      simp
    · have hne : (p == x) = false := by simpa using hx
      rw [List.map_cons, List.lookup_cons, hne]
      exact ih ((List.mem_cons.mp hm).resolve_left hx)

theorem supers_of_le (h : ¬ p.index < o.properties.size) : o.supers p = [] := by
  have : o.property? p = none := by simpa [property?] using Nat.le_of_not_lt h
  simp [supers, this]

theorem subs_of_le (h : ¬ p.index < o.properties.size) : o.subs p = [] := by
  have : o.property? p = none := by simpa [property?] using Nat.le_of_not_lt h
  simp [subs, this]

/-- Every property lists just what the told pairs lead to and from. -/
structure Closed (o : Ontology) : Prop where
  told : ∀ x ∈ o.toldProperties, x.1.index < o.properties.size ∧ x.2.index < o.properties.size
  supers : ∀ r s, s ∈ o.supers r ↔ r.index < o.properties.size ∧ Reaches o.toldProperties r s
  subs : ∀ r s, s ∈ o.subs r ↔ s.index < o.properties.size ∧ r.index < o.properties.size ∧
    Reaches o.toldProperties s r

theorem reaches_lt (ht : ∀ x ∈ told, x.1.index < count ∧ x.2.index < count)
    (h : Reaches told r s) (hr : r.index < count) : s.index < count := by
  rcases Relation.ReflTransGen.cases_tail h with rfl | ⟨t, _, ht'⟩
  · exact hr
  · exact (ht _ ht').2

theorem closed_withHierarchy
    (ht : ∀ x ∈ o.toldProperties, x.1.index < o.properties.size ∧ x.2.index < o.properties.size) :
    Closed (withHierarchy o) := by
  have hsize : (withHierarchy o).properties.size = o.properties.size := by simp [withHierarchy]
  have htold : (withHierarchy o).toldProperties = o.toldProperties := rfl
  have hof : ∀ p : PropertyId, p.index < o.properties.size →
      ∀ q, q ∈ (o.reachedProperties.lookup p).getD [] ↔ Reaches o.toldProperties p q := by
    intro p hp q
    rw [lookup_reachedProperties hp, Option.getD_some]
    exact mem_reached (fun x hx => (ht x hx).2) hp
  refine ⟨?_, ?_, ?_⟩
  · rw [htold, hsize]
    exact ht
  · intro r s
    rw [htold, hsize]
    by_cases hr : r.index < o.properties.size
    · have hsup : (withHierarchy o).supers r =
          o.propertyIds.filter (((o.reachedProperties.lookup r).getD []).contains ·) := by
        simp [supers, property?, withHierarchy, hr]
      rw [hsup, List.mem_filter, List.contains_iff_mem, hof r hr, mem_propertyIds]
      constructor
      · rintro ⟨_, h⟩
        exact ⟨hr, h⟩
      · rintro ⟨_, h⟩
        exact ⟨reaches_lt ht h hr, h⟩
    · rw [supers_of_le (by rwa [hsize])]
      simp [hr]
  · intro r s
    rw [htold, hsize]
    by_cases hr : r.index < o.properties.size
    · have hsub : (withHierarchy o).subs r =
          o.propertyIds.filter fun x => ((o.reachedProperties.lookup x).getD []).contains r := by
        simp [subs, property?, withHierarchy, hr]
      rw [hsub, List.mem_filter, List.contains_iff_mem, mem_propertyIds]
      constructor
      · rintro ⟨hs, h⟩
        exact ⟨hs, hr, (hof s hs r).mp h⟩
      · rintro ⟨hs, _, h⟩
        exact ⟨hs, (hof s hs r).mpr h⟩
    · rw [subs_of_le (by rwa [hsize])]
      simp [hr]

theorem reaches_stuck (ht : ∀ x ∈ told, x.1.index < count) (hr : r.index = count)
    (h : Reaches told r s) : s = r := by
  induction h with
  | refl => rfl
  | tail _ he ih =>
    subst ih
    have := ht _ he
    simp only at this
    omega

theorem closed_addProperty {name : String} (ho : Closed o) :
    Closed { o with
      properties := o.properties.push
        ⟨name, [.ofIndex o.properties.size], [.ofIndex o.properties.size]⟩ } := by
  have hget : ∀ r : PropertyId, (o.properties.push ⟨name, [.ofIndex o.properties.size],
      [.ofIndex o.properties.size]⟩)[r.index]? =
      if r.index = o.properties.size then
        some ⟨name, [.ofIndex o.properties.size], [.ofIndex o.properties.size]⟩
      else o.properties[r.index]? := fun r => Array.getElem?_push
  have hfst := fun x hx => (ho.told x hx).1
  have hsnd := fun x hx => (ho.told x hx).2
  refine ⟨?_, ?_, ?_⟩
  · intro x hx
    have := ho.told x hx
    simp only [Array.size_push]
    omega
  · intro r s
    simp only [supers, property?, hget, Array.size_push]
    split
    · rename_i hr
      have hof : PropertyId.ofIndex o.properties.size = r := by rw [← hr, PropertyId.ofIndex_index]
      simp only [Option.map_some, Option.getD_some, hof, List.mem_singleton]
      constructor
      · rintro rfl
        exact ⟨by omega, .refl⟩
      · rintro ⟨_, h⟩
        exact reaches_stuck hfst hr h
    · rename_i hr
      refine (ho.supers r s).trans ⟨fun h => ⟨by omega, h.2⟩, fun h => ⟨by omega, h.2⟩⟩
  · intro r s
    simp only [subs, property?, hget, Array.size_push]
    split
    · rename_i hr
      have hof : PropertyId.ofIndex o.properties.size = r := by rw [← hr, PropertyId.ofIndex_index]
      simp only [Option.map_some, Option.getD_some, hof, List.mem_singleton]
      constructor
      · rintro rfl
        exact ⟨by omega, by omega, .refl⟩
      · rintro ⟨_, _, h⟩
        rcases Relation.ReflTransGen.cases_tail h with h | ⟨t, _, ht⟩
        · exact h.symm
        · have := hsnd _ ht
          simp only at this
          omega
    · rename_i hr
      refine (ho.subs r s).trans ⟨fun h => ⟨by omega, by omega, h.2.2⟩, ?_⟩
      intro h
      refine ⟨?_, by omega, h.2.2⟩
      by_contra hs
      have := reaches_stuck hfst (by omega) h.2.2
      subst this
      omega

theorem closed_change (h : Change o o') (ho : Closed o) : Closed o' := by
  cases h with
  | property => exact closed_addProperty ho
  | hierarchy hs ht =>
    apply closed_withHierarchy
    intro x hx
    rcases List.mem_append.mp hx with hx | hx
    · exact ho.told x hx
    · rw [List.mem_singleton.mp hx]
      exact ⟨hs, ht⟩
  | intern | addSuper | eraseSuper | disjointness | member => exact ⟨ho.told, ho.supers, ho.subs⟩
  | adjust h => cases h <;> exact ⟨ho.told, ho.supers, ho.subs⟩

theorem closed_empty : Closed empty := by
  refine ⟨by simp [empty], ?_, ?_⟩
  · intro r s
    simp [supers, property?, empty]
  · intro r s
    simp [subs, property?, empty]

theorem closed_after (calls : List Call) : Closed (after calls) :=
  after_induction closed_empty (fun _ _ => closed_change) calls

/-! ### Order -/

theorem Closed.mem_subs (ho : Closed o) : s ∈ o.subs r ↔ r ∈ o.supers s := by
  rw [ho.subs, ho.supers]
  constructor
  · rintro ⟨hs, _, h⟩
    exact ⟨hs, h⟩
  · rintro ⟨hs, h⟩
    exact ⟨hs, reaches_lt ho.told h hs, h⟩

theorem Closed.supers_refl (ho : Closed o) (h : r.index < o.properties.size) : r ∈ o.supers r :=
  (ho.supers r r).mpr ⟨h, .refl⟩

theorem Closed.supers_trans (ho : Closed o) (hp : q ∈ o.supers p) (hq : r ∈ o.supers q) :
    r ∈ o.supers p :=
  (ho.supers p r).mpr
    ⟨((ho.supers p q).mp hp).1, ((ho.supers p q).mp hp).2.trans ((ho.supers q r).mp hq).2⟩

end Subsumption.Ontology
