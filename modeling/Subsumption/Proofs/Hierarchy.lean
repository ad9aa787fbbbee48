import Subsumption.Proofs.LiveAxioms

/-! The hierarchy in order: every property lists what told pairs lead to and from, in ascending
order of number and each property once. -/
namespace Subsumption.Ontology

variable {o o' : Ontology} {p : PropertyId} {ps : List PropertyId}

/-- In ascending order of number, without repetitions. -/
def Ascending (ps : List PropertyId) : Prop := ps.Pairwise fun p q => p.index < q.index

theorem Ascending.filter (h : Ascending ps) (keep : PropertyId → Bool) :
    Ascending (ps.filter keep) := List.Pairwise.filter keep h

theorem ascending_single (p : PropertyId) : Ascending [p] := List.pairwise_singleton _ p

/-- As long as there are numbers for all properties, they are numbered in order. -/
theorem ascending_propertyIds (h : o.properties.size ≤ UInt32.size) :
    Ascending o.propertyIds := by
  refine List.pairwise_map.mpr (List.pairwise_lt_range.imp_of_mem ?_)
  intro i j hi hj hij
  have hi := List.mem_range.mp hi
  have hj := List.mem_range.mp hj
  have hof : ∀ k < o.properties.size, (PropertyId.ofIndex k).index = k :=
    fun k hk => PropertyId.index_ofIndex (Nat.lt_of_lt_of_le hk h)
  rwa [hof i hi, hof j hj]

/-- Both lists of every property are ascending. -/
def Ordered (o : Ontology) : Prop := ∀ p, Ascending (o.supers p) ∧ Ascending (o.subs p)

theorem Ordered.of_same (h : o.Ordered) (hp : o'.properties = o.properties) : o'.Ordered := by
  intro p
  have hlook : o'.property? p = o.property? p := congrArg (·[p.index]?) hp
  simp only [supers, subs, hlook]
  exact h p

theorem ordered_addProperty {name : String} (h : o.Ordered) :
    Ordered { o with
      properties := o.properties.push
        ⟨name, [.ofIndex o.properties.size], [.ofIndex o.properties.size]⟩ } := by
  intro p
  simp only [supers, subs, property?, Array.getElem?_push]
  split
  · exact ⟨ascending_single _, ascending_single _⟩
  · exact h p

theorem ordered_withHierarchy (h : o.properties.size ≤ UInt32.size) :
    (withHierarchy o).Ordered := by
  intro p
  have hids := ascending_propertyIds h
  simp only [supers, subs, property?, withHierarchy, Array.getElem?_mapIdx]
  cases o.properties[p.index]? with
  | none => exact ⟨.nil, .nil⟩
  | some q => exact ⟨hids.filter _, hids.filter _⟩

theorem ordered_change (h : Change o o') (ho : o.properties.size ≤ UInt32.size → o.Ordered)
    (hb : o'.properties.size ≤ UInt32.size) : o'.Ordered := by
  have hold := ho (Nat.le_trans (properties_change h) hb)
  cases h with
  | property => exact ordered_addProperty hold
  | hierarchy =>
    refine ordered_withHierarchy ?_
    simpa [withHierarchy] using hb
  | intern | addSuper | eraseSuper | disjointness | member => exact hold.of_same rfl
  | adjust h => cases h <;> exact hold.of_same rfl

theorem ordered_empty : empty.Ordered := by
  intro p
  have hnone : empty.property? p = none := by simp [property?, empty]
  simp only [supers, subs, hnone]
  exact ⟨.nil, .nil⟩

theorem ordered_after (calls : List Call) :
    (after calls).properties.size ≤ UInt32.size → (after calls).Ordered :=
  after_induction (P := fun o => o.properties.size ≤ UInt32.size → o.Ordered)
    (fun _ => ordered_empty) (fun _ _ => ordered_change) calls

/-- Whatever was called, a property lists as its super-properties just what told pairs lead to from
it, and as its sub-properties those that list it in turn; as long as there are numbers for all
properties, both lists are ascending. -/
theorem hierarchy_after (calls : List Call) {p : PropertyId}
    (hp : p.index < (after calls).properties.size) :
    (∀ q, q ∈ (after calls).supers p ↔ Reaches (liveSubproperties calls) p q) ∧
    (∀ q, q ∈ (after calls).subs p ↔ p ∈ (after calls).supers q) ∧
    ((after calls).properties.size ≤ UInt32.size →
      Ascending ((after calls).supers p) ∧ Ascending ((after calls).subs p)) := by
  have hclosed := closed_after calls
  have htold : Reaches (after calls).toldProperties = Reaches (liveSubproperties calls) := by
    unfold Reaches
    simp only [(keeping_after calls).properties]
  refine ⟨fun q => ?_, fun q => hclosed.mem_subs, fun hb => ordered_after calls hb p⟩
  rw [hclosed.supers, htold, and_iff_right hp]

/-- The pairs r ⊑ s ⊑ r, s ⊑ t and t ⊑ t twice, a refused call, and a property that comes last. -/
def tangled : List Call :=
  [.addProperty "u", .addSubProperty ⟨1⟩ ⟨9⟩, .addSubProperty ⟨2⟩ ⟨2⟩, .addSubProperty ⟨2⟩ ⟨2⟩,
    .addSubProperty ⟨1⟩ ⟨2⟩, .addSubProperty ⟨1⟩ ⟨0⟩, .addSubProperty ⟨0⟩ ⟨1⟩, .addProperty "t",
    .addProperty "s", .addProperty "r"]

theorem hierarchy_after_tangled :
    (⟨1⟩ : PropertyId).index < (after tangled).properties.size ∧
    (after tangled).properties.size ≤ UInt32.size ∧
    (after tangled).supers ⟨1⟩ = [⟨0⟩, ⟨1⟩, ⟨2⟩] ∧ (after tangled).subs ⟨1⟩ = [⟨0⟩, ⟨1⟩] ∧
    Reaches (liveSubproperties tangled) ⟨1⟩ ⟨0⟩ ∧ ¬ Reaches (liveSubproperties tangled) ⟨1⟩ ⟨3⟩ ∧
    Ascending ((after tangled).supers ⟨1⟩) := by
  have hp : (⟨1⟩ : PropertyId).index < (after tangled).properties.size := by decide +kernel
  have hb : (after tangled).properties.size ≤ UInt32.size := by decide +kernel
  have hsupers : (after tangled).supers ⟨1⟩ = [⟨0⟩, ⟨1⟩, ⟨2⟩] := by decide +kernel
  obtain ⟨hreaches, _, hascending⟩ := hierarchy_after tangled hp
  refine ⟨hp, hb, hsupers, by decide +kernel, (hreaches _).mp ?_, fun h => ?_, (hascending hb).1⟩
  · simp [hsupers]
  · simpa [hsupers] using (hreaches _).mpr h

end Subsumption.Ontology
