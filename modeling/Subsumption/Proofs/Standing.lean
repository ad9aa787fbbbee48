import Subsumption.Proofs.Schedule

/-! The contexts of a state, by root and place. -/
namespace Subsumption

variable {w w' : Workspace} {n root : NodeId} {id x : ContextId} {c c' : Context}
  {order : List PropertyId}

namespace Workspace

attribute [simp] state_modify enlist enqueue

@[simp] theorem state_setActive (b : Bool) : (w.setActive id b).state = w.state := rfl

@[simp] theorem state_insertContext : (w.insertContext root).2.state =
    { w.state with contexts := w.state.contexts ++ [(root, w.nextId)] } := rfl

@[simp] theorem state_markSaturated : (w.markSaturated id).state = w.state := by
  unfold markSaturated
  split
  · split <;> rfl
  · rfl

theorem lookup_of_mem {contexts : List (NodeId × ContextId)}
    (hd : (contexts.map Prod.fst).Nodup) (h : (n, id) ∈ contexts) :
    contexts.lookup n = some id := by
  induction contexts with
  | nil => cases h
  | cons x rest ih =>
    obtain ⟨hx, hd⟩ := List.nodup_cons.mp hd
    rcases List.mem_cons.mp h with rfl | h
    · simp
    · have hne : (n == x.1) = false := by
        rw [beq_eq_false_iff_ne]
        rintro rfl
        exact hx (List.mem_map.mpr ⟨_, h, rfl⟩)
      rw [List.lookup_cons, hne]
      exact ih hd h

/-- The context `c` at the place `id` stands for the root `n`. -/
def Stands (w : Workspace) (n : NodeId) (id : ContextId) (c : Context) : Prop :=
  w.state.find? n = some id ∧ w.context? id = some c

theorem stands_modify (f : Context → Context) : (w.modify id f).Stands n x c' ↔
    ∃ c, w.Stands n x c ∧ c' = if x = id then f c else c := by
  simp only [Stands, context?_modify, state_modify]
  split
  · simp only [Option.map_eq_some_iff, and_assoc, exists_and_left, @eq_comm _ c']
  · simp

theorem find?_insertContext : (w.insertContext root).2.state.find? n =
    (w.state.find? n).or (if n = root then some w.nextId else none) := by
  simp only [State.find?, insertContext, List.lookup_append, List.lookup_cons, List.lookup_nil]
  by_cases hn : n = root
  · simp [hn, nextId]
  · have hne : (n == root) = false := by simpa using hn
    simp [hne, hn]

theorem stands_insertContext (hw : w.Coherent) (h : w.state.find? root = none) :
    (w.insertContext root).2.Stands n x c ↔
      w.Stands n x c ∨ n = root ∧ x = w.nextId ∧ c = .fresh root := by
  simp only [Stands, find?_insertContext, context?_insertContext]
  cases hn : w.state.find? n with
  | some y =>
    obtain ⟨d, hd, _⟩ := hw.rooted n y hn
    have hy : y ≠ w.nextId := by
      rintro rfl
      rw [context?_nextId] at hd
      cases hd
    have hr : n ≠ root := by
      rintro rfl
      rw [h] at hn
      cases hn
    simp only [Option.some_or, Option.some.injEq, hr, false_and, or_false]
    constructor
    · rintro ⟨rfl, hc⟩
      rw [if_neg hy] at hc
      exact ⟨rfl, hc⟩
    · rintro ⟨rfl, hc⟩
      rw [if_neg hy]
      exact ⟨rfl, hc⟩
  | none =>
    by_cases hr : n = root
    · simp only [hr, if_true, Option.none_or, Option.some.injEq, true_and, reduceCtorEq, false_and,
        false_or]
      constructor
      · rintro ⟨rfl, hc⟩
        rw [if_pos rfl] at hc
        exact ⟨rfl, (Option.some.inj hc).symm⟩
      · rintro ⟨rfl, rfl⟩
        exact ⟨rfl, if_pos rfl⟩
    · simp [hr]

/-- A mark changes nothing else. -/
theorem stands_of_markSaturated (h : (w.markSaturated id).Stands n x c') :
    ∃ c, w.Stands n x c ∧ c' = { c with saturated := c'.saturated } := by
  unfold markSaturated at h
  split at h
  · split at h
    · exact ⟨c', h, rfl⟩
    · have h : (w.modify id ({ · with saturated := true })).Stands n x c' := h
      obtain ⟨c, hc, rfl⟩ := (stands_modify _).mp h
      refine ⟨c, hc, ?_⟩
      split <;> rfl
  · exact ⟨c', h, rfl⟩

theorem saturated_modify {f : Context → Context}
    (hf : ∀ c, w.context? id = some c → (f c).saturated = c.saturated)
    (h : (w.modify id f).Stands n x c') (hs : c'.saturated = true) :
    ∃ c, w.Stands n x c ∧ c.saturated = true := by
  obtain ⟨c, hc, rfl⟩ := (stands_modify f).mp h
  refine ⟨c, hc, ?_⟩
  split at hs
  · rename_i he
    rw [← hf c (he ▸ hc.2)]
    exact hs
  · exact hs

theorem markSaturated_eq (w : Workspace) (id : ContextId) :
    (w.markSaturated id).store = w.store ∨
      (w.markSaturated id).store = (w.modify id ({ · with saturated := true })).store := by
  unfold markSaturated
  split
  · split
    · exact Or.inl rfl
    · exact Or.inr rfl
  · exact Or.inl rfl

/-- Only the context that is marked becomes saturated. -/
theorem saturated_of_markSaturated (h : (w.markSaturated id).Stands n x c')
    (hs : c'.saturated = true) :
    (∃ c, w.Stands n x c ∧ c.saturated = true) ∨ x = id ∧ w.state.find? n = some x := by
  obtain ⟨c, hc, _⟩ := stands_of_markSaturated h
  by_cases hx : x = id
  · exact Or.inr ⟨hx, hc.1⟩
  · have hsame : (w.markSaturated id).context? x = w.context? x := by
      rcases w.markSaturated_eq id with he | he
      · simp [context?, he]
      · have hmark : (w.modify id ({ · with saturated := true })).context? x = w.context? x := by
          rw [context?_modify, if_neg hx]
        simpa only [context?, he] using hmark
    exact Or.inl ⟨c', ⟨hc.1, hsame ▸ h.2⟩, hs⟩

theorem active_derive (c : Context) (o : Ontology) (k : Conclusion) :
    (c.derive o order k).1.active = c.active := by
  unfold Context.derive Context.deriveInconsistent Context.deriveConsistent
  split <;> split <;> (try split) <;> rfl

/-- Contexts stay where they are, and saturated. -/
structure Grows (w v : Workspace) : Prop where
  coherent : v.Coherent
  ontology : v.state.ontology = w.state.ontology
  stands : ∀ n id c, w.Stands n id c → ∃ c', v.Stands n id c' ∧
    (c.saturated = true → c'.saturated = true)

/-- Queues and reports are of no account. -/
theorem grows_same (hw : w.Coherent) (hs : w'.store = w.store)
    (hc : w'.state.contexts = w.state.contexts) (ho : w'.state.ontology = w.state.ontology) :
    w.Grows w' := by
  have hfind : ∀ n, w'.state.find? n = w.state.find? n := fun n => by simp [State.find?, hc]
  have hcontext : ∀ id, w'.context? id = w.context? id := fun id => by simp [context?, hs]
  refine ⟨⟨hc ▸ hw.distinct, ?_⟩, ho, ?_⟩
  · intro n id h
    rw [hcontext]
    exact hw.rooted n id (hfind n ▸ h)
  · intro n id c h
    exact ⟨c, ⟨(hfind n).trans h.1, (hcontext id).trans h.2⟩, fun h => h⟩

theorem grows_modify (hw : w.Coherent) (id : ContextId) {f : Context → Context}
    (hf : ∀ c, w.context? id = some c → (f c).root = c.root)
    (hs : ∀ c, w.context? id = some c → c.saturated = true → (f c).saturated = true) :
    w.Grows (w.modify id f) := by
  refine ⟨hw.modify id hf, rfl, ?_⟩
  intro n x c h
  refine ⟨_, (stands_modify f).mpr ⟨c, h, rfl⟩, ?_⟩
  split
  · rename_i he
    exact hs c (he ▸ h.2)
  · exact fun h => h

theorem Coherent.insertContext (hw : w.Coherent) (h : w.state.find? root = none) :
    (w.insertContext root).2.Coherent := by
  refine ⟨?_, ?_⟩
  · simp only [Workspace.insertContext, List.map_append, List.map_cons, List.map_nil]
    refine List.nodup_append.mpr ⟨hw.distinct, by simp, ?_⟩
    rintro n hn m hm rfl
    obtain ⟨x, hx, rfl⟩ := List.mem_map.mp hn
    have hne := List.lookup_eq_none_iff.mp h x hx
    rw [List.mem_singleton.mp hm] at hne
    simp at hne
  · intro n id hid
    rw [find?_insertContext] at hid
    cases hn : w.state.find? n with
    | some y =>
      rw [hn, Option.some_or] at hid
      cases hid
      obtain ⟨c, hc, hroot⟩ := hw.rooted n _ hn
      exact ⟨c, ((stands_insertContext hw h).mpr (Or.inl ⟨hn, hc⟩)).2, hroot⟩
    | none =>
      rw [hn, Option.none_or] at hid
      split at hid
      · rename_i he
        cases hid
        exact ⟨_, ((stands_insertContext hw h).mpr (Or.inr ⟨he, rfl, rfl⟩)).2, he.symm⟩
      · cases hid

theorem grows_insertContext (hw : w.Coherent) (h : w.state.find? root = none) :
    w.Grows (w.insertContext root).2 :=
  ⟨hw.insertContext h, rfl, fun _ _ c hc => ⟨c, (stands_insertContext hw h).mpr (Or.inl hc), id⟩⟩

theorem grows_markSaturated (hw : w.Coherent) (id : ContextId) : w.Grows (w.markSaturated id) := by
  unfold markSaturated
  split
  · split
    · exact grows_same hw rfl rfl rfl
    · have hm := grows_modify (f := ({ · with saturated := true })) hw id (fun _ _ => rfl)
        (fun _ _ _ => rfl)
      exact ⟨⟨hm.coherent.distinct, hm.coherent.rooted⟩, hm.ontology, hm.stands⟩
  · exact grows_same hw rfl rfl rfl

end Workspace

end Subsumption
