import Mathlib.Data.Multiset.Bind
import Subsumption.Proofs.Crew.Claims
import Subsumption.Proofs.Crew.Passes

/-! Every context is created, counted, queued for its mark and marked once. The branches that would
report otherwise are never taken. -/
namespace Subsumption

variable {α σ : Type} {s s' : Saturation α σ} {ps ps' rest : Multiset PC} {pc pc' q : PC}
  {ds : List Deed} {w : Workspace} {n root : NodeId} {id x : ContextId} {c c' : Context}

/-! ### Contexts stay -/

section
open Workspace

theorem grows_does {a : Action} {more : Agenda} (hw : s.work.Coherent) (h : a.Does s s' more) :
    s.work.Grows s'.work := by
  cases h with
  | opened h => exact grows_insertContext hw h
  | push => exact grows_modify hw _ (fun _ _ => rfl) (fun _ _ h => h)
  | activate => exact grows_modify hw _ (fun _ _ => rfl) (fun _ _ h => h)
  | _ => exact grows_same hw rfl rfl rfl

/-- Whatever is done, contexts stay where they are, and saturated. -/
theorem grows_act (hw : s.work.Coherent) (h : Act s pc ds s' pc') : s.work.Grows s'.work := by
  cases h with
  | perform h => exact grows_does hw h
  | @derive id k c hc =>
    refine grows_modify hw id ?_ ?_
    · intro c' hc'
      cases hc.symm.trans hc'
      exact root_derive c _
    · intro c' hc' hs
      cases hc.symm.trans hc'
      rw [saturated_derive]
      exact hs
  | pop | release | retake => exact grows_modify hw _ (fun _ _ => rfl) (fun _ _ h => h)
  | mark => exact grows_markSaturated hw _
  | _ => exact grows_same hw rfl rfl rfl

theorem grows_shift (hw : s.work.Coherent) (h : Shift s ps ds s' ps') : s.work.Grows s'.work := by
  cases h with
  | act h => exact grows_act hw h
  | submit | join | make | surroundings => exact grows_same hw rfl rfl rfl

end

/-! ### What workers have in hand -/

/-- The contexts that an action queues for their marks. -/
def Action.enlists : Action → List ContextId
  | .enlist id => [id]
  | _ => []

/-- How many contexts an action counts. -/
def Action.opens : Action → Nat
  | .countCreated => 1
  | _ => 0

namespace Agenda

def enlisting (as : Agenda) : List ContextId := as.flatMap Action.enlists

def openings (as : Agenda) : Nat := (as.map Action.opens).sum

@[simp] theorem enlisting_nil : enlisting [] = [] := rfl

@[simp] theorem openings_nil : openings [] = 0 := rfl

@[simp] theorem enlisting_cons (a : Action) (as : Agenda) :
    enlisting (a :: as) = a.enlists ++ enlisting as := rfl

@[simp] theorem openings_cons (a : Action) (as : Agenda) :
    openings (a :: as) = a.opens + openings as := by
  simp [openings]

@[simp] theorem enlisting_append (as bs : Agenda) :
    enlisting (as ++ bs) = enlisting as ++ enlisting bs := List.flatMap_append

@[simp] theorem openings_append (as bs : Agenda) :
    openings (as ++ bs) = openings as + openings bs := by
  simp [openings]

@[simp] theorem enlisting_push (id : ContextId) (ks : List Conclusion) :
    enlisting (ks.map (.push id)) = [] := by
  simp [enlisting, Action.enlists]

@[simp] theorem openings_push (id : ContextId) (ks : List Conclusion) :
    openings (ks.map (.push id)) = 0 := by
  induction ks with
  | nil => rfl
  | cons k ks ih => simpa [Action.opens] using ih

@[simp] theorem enlisting_effects (id : ContextId) (es : List Effect) :
    enlisting (es.map (ofEffect id)) = [] := by
  induction es with
  | nil => rfl
  | cons e es ih => cases e <;> simpa [ofEffect, Action.enlists] using ih

@[simp] theorem openings_effects (id : ContextId) (es : List Effect) :
    openings (es.map (ofEffect id)) = 0 := by
  induction es with
  | nil => rfl
  | cons e es ih => cases e <;> simpa [ofEffect, Action.opens] using ih

/-- However much of the agenda is done, as many contexts remain to be counted as to be queued. -/
def Paired : Agenda → Prop
  | [] => True
  | a :: as => Paired as ∧ (enlisting (a :: as)).length ≤ openings (a :: as)

theorem Paired.le {as : Agenda} (h : Paired as) : (enlisting as).length ≤ openings as := by
  cases as with
  | nil => exact Nat.le_refl _
  | cons a as => exact h.2

theorem paired_push {id : ContextId} {ks : List Conclusion} {as : Agenda} (h : Paired as) :
    Paired (ks.map (.push id) ++ as) := by
  induction ks with
  | nil => exact h
  | cons k ks ih => exact ⟨ih, by simpa [Action.enlists, Action.opens] using h.le⟩

theorem paired_effects (id : ContextId) (es : List Effect) : Paired (es.map (ofEffect id)) := by
  induction es with
  | nil => trivial
  | cons e es ih => exact ⟨ih, by cases e <;> simp [ofEffect, Action.enlists]⟩

end Agenda

namespace PC

def agenda : PC → Agenda
  | .act _ as => as
  | _ => []

/-- How many unsaturated contexts the worker has claimed and not yet taken. -/
def claims : PC → Nat
  | .takeUnsaturated _ => 1
  | _ => 0

/-- The contexts that the worker is going to mark. -/
def marking : PC → List ContextId
  | .mark _ id => [id]
  | _ => []

/-- The contexts without marks that the worker has in hand. -/
def due (pc : PC) : List ContextId := pc.agenda.enlisting ++ pc.marking

@[simp] theorem agenda_woken (pc : PC) : pc.woken.agenda = pc.agenda := by
  cases pc <;> rfl

@[simp] theorem agenda_free (h : pc.isFree = true) : pc.agenda = [] := by
  cases pc <;> first | rfl | cases h

@[simp] theorem claims_free (h : pc.isFree = true) : pc.claims = 0 := by
  cases pc <;> first | rfl | cases h

@[simp] theorem marking_free (h : pc.isFree = true) : pc.marking = [] := by
  cases pc <;> first | rfl | cases h

end PC

/-! ### Counting contexts -/

theorem created_act (h : Act s pc ds s' pc') :
    s'.work.state.contexts.length + s.desk.counters.contextsCreated + pc.agenda.openings =
      s.work.state.contexts.length + s'.desk.counters.contextsCreated + pc'.agenda.openings := by
  cases h with
  | perform h => cases h <;> simp [PC.agenda, Action.opens] <;> omega
  | free h h' => simp [h, h']
  | _ => simp [PC.agenda, Action.opens]

theorem queued_act (h : Act s pc ds s' pc') (hne : pc.claims = 0 ∨ s.work.state.unsaturated ≠ []) :
    s'.work.state.unsaturated.length + s'.desk.counters.contextsFinished +
        pc'.agenda.enlisting.length + s.work.state.contexts.length + pc.claims =
      s.work.state.unsaturated.length + s.desk.counters.contextsFinished +
        pc.agenda.enlisting.length + s'.work.state.contexts.length + pc'.claims := by
  cases h with
  | perform h => cases h <;> simp [PC.agenda, PC.claims, Action.enlists] <;> omega
  | free h h' => simp [h, h']
  | noneUnsaturated h => simp [PC.claims, h] at hne
  | takeUnsaturated h => simp [h, PC.agenda, PC.claims]; omega
  | claimContext => simp [PC.agenda, PC.claims]; omega
  | _ => simp [PC.agenda, PC.claims, Action.enlists]

theorem paired_act (h : Act s pc ds s' pc') (hp : pc.agenda.Paired) : pc'.agenda.Paired := by
  cases h with
  | @perform hand a rest s' more h =>
    have hrest : Agenda.Paired rest := hp.1
    cases h with
    | found => exact Agenda.paired_push hrest
    | @opened root ks h =>
      have hcount : Agenda.Paired (.countCreated :: (ks.map (.push s.work.nextId) ++ rest)) := by
        refine ⟨Agenda.paired_push hrest, ?_⟩
        have := hrest.le
        simp [Action.enlists, Action.opens]
        omega
      simp only [List.append_assoc]
      refine ⟨Agenda.paired_push hcount, ?_⟩
      have := hrest.le
      simp [Action.enlists, Action.opens]
      omega
    | push | activate => exact ⟨hrest, by simpa [Action.enlists, Action.opens] using hrest.le⟩
    | _ => exact hrest
  | derive => exact Agenda.paired_effects _ _
  | applied | asked => exact trivial
  | free h h' => simp [h', Agenda.Paired]
  | _ => simp [PC.agenda, Agenda.Paired, Action.enlists]

/-! ### Contexts without marks -/

/-- A context of the state that is not marked saturated. -/
def Workspace.Unmarked (w : Workspace) (id : ContextId) : Prop :=
  ∃ n c, w.Stands n id c ∧ c.saturated = false

theorem Workspace.unmarked_modify {f : Context → Context}
    (hf : ∀ c, w.context? id = some c → (f c).saturated = c.saturated) :
    (w.modify id f).Unmarked x ↔ w.Unmarked x := by
  have hsame : ∀ c, w.context? x = some c →
      (if x = id then f c else c).saturated = c.saturated := by
    intro c hc
    split
    · rename_i he
      exact hf c (he ▸ hc)
    · rfl
  constructor
  · rintro ⟨n, c', hc', hs⟩
    obtain ⟨c, hc, rfl⟩ := (stands_modify f).mp hc'
    exact ⟨n, c, hc, (hsame c hc.2).symm.trans hs⟩
  · rintro ⟨n, c, hc, hs⟩
    exact ⟨n, _, (stands_modify f).mpr ⟨c, hc, rfl⟩, (hsame c hc.2).trans hs⟩

theorem Workspace.unmarked_insertContext (hw : w.Coherent) (h : w.state.find? root = none) :
    (w.insertContext root).2.Unmarked x ↔ w.Unmarked x ∨ x = w.nextId := by
  simp only [Unmarked, stands_insertContext hw h]
  constructor
  · rintro ⟨n, c, hc | ⟨_, rfl, _⟩, hs⟩
    · exact Or.inl ⟨n, c, hc, hs⟩
    · exact Or.inr rfl
  · rintro (⟨n, c, hc, hs⟩ | rfl)
    · exact ⟨n, c, Or.inl hc, hs⟩
    · exact ⟨root, _, Or.inr ⟨rfl, rfl, rfl⟩, rfl⟩

theorem Workspace.unmarked_markSaturated (hw : w.Unmarked id) :
    (w.markSaturated id).Unmarked x ↔ w.Unmarked x ∧ x ≠ id := by
  obtain ⟨n, c, ⟨hn, hc⟩, hs⟩ := hw
  have hm : w.markSaturated id = (w.modify id ({ · with saturated := true })).report
      (.contextSaturated (w.label c.root)) := by
    simp [markSaturated, hc, hs]
  have hst : ∀ m y d, (w.markSaturated id).Stands m y d ↔
      (w.modify id ({ · with saturated := true })).Stands m y d := by
    intro m y d
    rw [hm]
    rfl
  simp only [Unmarked, hst, stands_modify]
  constructor
  · rintro ⟨m, _, ⟨d, hd, rfl⟩, hds⟩
    split at hds
    · cases hds
    · rename_i hne
      exact ⟨⟨m, d, hd, hds⟩, hne⟩
  · rintro ⟨⟨m, d, hd, hds⟩, hne⟩
    exact ⟨m, d, ⟨d, hd, (if_neg hne).symm⟩, hds⟩

/-- A step keeps the contexts without marks and those in hand, or adds a context to both, or marks
one that is in hand. -/
theorem due_act (hw : s.work.Coherent) (h : Act s pc ds s' pc')
    (hm : ∀ id ∈ pc.marking, s.work.Unmarked id) :
    ((∀ x, s'.work.Unmarked x ↔ s.work.Unmarked x) ∧
      (s'.work.state.unsaturated ++ pc'.due).Perm (s.work.state.unsaturated ++ pc.due)) ∨
    ((∀ x, s'.work.Unmarked x ↔ s.work.Unmarked x ∨ x = s.work.nextId) ∧
      (s'.work.state.unsaturated ++ pc'.due).Perm
        (s.work.nextId :: (s.work.state.unsaturated ++ pc.due))) ∨
    ∃ id, (∀ x, s'.work.Unmarked x ↔ s.work.Unmarked x ∧ x ≠ id) ∧
      (s.work.state.unsaturated ++ pc.due).Perm (id :: (s'.work.state.unsaturated ++ pc'.due)) := by
  cases h with
  | perform h =>
    cases h with
    | opened h =>
      refine Or.inr (Or.inl ⟨fun x => Workspace.unmarked_insertContext hw h, ?_⟩)
      simp [PC.due, PC.agenda, PC.marking, Action.enlists]
    | push | activate =>
      exact Or.inl ⟨fun _ => Workspace.unmarked_modify fun _ _ => rfl,
        by simp [PC.due, PC.agenda, PC.marking, Action.enlists]⟩
    | _ => exact Or.inl ⟨fun _ => .rfl, by simp [PC.due, PC.agenda, PC.marking, Action.enlists]⟩
  | @mark b id =>
    refine Or.inr (Or.inr ⟨id, fun x => Workspace.unmarked_markSaturated (hm id ?_), ?_⟩)
    · simp [PC.marking]
    · simp [PC.due, PC.agenda, PC.marking]
  | @derive id k c hc =>
    refine Or.inl ⟨fun _ => Workspace.unmarked_modify fun c' hc' => ?_, ?_⟩
    · cases hc.symm.trans hc'
      exact Workspace.saturated_derive c _
    · simp [PC.due, PC.agenda, PC.marking]
  | release | retake | pop =>
    exact Or.inl ⟨fun _ => Workspace.unmarked_modify fun _ _ => rfl,
      by simp [PC.due, PC.agenda, PC.marking]⟩
  | takeUnsaturated h =>
    refine Or.inl ⟨fun _ => .rfl, ?_⟩
    simp [PC.due, PC.agenda, PC.marking, h]
  | free h h' => exact Or.inl ⟨fun _ => .rfl, by simp [PC.due, h, h']⟩
  | _ => exact Or.inl ⟨fun _ => .rfl, by simp [PC.due, PC.agenda, PC.marking, Action.enlists]⟩

/-! ### All of them together -/

/-- The contexts without marks that are queued or in a worker's hands. -/
def roll (s : Saturation α σ) (ps : Multiset PC) : Multiset ContextId :=
  (s.work.state.unsaturated : Multiset ContextId) + ps.bind fun q => (q.due : Multiset ContextId)

theorem roll_cons : roll s (pc ::ₘ ps) =
    ((s.work.state.unsaturated ++ pc.due : List ContextId) : Multiset ContextId) +
      ps.bind fun q => (q.due : Multiset ContextId) := by
  rw [roll, Multiset.cons_bind, ← Multiset.coe_add, add_assoc]

/-- Every context is on its way to being counted, and every one without a mark on its way to its
mark, once. -/
structure Enrolled (s : Saturation α σ) (ps : Multiset PC) : Prop where
  seen : Seen s ps
  coherent : s.work.Coherent
  created : s.work.state.contexts.length =
    s.desk.counters.contextsCreated + total (·.agenda.openings) ps
  queued : s.work.state.unsaturated.length + s.desk.counters.contextsFinished +
      total (·.agenda.enlisting.length) ps =
    s.work.state.contexts.length + total PC.claims ps
  paired : ∀ q ∈ ps, q.agenda.Paired
  nodup : (roll s ps).Nodup
  unmarked : ∀ x, x ∈ roll s ps ↔ s.work.Unmarked x

/-- There is an unsaturated context for everyone who has claimed one. -/
theorem Enrolled.unsaturated_ne_nil (he : Enrolled s ps) (hq : q ∈ ps) (hc : q.claims ≠ 0) :
    s.work.state.unsaturated ≠ [] := by
  have hclaims : q.claims ≤ total PC.claims ps := le_total hq
  have hpaired := total_le fun q hq => (he.paired q hq).le
  have := he.created
  have := he.queued
  have := he.seen.ordered.contextsProcessed
  have := he.seen.ordered.contextsFinished
  intro hnil
  simp only [hnil, List.length_nil] at *
  omega

/-- A context that is going to be marked is not marked. -/
theorem Enrolled.unmarked_of_marking (he : Enrolled s ps) (hq : q ∈ ps) (hid : id ∈ q.marking) :
    s.work.Unmarked id := by
  refine (he.unmarked id).mp (Multiset.mem_add.mpr (Or.inr (Multiset.mem_bind.mpr ⟨q, hq, ?_⟩)))
  exact Multiset.mem_coe.mpr (List.mem_append_right _ hid)

theorem roll_act (he : Enrolled s (pc ::ₘ rest)) (h : Act s pc ds s' pc') :
    (roll s' (pc' ::ₘ rest)).Nodup ∧ ∀ x, x ∈ roll s' (pc' ::ₘ rest) ↔ s'.work.Unmarked x := by
  have hnodup := he.nodup
  have hmem := he.unmarked
  simp only [roll_cons] at hnodup hmem ⊢
  rcases due_act he.coherent h fun id => he.unmarked_of_marking (Multiset.mem_cons_self _ _) with
    ⟨hu, hd⟩ | ⟨hu, hd⟩ | ⟨id, hu, hd⟩
  · rw [Multiset.coe_eq_coe.mpr hd]
    exact ⟨hnodup, fun x => (hmem x).trans (hu x).symm⟩
  · rw [Multiset.coe_eq_coe.mpr hd, ← Multiset.cons_coe, Multiset.cons_add]
    refine ⟨Multiset.nodup_cons.mpr ⟨?_, hnodup⟩, ?_⟩
    · rw [hmem]
      rintro ⟨n, c, hc, _⟩
      cases s.work.context?_nextId.symm.trans hc.2
    · intro x
      rw [Multiset.mem_cons, hmem, hu, or_comm]
  · rw [Multiset.coe_eq_coe.mpr hd, ← Multiset.cons_coe, Multiset.cons_add] at hnodup
    simp only [Multiset.coe_eq_coe.mpr hd, ← Multiset.cons_coe, Multiset.cons_add,
      Multiset.mem_cons] at hmem
    obtain ⟨hnot, hnodup⟩ := Multiset.nodup_cons.mp hnodup
    refine ⟨hnodup, fun x => ?_⟩
    rw [hu, ← hmem]
    constructor
    · intro hx
      exact ⟨Or.inr hx, fun h => hnot (h ▸ hx)⟩
    · rintro ⟨hx | hx, hne⟩
      · exact absurd hx hne
      · exact hx

theorem enrolled_shift (he : Enrolled s ps) (h : Shift s ps ds s' ps') : Enrolled s' ps' := by
  have hseen := seen_shift he.seen h
  have hgrows := grows_shift he.coherent h
  cases h with
  | @act pc _ _ pc' rest h =>
    have hself : pc ∈ pc ::ₘ rest := Multiset.mem_cons_self _ _
    have hclaims : pc.claims = 0 ∨ s.work.state.unsaturated ≠ [] :=
      (Classical.em _).imp_right (he.unsaturated_ne_nil hself)
    have hcreated := created_act h
    have hqueued := queued_act h hclaims
    obtain ⟨hnodup, hmem⟩ := roll_act he h
    have hc := he.created
    have hq := he.queued
    simp only [total_cons] at hc hq
    refine ⟨hseen, hgrows.coherent, ?_, ?_, ?_, hnodup, hmem⟩
    · rw [total_cons]
      omega
    · rw [total_cons, total_cons]
      omega
    · intro q hq
      rcases Multiset.mem_cons.mp hq with rfl | hq
      · exact paired_act h (he.paired _ hself)
      · exact he.paired q (Multiset.mem_cons_of_mem hq)
  | join =>
    have hroll : roll s (.returned ::ₘ ps) = roll s ps := by
      simp [roll, PC.due, PC.agenda, PC.marking]
    refine ⟨hseen, hgrows.coherent, ?_, ?_, ?_, hroll ▸ he.nodup, fun x => hroll ▸ he.unmarked x⟩
    · simpa [PC.agenda] using he.created
    · simpa [PC.agenda, PC.claims] using he.queued
    · intro q hq
      rcases Multiset.mem_cons.mp hq with rfl | hq
      · trivial
      · exact he.paired q hq
  | submit | make | surroundings =>
    exact ⟨hseen, hgrows.coherent, he.created, he.queued, he.paired, he.nodup, he.unmarked⟩

theorem Saturation.Fresh.not_stands (hs : s.Fresh) : ¬ s.work.Stands n id c := by
  obtain ⟨o, ho⟩ := hs.state
  rintro ⟨h, _⟩
  rw [ho] at h
  cases h

theorem enrolled_new (hs : s.Fresh) (workers : Nat) :
    Enrolled s (.replicate workers .startPass) := by
  have hidle : ∀ q ∈ Multiset.replicate workers PC.startPass, q = .startPass := fun q hq =>
    Multiset.eq_of_mem_replicate hq
  have hzero : ∀ f : PC → Nat, f .startPass = 0 → total f (.replicate workers .startPass) = 0 :=
    fun f hf => total_eq_zero fun q hq => hidle q hq ▸ hf
  obtain ⟨o, ho⟩ := hs.state
  obtain ⟨threshold, timed, hd⟩ := hs.desk
  have hroll : roll s (.replicate workers .startPass) = 0 := by
    refine Multiset.eq_zero_of_forall_notMem fun x hx => ?_
    rcases Multiset.mem_add.mp hx with hx | hx
    · rw [ho] at hx
      cases hx
    · obtain ⟨q, hq, hx⟩ := Multiset.mem_bind.mp hx
      rw [hidle q hq] at hx
      cases hx
  refine ⟨seen_new hs workers, Workspace.coherent_new ho, ?_, ?_, ?_,
    hroll ▸ Multiset.nodup_zero, ?_⟩
  · rw [ho, hd, hzero _ rfl]
    rfl
  · rw [ho, hd, hzero _ rfl, hzero _ rfl]
    rfl
  · exact fun q hq => hidle q hq ▸ trivial
  · intro x
    rw [hroll]
    constructor
    · intro h
      cases h
    · rintro ⟨n, c, h, _⟩
      exact absurd h hs.not_stands

end Subsumption
