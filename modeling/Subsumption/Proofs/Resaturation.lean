import Subsumption.Proofs.Carrying
import Subsumption.Proofs.Standing

/-! Saturating again over a changed ontology finds out what saturating from scratch does. -/
namespace Subsumption.Workspace

open Ontology

variable {w v u : Workspace} {o : Ontology} {kept invalidated roots : List NodeId} {n root : NodeId}
  {c : Context} {calls more : List Call} {contexts : List (NodeId × ContextId)} {store : Store}
  {id : ContextId}

/-! ### The contexts of the new state -/

theorem Coherent.mem_keptRoots (hw : w.Coherent) : n ∈ w.keptRoots invalidated ↔
    n ∉ invalidated ∧ ∃ c, w.contextOf? n = some c ∧ c.saturated = true := by
  simp only [keptRoots, List.mem_map, List.mem_filter, Prod.exists, exists_and_right,
    exists_eq_right, Bool.and_eq_true, Bool.not_eq_true', List.contains_eq_mem,
    decide_eq_false_iff_not]
  constructor
  · rintro ⟨id, hm, hsat, hn⟩
    have hid : w.state.find? n = some id := lookup_of_mem hw.distinct hm
    obtain ⟨c, hc, _⟩ := hw.rooted n id hid
    exact ⟨hn, c, by rw [contextOf?_eq hid, hc], by simpa [hc] using hsat⟩
  · rintro ⟨hn, c, hc, hsat⟩
    obtain ⟨id, hid, hc⟩ := Option.bind_eq_some_iff.mp hc
    obtain ⟨l₁, l₂, hl, _⟩ := List.lookup_eq_some_iff.mp hid
    exact ⟨id, by simp [hl], by simp [hc, hsat], hn⟩

/-- The kept roots have contexts, and the store keeps all that was in it. -/
structure CarriedOver (kept : List NodeId) (contexts contexts' : List (NodeId × ContextId))
    (store store' : Store) : Prop where
  roots : contexts'.map Prod.fst = (contexts.map Prod.fst).filter (kept.contains ·)
  stored : ∀ (i : Nat) (c : Context), store[i]? = some c → store'[i]? = some c
  found : ∀ n id (c : Context), n ∈ kept → contexts.lookup n = some id → store[id.index]? = some c →
    ∃ id', contexts'.lookup n = some id' ∧ store'[id'.index]? = some (c.pruned kept)

theorem carry_eq (kept : List NodeId) (hc : store[id.index]? = some c) :
    (∀ (i : Nat) x, store[i]? = some x → (carry kept store id).2[i]? = some x) ∧
      (carry kept store id).2[(carry kept store id).1.index]? = some (c.pruned kept) := by
  simp only [carry, hc]
  cases hs : c.withoutSources? kept with
  | none => exact ⟨fun _ _ h => h, by simpa [Context.pruned, hs] using hc⟩
  | some copy =>
    refine ⟨?_, by simp [Context.pruned, hs]⟩
    intro i x h
    have hlt := (Array.getElem?_eq_some_iff.mp h).1
    rw [Array.getElem?_push_lt hlt]
    exact (Array.getElem?_eq_getElem hlt).symm.trans h

theorem carriedOver_carryAll (h : ∀ x ∈ contexts, ∃ c, store[x.2.index]? = some c) :
    CarriedOver kept contexts (carryAll kept contexts store).1 store
      (carryAll kept contexts store).2 := by
  induction contexts generalizing store with
  | nil => exact ⟨rfl, fun _ _ h => h, fun n id c _ hid => by cases hid⟩
  | cons x rest ih =>
    obtain ⟨root, id⟩ := x
    obtain ⟨c, hc⟩ := h _ List.mem_cons_self
    rw [carryAll]
    split
    · rename_i hk
      obtain ⟨hstore, hplace⟩ := carry_eq kept hc
      have hrest := @ih (carry kept store id).2 fun x hx =>
        (h x (List.mem_cons_of_mem _ hx)).imp fun c hc => hstore _ c hc
      refine ⟨?_, fun i c hc => hrest.stored i c (hstore i c hc), ?_⟩
      · simp only [List.map_cons, List.filter_cons, hk, if_true, hrest.roots]
      · intro n id' c' hn hid' hc'
        simp only [List.lookup_cons] at hid' ⊢
        by_cases hne : n = root
        · subst hne
          simp only [BEq.rfl] at hid' ⊢
          cases hid'
          cases hc.symm.trans hc'
          exact ⟨_, rfl, hrest.stored _ _ hplace⟩
        · have hne : (n == root) = false := by simpa using hne
          simp only [hne] at hid' ⊢
          exact hrest.found n id' c' hn hid' (hstore _ _ hc')
    · rename_i hk
      have hrest := @ih store fun x hx => h x (List.mem_cons_of_mem _ hx)
      refine ⟨?_, hrest.stored, ?_⟩
      · simp only [List.map_cons, List.filter_cons, hk, hrest.roots]
        rfl
      · intro n id' c' hn hid' hc'
        have hne : (n == root) = false := by
          rw [beq_eq_false_iff_ne]
          rintro rfl
          exact hk (List.contains_iff_mem.mpr hn)
        rw [List.lookup_cons, hne] at hid'
        exact hrest.found n id' c' hn hid' hc'

theorem Coherent.carriedOver (hw : w.Coherent) (o : Ontology) (invalidated : List NodeId) :
    CarriedOver (w.keptRoots invalidated) w.state.contexts
      (w.resubmission o invalidated).state.contexts w.store (w.resubmission o invalidated).store :=
  carriedOver_carryAll fun x hx => (hw.rooted x.1 x.2 (lookup_of_mem hw.distinct hx)).imp
    fun _ h => h.1

theorem Coherent.find?_resubmission (hw : w.Coherent)
    (h : (w.resubmission o invalidated).state.find? n = some id) :
    ∃ c, n ∈ w.keptRoots invalidated ∧ w.contextOf? n = some c ∧
      (w.resubmission o invalidated).context? id = some (c.pruned (w.keptRoots invalidated)) := by
  have hcarried := hw.carriedOver o invalidated
  obtain ⟨l₁, l₂, hl, _⟩ := List.lookup_eq_some_iff.mp h
  have hmem : n ∈ (w.resubmission o invalidated).state.contexts.map Prod.fst := by simp [hl]
  rw [hcarried.roots, List.mem_filter, List.contains_iff_mem] at hmem
  obtain ⟨c, hc, _⟩ := (hw.mem_keptRoots.mp hmem.2).2
  obtain ⟨id', hid', hc'⟩ := Option.bind_eq_some_iff.mp hc
  obtain ⟨id'', hid'', hover⟩ := hcarried.found n id' c hmem.2 hid' hc'
  cases h.symm.trans hid''
  exact ⟨c, hmem.2, hc, hover⟩

theorem Coherent.contextOf?_resubmission (hw : w.Coherent) :
    (w.resubmission o invalidated).contextOf? n = if n ∈ w.keptRoots invalidated then
      (w.contextOf? n).map (·.pruned (w.keptRoots invalidated)) else none := by
  have hcarried := hw.carriedOver o invalidated
  split
  · rename_i hn
    obtain ⟨c, hc, _⟩ := (hw.mem_keptRoots.mp hn).2
    obtain ⟨id, hid, hc'⟩ := Option.bind_eq_some_iff.mp hc
    obtain ⟨id', hid', hover⟩ := hcarried.found n id c hn hid hc'
    rw [hc, contextOf?_eq hid']
    exact hover
  · rename_i hn
    cases hid : (w.resubmission o invalidated).state.find? n with
    | none => simp [contextOf?, hid]
    | some id =>
      obtain ⟨_, hkept, _⟩ := hw.find?_resubmission hid
      exact absurd hkept hn

theorem Coherent.resubmission {l : List NodeId} (hw : w.Coherent) :
    (w.resubmission o l).Coherent := by
  have hcarried := hw.carriedOver o l
  refine ⟨?_, ?_⟩
  · rw [hcarried.roots]
    exact hw.distinct.filter _
  · intro n id hid
    obtain ⟨c, _, hc, hover⟩ := hw.find?_resubmission hid
    refine ⟨_, hover, ?_⟩
    rw [(c.pruned_keeps _).1, (hw.find?_of_contextOf? hc).2]

theorem Coherent.listed_resubmission (hw : w.Coherent) :
    (w.resubmission o invalidated).Listed := by
  intro n id c hid hc
  obtain ⟨c', hkept, hc', hover⟩ := hw.find?_resubmission hid
  obtain ⟨c'', hc'', hsat⟩ := (hw.mem_keptRoots.mp hkept).2
  cases hc.symm.trans hover
  cases hc'.symm.trans hc''
  exact Or.inl ((c'.pruned_keeps _).2.1.trans hsat)

/-! ### Resaturation -/

/-- No conclusion is pending, and every context is marked saturated. -/
structure AtRest (w : Workspace) : Prop where
  quiet : w.Quiet
  saturated : ∀ n c, w.contextOf? n = some c → c.saturated = true

/-- A run is complete when no conclusion is pending and no context waits to be marked. -/
structure Complete (w : Workspace) : Prop where
  quiet : w.Quiet
  marked : w.state.unsaturated = []

theorem Complete.atRest (h : w.Complete) (hl : w.Listed) : w.AtRest := by
  refine ⟨h.quiet, ?_⟩
  intro n c hc
  obtain ⟨id, hid, hc⟩ := Option.bind_eq_some_iff.mp hc
  rcases hl n id c hid hc with hsat | hmem
  · exact hsat
  · rw [h.marked] at hmem
    cases hmem

/-- The roots that have to start over when the ontology becomes `o`: those with a subsumer whose
chain changes, those that owl:Thing comes to subsume, those with a link along a relation whose
super-properties change, and those with a link to a root that starts over. -/
structure Covers (w : Workspace) (o : Ontology) (invalidated : List NodeId) : Prop where
  chains : ∀ n c x, w.contextOf? n = some c → x ∈ c.facts.subsumers →
    ¬ (w.state.ontology.rules x).Alike (o.rules x) → n ∈ invalidated
  top : ∀ n c, w.contextOf? n = some c → top ∉ c.facts.subsumers →
    (o.rules top).isEmpty = false → n ∈ invalidated
  supers : ∀ n c m d r, w.contextOf? n = some c → w.contextOf? m = some d →
    (r, n) ∈ d.facts.backward → ¬ (∀ s, s ∈ w.state.ontology.supers r ↔ s ∈ o.supers r) →
    n ∈ invalidated
  links : ∀ n c m d r, w.contextOf? n = some c → w.contextOf? m = some d →
    (r, n) ∈ d.facts.backward → m ∈ invalidated → n ∈ invalidated

theorem carries_of_covers (hw : w.Coherent) (hc : w.Covers o invalidated)
    (ho : Changes w.state.ontology o) (hr : w.AtRest) :
    Board.Carries w.state.ontology o (w.keptRoots invalidated) w.contextOf?
      (w.resubmission o invalidated).contextOf? := by
  refine ⟨ho, hr.quiet, fun n => hw.contextOf?_resubmission, ?_, ?_, ?_, ?_⟩
  · intro n x hn hx
    obtain ⟨c, hcn, hx⟩ := hx
    by_contra hne
    exact (hw.mem_keptRoots.mp hn).1 (hc.chains n c x hcn hx hne)
  · intro n hn hsome ht
    obtain ⟨c, hcn⟩ := Option.isSome_iff_exists.mp hsome
    refine ⟨c, hcn, ?_⟩
    by_contra hne
    exact (hw.mem_keptRoots.mp hn).1 (hc.top n c hcn hne ht)
  · intro n m r hn hl
    obtain ⟨hnot, c, hcn, _⟩ := hw.mem_keptRoots.mp hn
    obtain ⟨d, hdm, hl⟩ := hl
    by_contra hne
    exact hnot (hc.supers n c m d r hcn hdm hl hne)
  · intro n m r hn hl
    obtain ⟨hnot, c, hcn, _⟩ := hw.mem_keptRoots.mp hn
    obtain ⟨d, hdm, hl⟩ := hl
    exact hw.mem_keptRoots.mpr
      ⟨fun hm => hnot (hc.links n c m d r hcn hdm hl hm), d, hdm, hr.saturated m d hdm⟩

/-- The workspaces that complete runs lead to, over the ontology that the calls have built: in a new
state, or after more calls in a state made from such a workspace. -/
inductive Rested : List Call → Workspace → Prop
  | fresh {calls : List Call} {w roots v} (hw : w.state = State.new (after calls))
    (h : Runs w roots v) (hv : v.AtRest) : Rested calls v
  | again {calls more : List Call} {w invalidated roots v} (hw : Rested calls w)
    (hc : w.Covers (after (more ++ calls)) invalidated)
    (h : Runs (w.resubmission (after (more ++ calls)) invalidated) roots v) (hv : v.AtRest) :
    Rested (more ++ calls) v

theorem changes_after (calls more : List Call) : Changes (after calls) (after (more ++ calls)) := by
  induction more with
  | nil => exact .refl
  | cons c more ih => exact ih.trans (changes_perform _ c)

theorem sane_resubmission (hw : Sane (after calls) w) (hr : w.AtRest)
    (hc : w.Covers (after (more ++ calls)) invalidated) :
    Sane (after (more ++ calls)) (w.resubmission (after (more ++ calls)) invalidated) := by
  have hi := interned_after calls
  have ho := attached_after calls
  have ho' := attached_after (more ++ calls)
  have hcarries :=
    carries_of_covers hw.coherent hc (hw.ontology ▸ changes_after calls more) hr
  rw [hw.ontology] at hcarries
  exact ⟨rfl, hw.coherent.resubmission, Board.supported_carried hcarries ho ho' hw.supported,
    Board.settled_carried hcarries hi ho ho' hw.supported hw.settled⟩

/-- However often it was saturated again, a rested workspace knows only what the rules over its
ontology derive, and has left nothing out. -/
theorem Rested.sane (h : Rested calls w) : Sane (after calls) w ∧ w.AtRest := by
  induction h with
  | fresh hw h hv => exact ⟨sane_runs (sane_new hw) h, hv⟩
  | again _ hc h hv ih => exact ⟨sane_runs (sane_resubmission ih.1 ih.2 hc) h, hv⟩

/-- Both contexts are saturated, both are inconsistent or neither is, and if they are not, they have
the same subsumers. -/
structure SameOutcome (c d : Context) : Prop where
  saturated : c.saturated = true ∧ d.saturated = true
  inconsistent : c.inconsistent = d.inconsistent
  subsumers : c.inconsistent = false → ∀ x, x ∈ c.facts.subsumers ↔ x ∈ d.facts.subsumers

/-- Complete runs give every submitted root the outcome that the rules determine. -/
theorem Sane.outcome (hs : Sane (after calls) w) (hl : w.Listed) (h : Runs w roots v)
    (hv : v.Complete) (hn : n ∈ roots) : ∃ c, v.contextOf? n = some c ∧ c.saturated = true ∧
      (c.inconsistent = true ↔ (after calls).Refutes n) ∧
      (c.inconsistent = false → ∀ x, x ∈ c.facts.subsumers ↔ (after calls).Derives n x) := by
  have hk := keeps_runs hs.coherent h
  obtain ⟨id, hid⟩ := submitted_runs hs.coherent h n hn
  obtain ⟨c, hc, _⟩ := hk.coherent.rooted n id hid
  have hc : v.contextOf? n = some c := (contextOf?_eq hid).trans hc
  have hrest := hv.atRest (hk.listed hl)
  exact ⟨c, hc, hrest.saturated n c hc, (sane_runs hs h).exact hv.quiet hc⟩

/-- Running roots to completion on a resubmission gives them the same outcome as on a new state. -/
theorem resubmission_same_outcome (hw : Rested calls w)
    (hc : w.Covers (after (more ++ calls)) invalidated)
    (hv : Runs (w.resubmission (after (more ++ calls)) invalidated) roots v) (hvc : v.Complete)
    (hu : u.state = State.new (after (more ++ calls))) {u' : Workspace} (hu' : Runs u roots u')
    (huc : u'.Complete) (hn : n ∈ roots) :
    ∃ c d, v.contextOf? n = some c ∧ u'.contextOf? n = some d ∧ SameOutcome c d := by
  obtain ⟨hs, hr⟩ := hw.sane
  obtain ⟨c, hcv, hcs, hci, hcx⟩ := (sane_resubmission hs hr hc).outcome
    hs.coherent.listed_resubmission hv hvc hn
  obtain ⟨d, hdu, hds, hdi, hdx⟩ := (sane_new hu).outcome (listed_new hu) hu' huc hn
  have hin : c.inconsistent = d.inconsistent := Bool.eq_iff_iff.mpr (hci.trans hdi.symm)
  exact ⟨c, d, hcv, hdu, ⟨hcs, hds⟩, hin, fun hcon x =>
    (hcx hcon x).trans (hdx (hin ▸ hcon) x).symm⟩

theorem forall_contexts {P : NodeId → Context → Prop}
    (h : ∀ x ∈ w.state.contexts, ∀ c ∈ w.context? x.2, P x.1 c) (hc : w.contextOf? n = some c) :
    P n c := by
  obtain ⟨id, hid, hc⟩ := Option.bind_eq_some_iff.mp hc
  obtain ⟨l₁, l₂, hl, _⟩ := List.lookup_eq_some_iff.mp hid
  exact h (n, id) (by simp [hl]) c hc

/-- A ⊑ C is added to `emptyFiller`, where C is node 5. -/
def moreSupers : List Call := [.addSubclass ⟨2⟩ ⟨5⟩, .addClass "C"]

/-- The chain of A has changed, and nobody links to A. -/
theorem covers_moreSupers : (saturate (start (after emptyFiller)) ⟨2⟩).Covers
    (after (moreSupers ++ emptyFiller)) [⟨2⟩] := by
  have hrun : Runs (start (after emptyFiller)) [⟨2⟩] (saturate (start (after emptyFiller)) ⟨2⟩) :=
    runs_saturate_start (by decide +kernel)
  have ho := (keeps_runs (coherent_new rfl) hrun).ontology
  have hall : ∀ n c, (saturate (start (after emptyFiller)) ⟨2⟩).contextOf? n = some c →
      n = ⟨2⟩ ∧ c.facts.backward = [] ∨ n = ⟨3⟩ ∧ c.facts.subsumers = [⟨3⟩, bottom] := by
    intro n c
    apply forall_contexts (P := fun n c =>
      n = ⟨2⟩ ∧ c.facts.backward = [] ∨ n = ⟨3⟩ ∧ c.facts.subsumers = [⟨3⟩, bottom])
    decide +kernel
  have hsame : ∀ x ∈ [⟨3⟩, bottom], (after emptyFiller).rules x =
      (after (moreSupers ++ emptyFiller)).rules x := by
    decide +kernel
  have hproperties : (after emptyFiller).properties =
      (after (moreSupers ++ emptyFiller)).properties := by
    decide +kernel
  refine ⟨?_, ?_, ?_, ?_⟩
  · intro n c x hc hx hne
    rcases hall n c hc with ⟨rfl, _⟩ | ⟨_, hsub⟩
    · exact List.mem_singleton_self _
    · refine absurd ?_ hne
      rw [ho, show (start (after emptyFiller)).state.ontology = after emptyFiller from rfl,
        hsame x (hsub ▸ hx)]
      exact ⟨rfl, fun _ => .rfl, fun _ => .rfl, fun _ => .rfl, fun _ => .rfl⟩
  · intro n c _ _ ht
    exact absurd ht (by decide +kernel)
  · intro n c m d r _ _ _ hne
    refine absurd ?_ hne
    intro s
    rw [ho, show (start (after emptyFiller)).state.ontology = after emptyFiller from rfl]
    simp only [Ontology.supers, property?, hproperties]
  · intro n c m d r _ hd hl hm
    obtain rfl := List.mem_singleton.mp hm
    rcases hall _ d hd with ⟨_, hback⟩ | ⟨heq, _⟩
    · rw [hback] at hl
      cases hl
    · cases heq

theorem resubmission_same_outcome_emptyFiller : ∃ w v u,
    Rested emptyFiller w ∧ w.Covers (after (moreSupers ++ emptyFiller)) [⟨2⟩] ∧
      Runs (w.resubmission (after (moreSupers ++ emptyFiller)) [⟨2⟩]) [⟨2⟩] v ∧ v.Complete ∧
      Runs (start (after (moreSupers ++ emptyFiller))) [⟨2⟩] u ∧ u.Complete ∧
      ∃ c d, v.contextOf? ⟨2⟩ = some c ∧ u.contextOf? ⟨2⟩ = some d ∧ SameOutcome c d := by
  have hrun : Runs (start (after emptyFiller)) [⟨2⟩] (saturate (start (after emptyFiller)) ⟨2⟩) :=
    runs_saturate_start (by decide +kernel)
  have hw : Rested emptyFiller (saturate (start (after emptyFiller)) ⟨2⟩) :=
    .fresh rfl hrun (Complete.atRest ⟨quiet_of_store (by decide +kernel), by decide +kernel⟩
      ((keeps_runs (coherent_new rfl) hrun).listed (listed_new rfl)))
  have hv : Complete (saturate ((saturate (start (after emptyFiller)) ⟨2⟩).resubmission
      (after (moreSupers ++ emptyFiller)) [⟨2⟩]) ⟨2⟩) :=
    ⟨quiet_of_store (by decide +kernel), by decide +kernel⟩
  have hu : Complete (saturate (start (after (moreSupers ++ emptyFiller))) ⟨2⟩) :=
    ⟨quiet_of_store (by decide +kernel), by decide +kernel⟩
  have hcoherent := (keeps_runs (coherent_new rfl) hrun).coherent.resubmission
    (o := after (moreSupers ++ emptyFiller)) (l := [⟨2⟩])
  have hagain := runs_saturate (n := ⟨2⟩) hcoherent (fun _ h => by cases h) (by decide +kernel)
  have hnew : Runs (start (after (moreSupers ++ emptyFiller))) [⟨2⟩]
      (saturate (start (after (moreSupers ++ emptyFiller))) ⟨2⟩) :=
    runs_saturate_start (by decide +kernel)
  exact ⟨_, _, _, hw, covers_moreSupers, hagain, hv, hnew, hu,
    resubmission_same_outcome hw covers_moreSupers hagain hv rfl hnew hu List.mem_cons_self⟩

end Subsumption.Workspace
