import Subsumption.Proofs.Overlinking
import Subsumption.Proofs.Resaturation
import Subsumption.Proofs.Soundness

/-! Several states over one store. What a run on one of them does to the contexts of another is to
add links; the other state does not come to other results unless a link is from a root of which it
has no context. -/
namespace Subsumption

namespace Workspace

open Ontology

variable {w w₀ v t m u : Workspace} {calls : List Call} {roots others : List NodeId}
  {n root : NodeId} {id x : ContextId} {c : Context} {k : Conclusion}

/-! ### Contexts of other states -/

/-- The contexts that do not belong to the state of `w₀`, but to other states over the same store,
have only been marked since. -/
structure Beside (w₀ w : Workspace) : Prop where
  size : w₀.store.size ≤ w.store.size
  context? : ∀ x c, (∀ n, w₀.state.find? n ≠ some x) → w₀.context? x = some c →
    (∀ n, w.state.find? n ≠ some x) ∧
      ∃ sat a, w.context? x = some { c with saturated := sat, active := a }

theorem Beside.refl (w : Workspace) : Beside w w :=
  ⟨Nat.le_refl _, fun _ c h hc => ⟨h, c.saturated, c.active, hc⟩⟩

theorem Beside.trans (h : Beside w₀ w) (h' : Beside w v) : Beside w₀ v := by
  refine ⟨Nat.le_trans h.size h'.size, fun x c hx hc => ?_⟩
  obtain ⟨hx', sat, a, hc'⟩ := h.context? x c hx hc
  obtain ⟨hx'', sat', a', hc''⟩ := h'.context? x _ hx' hc'
  exact ⟨hx'', sat', a', hc''⟩

theorem size_modify (f : Context → Context) : (w.modify id f).store.size = w.store.size := by
  simp [modify]

theorem size_produce (k : Conclusion) : (w.produce id k).store.size = w.store.size := by
  simp only [produce, enqueue, setActive]
  split <;> simp only [size_modify]

theorem beside_modify (hid : w.state.find? n = some id) (f : Context → Context) :
    Beside w (w.modify id f) := by
  refine ⟨Nat.le_of_eq (size_modify f).symm, fun x c hx hc => ⟨hx, c.saturated, c.active, ?_⟩⟩
  have hne : x ≠ id := by
    rintro rfl
    exact hx n hid
  rw [context?_modify, if_neg hne, hc]

theorem beside_produce (hid : w.state.find? n = some id) (k : Conclusion) :
    Beside w (w.produce id k) := by
  refine ⟨Nat.le_of_eq (size_produce k).symm, fun x c hx hc => ⟨?_, c.saturated, c.active, ?_⟩⟩
  · intro m
    rw [find?_produce]
    exact hx m
  · have hne : x ≠ id := by
      rintro rfl
      exact hx n hid
    rw [context?_produce, if_neg hne, hc]

theorem beside_insert (n : NodeId) : Beside w ((w.insertContext n).2.enlist w.nextId) := by
  have hsize : ((w.insertContext n).2.enlist w.nextId).store.size = w.store.size + 1 := by
    simp [insertContext, enlist]
  refine ⟨by omega, fun x c hx hc => ?_⟩
  have hne : x ≠ w.nextId := by
    rintro rfl
    rw [context?_nextId] at hc
    cases hc
  refine ⟨?_, c.saturated, c.active, ?_⟩
  · intro m hm
    have hm : (w.state.contexts ++ [(n, w.nextId)]).lookup m = some x := hm
    rw [List.lookup_append] at hm
    cases hl : w.state.contexts.lookup m with
    | some y =>
      rw [hl, Option.some_or] at hm
      exact hx m (hl.trans hm)
    | none =>
      rw [hl, Option.none_or, List.lookup_cons, List.lookup_nil] at hm
      split at hm <;> cases hm
      exact hne rfl
  · exact (context?_insertContext (w := w)).trans (by rw [if_neg hne, hc])

theorem lasting_beside (w₀ : Workspace) : Lasting (Beside w₀) :=
  ⟨fun _ _ _ k hid h => h.trans (beside_produce hid k), fun _ n _ h => h.trans (beside_insert n),
    fun _ _ h => ⟨h.size, h.context?⟩⟩

theorem beside_marks (id : ContextId) (sat a : Context → Bool) :
    Beside w (w.modify id fun c => { c with saturated := sat c, active := a c }) := by
  refine ⟨Nat.le_of_eq (size_modify _).symm, fun x c hx hc => ⟨hx, ?_⟩⟩
  rw [context?_modify, hc]
  split
  · exact ⟨sat c, a c, rfl⟩
  · exact ⟨c.saturated, c.active, rfl⟩

theorem beside_step (hw : w.Coherent) (h : Step w v) : Beside w v := by
  cases h with
  | @process v root id k _ obs timed stats env hroot hpop =>
    obtain ⟨c, rest, _, rfl, _, hv, hstate, hc, _⟩ := popped hw hroot hpop
    have hroot' : v.state.find? c.root = some id := by rw [hstate, hroot]
    have hpopped : Beside w v := by
      unfold pop? at hpop
      split at hpop <;> cases hpop
      exact beside_modify hroot _
    exact (lasting_beside w).apply obs timed ⟨v, stats, env⟩ hv hroot' hc
      (hpopped.trans (beside_modify hroot' _))
  | token id b => exact beside_marks id (·.saturated) fun _ => b
  | queue | report => exact ⟨Nat.le_refl _, (Beside.refl w).context?⟩
  | mark =>
    unfold markNext
    split
    · exact ⟨Nat.le_refl _, (Beside.refl w).context?⟩
    · rename_i id rest _
      dsimp only [markSaturated]
      split
      · split
        · exact ⟨Nat.le_refl _, (Beside.refl w).context?⟩
        · have hm := beside_marks (w := w) id (fun _ => true) (·.active)
          exact ⟨hm.size, hm.context?⟩
      · exact ⟨Nat.le_refl _, (Beside.refl w).context?⟩

theorem beside_runs (hw : w.Coherent) (h : Runs w roots v) : Beside w v := by
  induction h with
  | start => exact .refl w
  | submit obs stats env hv root _ ih => exact (lasting_beside w).obtain obs ⟨_, stats, env⟩ ih root
  | step hv hs ih => exact ih.trans (beside_step (keeps_runs hw hv).coherent hs)

/-- Runs from a moment of rest leave all contexts in the store as they are, those of other states
too, but for links from roots without contexts in the state at that moment. -/
theorem linked_runs (hw : w.Coherent) (hq : w.Quiet) (h : Runs w roots v)
    (hc : w.context? x = some c) : ∃ c', v.context? x = some c' ∧ c.LinksAdded c' ∧
      (v.Quiet → c.pending = [] → c'.pending = []) := by
  by_cases hx : ∃ n, w.state.find? n = some x
  · obtain ⟨n, hn⟩ := hx
    have hn' := (keeps_runs hw h).find? n x hn
    obtain ⟨c', hc', hl⟩ := (frozen_runs hw hq h).kept n c ((contextOf?_eq hn).trans hc)
    exact ⟨c', (contextOf?_eq hn').symm.trans hc', hl.linksAdded, fun hv _ => hv n c' hc'⟩
  · rw [not_exists] at hx
    obtain ⟨_, sat, a, hc'⟩ := (beside_runs hw h).context? x c hx hc
    exact ⟨_, hc', ⟨rfl, rfl, [], by simp⟩, fun _ hp => hp⟩

/-- The store as another state over it sees it. -/
def switch (w : Workspace) (s : State) : Workspace := { w with state := s }

/-- All links are from roots that have contexts. -/
def OwnLinks (w : Workspace) : Prop :=
  ∀ n s r, Board.Has w.contextOf? n (.backwardLink s r) → Board.Hosts w.contextOf? s

/-- Both contexts are inconsistent or neither is, and if they are not, they have the same
subsumers. -/
structure SameFindings (c d : Context) : Prop where
  inconsistent : c.inconsistent = d.inconsistent
  subsumers : c.inconsistent = false → ∀ x, x ∈ c.facts.subsumers ↔ x ∈ d.facts.subsumers

/-- Whatever roots are run to completion here, about each of them the same is found out as in a new
state over the ontology that the calls have built. -/
def Conclusive (calls : List Call) (w : Workspace) : Prop :=
  ∀ roots u, Runs w roots u → u.Quiet → ∀ n ∈ roots,
    ∀ s s', s.state = State.new (after calls) → Runs s roots s' → s'.Quiet →
      ∃ c d, u.contextOf? n = some c ∧ s'.contextOf? n = some d ∧ SameFindings c d

/-- The findings that the rules determine are those of every run to completion on a new state. -/
theorem sameFindings_of_exact (hc : Board.Exact (after calls) n c)
    (hw : w.state = State.new (after calls)) (h : Runs w roots v) (hq : v.Quiet) (hn : n ∈ roots) :
    ∃ d, v.contextOf? n = some d ∧ SameFindings c d := by
  obtain ⟨id, hid⟩ := submitted_runs (coherent_new hw) h n hn
  obtain ⟨d, hd, _⟩ := (keeps_runs (coherent_new hw) h).coherent.rooted n id hid
  have hd := (contextOf?_eq hid).trans hd
  obtain ⟨hdi, hdx⟩ := exact_of_runs calls hw h hq hd
  have hin : c.inconsistent = d.inconsistent :=
    Bool.eq_iff_iff.mpr (hc.inconsistent.trans hdi.symm)
  exact ⟨d, hd, hin, fun hcon x => (hc.subsumers hcon x).trans (hdx (hin ▸ hcon) x).symm⟩

theorem conclusive_of_exact (h : ∀ roots u, Runs w roots u → u.Quiet → ∀ n ∈ roots,
    ∃ c, u.contextOf? n = some c ∧ Board.Exact (after calls) n c) : Conclusive calls w := by
  intro roots u hu hq n hn s s' hs hs' hq'
  obtain ⟨c, hc, hexact⟩ := h roots u hu hq n hn
  obtain ⟨d, hd, hsame⟩ := sameFindings_of_exact hexact hs hs' hq' hn
  exact ⟨c, d, hc, hd, hsame⟩

/-! ### Two states -/

theorem absent_switch (ht : t.Coherent) (n : NodeId) (hn : t.contextOf? n = none) :
    (v.switch t.state).contextOf? n = none := by
  have hf : (v.switch t.state).state.find? n = none := ht.contextOf?_eq_none.mp hn
  simp [contextOf?, hf]

section
variable (hq : t.Quiet) (hm : m.Coherent) (hmq : m.Quiet) (hstore : m.store = t.store)
  (hv : Runs m others v) (hvq : v.Quiet)
include hq hm hmq hstore hv hvq

theorem kept_switch (hc : t.contextOf? n = some c) :
    ∃ c', (v.switch t.state).contextOf? n = some c' ∧ c.LinksAdded c' ∧
      c'.pending = c.pending := by
  obtain ⟨id, hid, hc'⟩ := Option.bind_eq_some_iff.mp hc
  have hm' : m.context? id = some c := by
    rw [Workspace.context?, hstore]
    exact hc'
  obtain ⟨c', hc', hl, hp⟩ := linked_runs hm hmq hv hm'
  have hpend := hq n c hc
  exact ⟨c', (contextOf?_eq (w := v.switch t.state) hid).trans hc', hl,
    (hp hvq hpend).trans hpend.symm⟩

theorem coherent_switch (ht : t.Coherent) : (v.switch t.state).Coherent := by
  refine ⟨ht.distinct, fun n id hid => ?_⟩
  obtain ⟨c, hc, hn⟩ := ht.rooted n id hid
  obtain ⟨c', hc', hl, _⟩ := kept_switch hq hm hmq hstore hv hvq
    ((contextOf?_eq (w := t) hid).trans hc)
  exact ⟨c', (contextOf?_eq (w := v.switch t.state) hid).symm.trans hc', hl.root.trans hn⟩

theorem overlinked_switch (ht : t.Coherent) (hown : (v.switch t.state).OwnLinks) :
    Board.Overlinked t.contextOf? t.contextOf? (v.switch t.state).contextOf? := by
  refine ⟨Board.frozen_refl hq, fun n => ?_⟩
  cases hc : t.contextOf? n with
  | none => exact ⟨true, true, [], by rw [absent_switch ht n hc]; rfl, fun c hc => by cases hc⟩
  | some c =>
    obtain ⟨c', hc', hl, hp⟩ := kept_switch hq hm hmq hstore hv hvq hc
    refine ⟨c'.saturated, c'.active, c'.facts.backward, ?_, ?_⟩
    · rw [hc', hl.relinked hp]
      rfl
    · rintro _ ⟨⟩
      refine ⟨fun r s hns => ⟨fun h => ?_, fun h => ?_⟩, fun hno => ?_⟩
      · exact absurd (hown n s r ⟨c', hc', h⟩) fun hh => hns fun hnn => hh (absent_switch ht s hnn)
      · exact hl.has (k := .backwardLink s r) h
      · exact absurd hc (by rw [not_not.mp hno]; exact Option.some_ne_none c ∘ Eq.symm)

end

/-- Whatever else is put into the store, the contexts of the state stay what they are. -/
structure Extends (w v : Workspace) : Prop where
  state : v.state = w.state
  store : ∀ (i : Nat) (c : Context), w.store[i]? = some c → v.store[i]? = some c

theorem Extends.contextOf? (h : Extends w v) (hw : w.Coherent) : v.contextOf? = w.contextOf? := by
  funext n
  cases hid : w.state.find? n with
  | none => simp [Workspace.contextOf?, h.state, hid]
  | some id =>
    obtain ⟨c, hc, _⟩ := hw.rooted n id hid
    have hid' : v.state.find? n = some id := by rw [h.state, hid]
    rw [contextOf?_eq hid, contextOf?_eq hid', hc]
    exact h.store _ c hc

theorem Extends.coherent (h : Extends w v) (hw : w.Coherent) : v.Coherent := by
  refine ⟨by rw [h.state]; exact hw.distinct, fun n id hid => ?_⟩
  obtain ⟨c, hc, hn⟩ := hw.rooted n id (h.state ▸ hid)
  exact ⟨c, h.store _ c hc, hn⟩

theorem Extends.quiet (h : Extends w v) (hw : w.Coherent) (hq : w.Quiet) : v.Quiet := by
  rw [Quiet, h.contextOf? hw]
  exact hq

theorem Extends.sane {o : Ontology} (h : Extends w v) (hw : Sane o w) : Sane o v :=
  ⟨by rw [h.state]; exact hw.ontology, h.coherent hw.coherent,
    by rw [h.contextOf? hw.coherent]; exact hw.supported,
    by rw [h.contextOf? hw.coherent]; exact hw.settled⟩

theorem extends_resubmission (hw : w.Coherent) (o : Ontology) (invalidated : List NodeId) :
    Extends w ((w.resubmission o invalidated).switch w.state) :=
  ⟨rfl, (hw.carriedOver o invalidated).stored⟩

theorem quiet_resubmission (hw : w.Coherent) (hq : w.Quiet) (o : Ontology)
    (invalidated : List NodeId) : (w.resubmission o invalidated).Quiet :=
  Board.quiet_of_pruned (fun _ => hw.contextOf?_resubmission) hq

/-- Runs come to the results that the rules determine if the contexts, but for links of the one
kind, are those of a board at rest. -/
theorem conclusive_of_overlinked {b : Board} (hb : Board.Resumed (after calls) b b)
    (hw : w.Coherent) (ho : w.state.ontology = after calls)
    (hover : Board.Overlinked b b w.contextOf?) : Conclusive calls w := by
  have hs := closed_after calls
  refine conclusive_of_exact fun roots u hu hqu n hn => ?_
  -- The run is followed on a board without the links that another run has left behind.
  obtain ⟨b₁, hres, hover⟩ := board_runs (P := fun b' => ∃ b₁, Board.Resumed (after calls) b b₁ ∧
      Board.Overlinked b b₁ b') hw
    (fun b' b'' hmove ⟨b₁, hres, hover⟩ => by
      rw [ho] at hmove
      obtain ⟨b₂, hmove', hover'⟩ := Board.overlinked_move hmove hover
      exact ⟨b₂, Board.resumed_move (attached_after calls) hs hmove' hres, hover'⟩)
    hu ⟨b, hb, hover⟩
  obtain ⟨id, hid⟩ := submitted_runs hw hu n hn
  obtain ⟨c, hc, _⟩ := (keeps_runs hw hu).coherent.rooted n id hid
  have hc : u.contextOf? n = some c := (contextOf?_eq hid).trans hc
  exact ⟨c, hc, hover.exact (interned_after calls) hs hres.resolved hqu hc⟩

/-- What has been found out about all contexts at rest, runs can go on from. -/
theorem Sane.resumed (hw : Sane (after calls) w) (hq : w.Quiet) :
    Board.Resumed (after calls) w.contextOf? w.contextOf? := by
  have hres := Board.resolved_of_settled hw.supported hw.settled
  refine ⟨Board.frozen_refl hq, ?_, hw.supported.once, hres.means, hres.propagated, ?_,
    hres.answered, fun n _ => hw.settled.linked n⟩
  · exact fun n c hc =>
      hres.exact_of_quiet (interned_after calls) (closed_after calls) hq hc
  · intro n c k hc hk
    rw [hq n c hc] at hk
    cases hk

/-- Any contexts that go over from a state at rest to another one over the same ontology do. -/
theorem resumed_resubmission {invalidated : List NodeId} (hw : w.Coherent) (hq : w.Quiet)
    (h : Board.Resumed (after calls) w.contextOf? w.contextOf?) :
    Board.Resumed (after calls) (w.resubmission (after calls) invalidated).contextOf?
      (w.resubmission (after calls) invalidated).contextOf? := by
  refine Board.resumed_kept hq (Board.frozen_refl hq) ?_ (fun n => hw.contextOf?_resubmission)
    (interned_after calls) (closed_after calls) h (quiet_resubmission hw hq _ invalidated)
  intro n hn
  obtain ⟨c, hc, _⟩ := (hw.mem_keptRoots.mp hn).2
  rw [Board.Hosts, hc]
  exact Option.some_ne_none c

section
variable {invalidated : List NodeId} {o : Ontology} {b : Board} (hq : w.Quiet) (hv : v.Coherent)
  (hkept : ∀ n c, w.contextOf? n = some c → ∃ c', v.contextOf? n = some c' ∧ c.LinksAdded c' ∧
    c'.pending = c.pending)
  (habsent : ∀ n, w.contextOf? n = none → v.contextOf? n = none)
  (hb : ∀ n, b n = if n ∈ v.keptRoots invalidated then
    (w.contextOf? n).map (·.pruned (v.keptRoots invalidated)) else none)
include hv hkept habsent

theorem linked_of_kept (hn : n ∈ v.keptRoots invalidated) : ∃ c c', w.contextOf? n = some c ∧
    v.contextOf? n = some c' ∧ c.LinksAdded c' ∧ c'.pending = c.pending := by
  obtain ⟨c', hc', _⟩ := (hv.mem_keptRoots.mp hn).2
  cases hc : w.contextOf? n with
  | none =>
    rw [habsent n hc] at hc'
    cases hc'
  | some c =>
    obtain ⟨d, hd, hl⟩ := hkept n c hc
    exact ⟨c, d, rfl, hd, hl⟩

include hq hb

/-- What goes over after links have been added is, but for links, what would have gone over
before. -/
theorem overlinked_resubmission :
    Board.Overlinked b b (v.resubmission o invalidated).contextOf? := by
  have hhosts : ∀ s ∈ v.keptRoots invalidated, b.Hosts s := by
    intro s hs
    obtain ⟨d, _, hd, _⟩ := linked_of_kept hv hkept habsent hs
    rw [Board.Hosts, hb, if_pos hs, hd]
    exact Option.some_ne_none _
  refine ⟨Board.frozen_refl (Board.quiet_of_pruned hb hq), fun n => ?_⟩
  rw [hv.contextOf?_resubmission, hb]
  by_cases hn : n ∈ v.keptRoots invalidated
  · obtain ⟨c, c', hc, hc', hl, hp⟩ := linked_of_kept hv hkept habsent hn
    obtain ⟨sat, a, links, hpruned, hsources⟩ :=
      Context.pruned_relinked c' (v.keptRoots invalidated) (hl.relinked hp) (hq n c hc)
    rw [if_pos hn, if_pos hn, hc, hc', Option.map_some, Option.map_some, hpruned]
    refine ⟨sat, a, links, rfl, ?_⟩
    rintro _ ⟨⟩
    refine ⟨fun r s hns => ⟨fun h => ?_, fun h => ?_⟩, fun hno => absurd (hhosts n hn) hno⟩
    · exact absurd (hhosts s (hsources _ h)) hns
    · have hs := (Context.has_pruned (k := .backwardLink s r)).mp h
      exact absurd (hhosts s (hs.2 s r rfl)) hns
  · rw [if_neg hn, if_neg hn]
    exact ⟨true, true, [], rfl, fun c hc => by cases hc⟩

omit hb in
/-- A state that is made after links have been added comes to its results. -/
theorem conclusive_resubmission (hres : Board.Resumed (after calls) w.contextOf? w.contextOf?) :
    Conclusive calls (v.resubmission (after calls) invalidated) := by
  obtain ⟨b, hb⟩ : ∃ b : Board, ∀ n, b n = if n ∈ v.keptRoots invalidated then
      (w.contextOf? n).map (·.pruned (v.keptRoots invalidated)) else none := ⟨_, fun _ => rfl⟩
  have hover := overlinked_resubmission (o := after calls) hq hv hkept habsent hb
  refine conclusive_of_overlinked ?_ hv.resubmission rfl hover
  refine Board.resumed_kept hq (Board.frozen_refl hq) ?_ hb (interned_after calls)
    (closed_after calls) hres (Board.quiet_of_pruned hb hq)
  intro n hn
  obtain ⟨c, _, hc, _⟩ := linked_of_kept hv hkept habsent hn
  rw [Board.Hosts, hc]
  exact Option.some_ne_none c

end

/-- States are made from one that is at rest, two of them before a run on the first, and another one
afterwards. The run leaves the results of the old state what they were, and those of the second, as
long as no link is left in their contexts but from roots that they know. The third comes to the same
results. -/
theorem undisturbed_by_resubmission {n₁ n₂ : Workspace} {o₁ : Ontology}
    {invalidated₁ invalidated₂ : List NodeId} (hw : Rested calls w)
    (h₁ : n₁ = w.resubmission o₁ invalidated₁)
    (h₂ : n₂ = (n₁.switch w.state).resubmission (after calls) invalidated₂)
    (hv : Runs (n₂.switch n₁.state) others v) (hvq : v.Quiet) :
    ((v.switch w.state).OwnLinks → Conclusive calls (v.switch w.state)) ∧
      ((v.switch n₂.state).OwnLinks → Conclusive calls (v.switch n₂.state)) ∧
      ∀ invalidated₃,
        Conclusive calls ((v.switch w.state).resubmission (after calls) invalidated₃) := by
  obtain ⟨hs, hr⟩ := hw.sane
  have hold : Extends w (n₁.switch w.state) :=
    h₁ ▸ extends_resubmission hs.coherent o₁ invalidated₁
  have hs₁ := hold.sane hs
  have hq₁ := hold.quiet hs.coherent hr.quiet
  have hboth : Extends (n₁.switch w.state) (n₂.switch w.state) :=
    h₂ ▸ extends_resubmission hs₁.coherent (after calls) invalidated₂
  have hw₂ := hboth.sane hs₁
  have hwq₂ := hboth.quiet hs₁.coherent hq₁
  have hcoh₂ : n₂.Coherent := h₂ ▸ hs₁.coherent.resubmission
  have hq₂ : n₂.Quiet := h₂ ▸ quiet_resubmission hs₁.coherent hq₁ _ invalidated₂
  have hres₂ : Board.Resumed (after calls) n₂.contextOf? n₂.contextOf? :=
    h₂ ▸ resumed_resubmission hs₁.coherent hq₁ (hs₁.resumed hq₁)
  have hfirst : Extends n₁ (n₂.switch n₁.state) := ⟨rfl, hboth.store⟩
  have hcoh₁ : n₁.Coherent := h₁ ▸ hs.coherent.resubmission
  have hm := hfirst.coherent hcoh₁
  have hmq := hfirst.quiet hcoh₁ (h₁ ▸ quiet_resubmission hs.coherent hr.quiet o₁ invalidated₁)
  refine ⟨fun hown => ?_, fun hown => ?_, fun invalidated₃ => ?_⟩
  · exact conclusive_of_overlinked (hw₂.resumed hwq₂)
      (coherent_switch (t := n₂.switch w.state) hwq₂ hm hmq rfl hv hvq hw₂.coherent) hw₂.ontology
      (overlinked_switch (t := n₂.switch w.state) hwq₂ hm hmq rfl hv hvq hw₂.coherent hown)
  · exact conclusive_of_overlinked hres₂ (coherent_switch hq₂ hm hmq rfl hv hvq hcoh₂)
      (by rw [h₂]; rfl) (overlinked_switch hq₂ hm hmq rfl hv hvq hcoh₂ hown)
  · exact conclusive_resubmission (w := n₂.switch w.state) hwq₂
      (coherent_switch (t := n₂.switch w.state) hwq₂ hm hmq rfl hv hvq hw₂.coherent)
      (fun n c => kept_switch (t := n₂.switch w.state) hwq₂ hm hmq rfl hv hvq)
      (absent_switch hw₂.coherent) (hw₂.resumed hwq₂)

theorem ownLinks_of_contexts (h : ∀ x ∈ w.state.contexts, ∀ c ∈ w.context? x.2,
    ∀ l ∈ c.facts.backward, (w.contextOf? l.2).isSome = true) : w.OwnLinks := by
  rintro n s r ⟨c, hc, hl⟩
  have hsome := forall_contexts (P := fun _ c => ∀ l ∈ c.facts.backward,
    (w.contextOf? l.2).isSome = true) h hc (r, s) hl
  exact Option.isSome_iff_ne_none.mp hsome

/-- A has been run to completion over A ⊑ ∃r.B, B ⊑ C and ∃r.C ⊑ D. -/
def bothDone : Workspace := saturate (start (after throughFiller)) ⟨2⟩

/-- A state made from it, where A starts over. -/
def firstMade : Workspace := bothDone.resubmission (after throughFiller) [⟨2⟩]

/-- Another state made from it, where B starts over. -/
def secondMade : Workspace :=
  (firstMade.switch bothDone.state).resubmission (after throughFiller) [⟨3⟩]

/-- A is run again on the first of two states; the old state and the second keep their results, and
so does a third that is made then. -/
theorem undisturbed_by_resubmission_throughFiller : ∃ v, Rested throughFiller bothDone ∧
    Runs (secondMade.switch firstMade.state) [⟨2⟩] v ∧ v.Quiet ∧
    Conclusive throughFiller (v.switch bothDone.state) ∧
    Conclusive throughFiller (v.switch secondMade.state) ∧
    Conclusive throughFiller
      ((v.switch bothDone.state).resubmission (after throughFiller) [⟨2⟩]) := by
  have hrun : Runs (start (after throughFiller)) [⟨2⟩] bothDone :=
    runs_saturate_start (by decide +kernel)
  have hk := keeps_runs (coherent_new rfl) hrun
  have hw : Rested throughFiller bothDone :=
    .fresh rfl hrun (Complete.atRest ⟨quiet_of_store (by decide +kernel), by decide +kernel⟩
      (hk.listed (listed_new rfl)))
  have hmade : firstMade = bothDone.resubmission (after throughFiller) [⟨2⟩] := rfl
  have hmade' : secondMade =
      (firstMade.switch bothDone.state).resubmission (after throughFiller) [⟨3⟩] := rfl
  have hold : Extends bothDone (firstMade.switch bothDone.state) :=
    extends_resubmission hk.coherent (after throughFiller) [⟨2⟩]
  have hboth := extends_resubmission (hold.coherent hk.coherent) (after throughFiller) [⟨3⟩]
  have hm : Extends firstMade (secondMade.switch firstMade.state) := ⟨rfl, hboth.store⟩
  have hv : Runs (secondMade.switch firstMade.state) [⟨2⟩]
      (saturate (secondMade.switch firstMade.state) ⟨2⟩) :=
    runs_saturate (hm.coherent hk.coherent.resubmission) (fun _ h => by cases h)
      (by decide +kernel)
  have hvq : (saturate (secondMade.switch firstMade.state) ⟨2⟩).Quiet :=
    quiet_of_store (by decide +kernel)
  obtain ⟨h₁, h₂, h₃⟩ := undisturbed_by_resubmission hw hmade hmade' hv hvq
  exact ⟨_, hw, hv, hvq, h₁ (ownLinks_of_contexts (by decide +kernel)),
    h₂ (ownLinks_of_contexts (by decide +kernel)), h₃ [⟨2⟩]⟩

/-! ### A shared filler -/

/-- B has been run to completion over A ⊑ ∃r.B, B ⊑ C and ∃r.C ⊑ D. -/
def fillerDone : Workspace := saturate (start (after throughFiller)) ⟨3⟩

/-- After that A has been run to completion on a state made from it. -/
def fillerLinked : Workspace := saturate (fillerDone.resubmission (after throughFiller) []) ⟨2⟩

theorem rested_fillerDone : Rested throughFiller fillerDone := by
  have hrun : Runs (start (after throughFiller)) [⟨3⟩] fillerDone :=
    runs_saturate_start (by decide +kernel)
  exact .fresh rfl hrun (Complete.atRest ⟨quiet_of_store (by decide +kernel), by decide +kernel⟩
    ((keeps_runs (coherent_new rfl) hrun).listed (listed_new rfl)))

theorem runs_fillerLinked :
    Runs (fillerDone.resubmission (after throughFiller) []) [⟨2⟩] fillerLinked :=
  runs_saturate rested_fillerDone.sane.1.coherent.resubmission (fun _ h => by cases h)
    (by decide +kernel)

/-- The context of B is shared, and the link from A is recorded in it, but on the old state A has no
context: when A links to B there, D is not found to subsume A. -/
theorem disturbed_fillerLinked : Rested throughFiller fillerDone ∧
    Runs (fillerDone.resubmission (after throughFiller) []) [⟨2⟩] fillerLinked ∧
      fillerLinked.Quiet ∧ ¬ Conclusive throughFiller (fillerLinked.switch fillerDone.state) := by
  obtain ⟨hs, hr⟩ := rested_fillerDone.sane
  have hquiet : fillerLinked.Quiet := quiet_of_store (by decide +kernel)
  refine ⟨rested_fillerDone, runs_fillerLinked, hquiet, fun h => ?_⟩
  have hold := extends_resubmission hs.coherent (after throughFiller) []
  have hw : (fillerLinked.switch fillerDone.state).Coherent :=
    coherent_switch (t := (fillerDone.resubmission (after throughFiller) []).switch
      fillerDone.state) (hold.quiet hs.coherent hr.quiet) hs.coherent.resubmission
      (quiet_resubmission hs.coherent hr.quiet _ _) rfl runs_fillerLinked hquiet
      (hold.coherent hs.coherent)
  have hactive : (fillerLinked.switch fillerDone.state).state.active = [] := by decide +kernel
  have hu := runs_saturate (n := ⟨2⟩) hw (fun _ h => by rw [hactive] at h; cases h)
    (by decide +kernel)
  obtain ⟨c, d, hc, hd, _, hsubsumers⟩ := h _ _ hu (quiet_of_store (by decide +kernel)) ⟨2⟩
    List.mem_cons_self (start (after throughFiller)) _ rfl (runs_saturate_start (by decide +kernel))
    (quiet_of_store (by decide +kernel))
  have hmissing : ((saturate (fillerLinked.switch fillerDone.state) ⟨2⟩).contextOf? ⟨2⟩).map
      (fun c => (c.inconsistent, decide (⟨7⟩ ∈ c.facts.subsumers))) = some (false, false) := by
    decide +kernel
  have hfound : ((saturate (start (after throughFiller)) ⟨2⟩).contextOf? ⟨2⟩).map
      (fun c => decide (⟨7⟩ ∈ c.facts.subsumers)) = some true := by
    decide +kernel
  rw [hc, Option.map_some, Option.some_inj, Prod.mk.injEq, decide_eq_false_iff_not] at hmissing
  rw [hd, Option.map_some, Option.some_inj, decide_eq_true_eq] at hfound
  exact hmissing.2 ((hsubsumers hmissing.1 ⟨7⟩).mpr hfound)

end Workspace

end Subsumption
