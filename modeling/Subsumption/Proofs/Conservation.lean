import Subsumption.Proofs.AnyOrder
import Subsumption.Proofs.Workshop

/-! Conclusions are neither lost nor counted twice. Whoever queues one counts it as produced,
whoever takes it counts it as processed, and what is between is pending in some context. -/
namespace Subsumption

/-- How many conclusions of a kind are pending. -/
def Context.pendingOf (κ : ConclusionKind) (c : Context) : Nat := c.pending.countP (·.kind = κ)

namespace Workspace

variable {w v : Workspace} {n root : NodeId} {id x : ContextId} {c d : Context} {k : Conclusion}
  {κ : ConclusionKind} {hands : List ContextId}

/-! ### Counting what is pending -/

/-- How many conclusions of a kind are pending at a place. -/
def pendingAt (κ : ConclusionKind) (w : Workspace) (id : ContextId) : Nat :=
  ((w.context? id).map (·.pendingOf κ)).getD 0

/-- How many conclusions of a kind are pending in the contexts of the state. -/
def pendingOf (κ : ConclusionKind) (w : Workspace) : Nat :=
  (w.state.contexts.map fun x => w.pendingAt κ x.2).sum

theorem pendingAt_eq (hc : w.context? id = some c) : w.pendingAt κ id = c.pendingOf κ := by
  rw [pendingAt, hc, Option.map_some, Option.getD_some]

theorem pendingOf_congr (hcontexts : v.state.contexts = w.state.contexts)
    (h : ∀ x ∈ w.state.contexts, v.pendingAt κ x.2 = w.pendingAt κ x.2) :
    v.pendingOf κ = w.pendingOf κ := by
  rw [pendingOf, hcontexts]
  exact congrArg List.sum (List.map_congr_left h)

/-- What changes in one context changes the sum. -/
theorem pendingOf_change (hw : w.Coherent) (hid : w.state.find? n = some id)
    (hcontexts : v.state.contexts = w.state.contexts)
    (hother : ∀ x, x ≠ id → v.context? x = w.context? x) :
    v.pendingOf κ + w.pendingAt κ id = w.pendingOf κ + v.pendingAt κ id := by
  obtain ⟨l₁, l₂, hl, _⟩ := List.lookup_eq_some_iff.mp hid
  have hnodup := hw.distinct
  rw [hl, List.map_append, List.map_cons] at hnodup
  have hmiddle := List.nodup_middle.mp hnodup
  have hrest : ∀ x ∈ l₁ ++ l₂, v.pendingAt κ x.2 = w.pendingAt κ x.2 := by
    intro x hx
    have hmem : (x.1, x.2) ∈ w.state.contexts := by
      rw [hl]
      exact List.perm_middle.mem_iff.mpr (List.mem_cons_of_mem _ hx)
    have hne : x.2 ≠ id := by
      intro he
      have hroot := (hw.place_eq_iff (lookup_of_mem hw.distinct hmem) hid).mp he
      refine (List.nodup_cons.mp hmiddle).1 ?_
      rw [← List.map_append]
      exact List.mem_map.mpr ⟨x, hx, hroot⟩
    simp only [pendingAt, hother x.2 hne]
  have h₁ := List.map_congr_left fun x hx => hrest x (List.mem_append_left l₂ hx)
  have h₂ := List.map_congr_left fun x hx => hrest x (List.mem_append_right l₁ hx)
  simp only [pendingOf, hcontexts, hl, List.map_append, List.map_cons, List.sum_append,
    List.sum_cons, h₁, h₂]
  omega

theorem pendingOf_produce (hw : w.Coherent) (hid : w.state.find? n = some id) :
    (w.produce id k).pendingOf κ = w.pendingOf κ + if k.kind = κ then 1 else 0 := by
  obtain ⟨c, hc, _⟩ := hw.rooted n id hid
  have hchange := pendingOf_change (v := w.produce id k) (κ := κ) hw hid
    receives_produce.contexts fun x hx => by rw [context?_produce, if_neg hx]
  have hnew : (w.produce id k).context? id = some (c.receive [k]) := by
    rw [context?_produce, if_pos rfl, hc, Option.map_some]
  have hcount : (c.receive [k]).pendingOf κ = c.pendingOf κ + if k.kind = κ then 1 else 0 := by
    simp [Context.pendingOf, Context.receive, List.countP_cons]
  rw [pendingAt_eq hc, pendingAt_eq hnew, hcount] at hchange
  omega

theorem pendingOf_insert (hw : w.Coherent) :
    ((w.insertContext n).2.enlist w.nextId).pendingOf κ = w.pendingOf κ := by
  have hcontext : ∀ x, ((w.insertContext n).2.enlist w.nextId).context? x =
      if x = w.nextId then some (.fresh n) else w.context? x := fun x =>
    context?_insertContext (w := w)
  have hold : ∀ x ∈ w.state.contexts,
      ((w.insertContext n).2.enlist w.nextId).pendingAt κ x.2 = w.pendingAt κ x.2 := by
    intro x hx
    obtain ⟨c, hc, _⟩ := hw.rooted x.1 x.2 (lookup_of_mem hw.distinct hx)
    have hne : x.2 ≠ w.nextId := by
      intro he
      rw [he, context?_nextId] at hc
      cases hc
    rw [pendingAt, hcontext, if_neg hne, ← pendingAt]
  have hnew : ((w.insertContext n).2.enlist w.nextId).pendingAt κ w.nextId = 0 := by
    rw [pendingAt, hcontext, if_pos rfl]
    rfl
  have hcontexts : ((w.insertContext n).2.enlist w.nextId).state.contexts =
      w.state.contexts ++ [(n, w.nextId)] := rfl
  rw [pendingOf, hcontexts, List.map_append, List.sum_append, List.map_congr_left hold,
    List.map_singleton, List.sum_singleton, hnew, Nat.add_zero, pendingOf]

/-- A conclusion is taken from a context, which is replaced by another one with the rest pending. -/
theorem pendingOf_replace (hw : w.Coherent) (hid : w.state.find? n = some id)
    (hpop : w.pop? id = some (k, v)) {d : Context}
    (hd : ∀ c, v.context? id = some c → d.pending = c.pending) :
    (v.modify id fun _ => d).pendingOf κ + (if k.kind = κ then 1 else 0) = w.pendingOf κ := by
  obtain ⟨rfl, c, rest, hc, hp⟩ := context?_of_pop hpop
  have hpopped : (w.modify id (·.popped)).context? id = some c.popped := by
    rw [context?_modify, if_pos rfl, hc, Option.map_some]
  have hnew : ((w.modify id (·.popped)).modify id fun _ => d).context? id = some d := by
    rw [context?_modify, if_pos rfl, hpopped, Option.map_some]
  have hcount : c.pendingOf κ = d.pendingOf κ + if k.kind = κ then 1 else 0 := by
    simp [Context.pendingOf, hd _ hpopped, Context.popped, hp, List.countP_cons]
  have hchange := pendingOf_change (v := (w.modify id (·.popped)).modify id fun _ => d) (κ := κ)
    hw hid rfl fun x hx => by rw [context?_modify, if_neg hx, context?_modify, if_neg hx]
  rw [pendingAt_eq hc, pendingAt_eq hnew, hcount] at hchange
  omega

theorem pendingOf_quiet (hw : w.Coherent) (hq : w.Quiet) : w.pendingOf κ = 0 := by
  refine List.sum_eq_zero_iff.mpr fun m hm => ?_
  obtain ⟨x, hx, rfl⟩ := List.mem_map.mp hm
  have hid := lookup_of_mem hw.distinct hx
  obtain ⟨c, hc, _⟩ := hw.rooted x.1 x.2 hid
  rw [pendingAt_eq hc, Context.pendingOf, hq x.1 c ((contextOf?_eq hid).trans hc), List.countP_nil]

end Workspace

namespace RuleStatistics

variable (s : RuleStatistics) (k κ : ConclusionKind)

theorem produced_countProduced : (s.countProduced k).produced.get κ.index =
    s.produced.get κ.index + if k = κ then 1 else 0 := by
  rw [countProduced, Tally.get_bump]
  by_cases h : k = κ
  · simp [h]
  · rw [if_neg fun he => h (ConclusionKind.index_injective he), if_neg h, Nat.add_zero]

theorem processed_countProcessed : (s.countProcessed k).processed.get κ.index =
    s.processed.get κ.index + if k = κ then 1 else 0 := by
  rw [countProcessed, Tally.get_bump]
  by_cases h : k = κ
  · simp [h]
  · rw [if_neg fun he => h (ConclusionKind.index_injective he), if_neg h, Nat.add_zero]

end RuleStatistics

namespace RuleRun

open Workspace

variable {σ : Type} {obs : RuleObserver σ} {timed : Bool} {r r' r'' : RuleRun σ} {s s' : Stage}
  {n root self : NodeId} {id : ContextId} {k : Conclusion} {w : Workspace} {c : Context}

/-! ### One balance -/

/-- From one run to the next, as many conclusions of each kind were produced as were processed or
are pending in addition. -/
def Conserves (r r' : RuleRun σ) : Prop := ∀ κ : ConclusionKind,
  r'.stats.produced.get κ.index + (r.stats.processed.get κ.index + r.work.pendingOf κ) =
    r.stats.produced.get κ.index + (r'.stats.processed.get κ.index + r'.work.pendingOf κ)

theorem Conserves.trans (h : Conserves r r') (h' : Conserves r' r'') : Conserves r r'' := by
  intro κ
  have := h κ
  have := h' κ
  omega

/-- What is pending and what was counted may be seen alone. -/
theorem conserves_of_eq (hproduced : r'.stats.produced = r.stats.produced)
    (hprocessed : r'.stats.processed = r.stats.processed)
    (hpending : ∀ κ, r'.work.pendingOf κ = r.work.pendingOf κ) : Conserves r r' := by
  intro κ
  rw [hproduced, hprocessed, hpending]

theorem conserves_produce (hw : r.work.Coherent) (hid : r.work.state.find? n = some id)
    (k : Conclusion) : Conserves r (r.produce id k) := by
  intro κ
  have hpending := pendingOf_produce (k := k) (κ := κ) hw hid
  have hproduced := r.stats.produced_countProduced k.kind κ
  have hprocessed : (r.stats.countProduced k.kind).processed = r.stats.processed := rfl
  simp only [RuleRun.produce, hpending, hproduced, hprocessed]
  omega

theorem conserves_produceAll (hw : r.work.Coherent) (hid : r.work.state.find? n = some id)
    (ks : List Conclusion) : Conserves r (r.produceAll id ks) := by
  induction ks generalizing r with
  | nil => exact conserves_of_eq rfl rfl fun _ => rfl
  | cons k rest ih =>
    have hposts := receives_produce (k := k) |>.posts hw hid
    exact (conserves_produce hw hid k).trans (ih hposts.coherent (hposts.find? n id hid))

theorem conserves_notifyCreated (id : ContextId) : Conserves r (r.notifyCreated obs id) := by
  unfold notifyCreated
  split <;> exact conserves_of_eq rfl rfl fun _ => rfl

theorem conserves_obtain (hw : r.work.Coherent) (root : NodeId) :
    Conserves r (r.obtain obs root).2 := by
  cases hf : r.work.state.find? root with
  | some id =>
    rw [obtain_of_some obs r hf]
    exact conserves_of_eq rfl rfl fun _ => rfl
  | none =>
    have hinsert := hw.insertContext hf
    rw [obtain_of_none obs r hf]
    have hnew : Conserves r
        { r with work := (r.work.insertContext root).2.enlist r.work.nextId } :=
      conserves_of_eq rfl rfl fun _ => pendingOf_insert hw
    refine (hnew.trans ?_).trans (conserves_notifyCreated _)
    exact conserves_produceAll ⟨hinsert.distinct, hinsert.rooted⟩ (find?_insertContext_self hf) _

theorem conserves_perform (hw : r.work.Coherent) (hid : r.work.state.find? self = some id)
    (e : Effect) : Conserves r (r.perform obs timed id e) := by
  cases e with
  | own k => exact conserves_produce hw hid k
  | send root ks =>
    obtain ⟨hposts, hroot⟩ := posts_obtain obs r hw root
    exact (conserves_obtain hw root).trans (conserves_produceAll hposts.coherent hroot ks)
  | decomposed | applied | refuted => exact conserves_of_eq rfl rfl fun _ => rfl

theorem conserves_effects (hw : r.work.Coherent) (hid : r.work.state.find? self = some id)
    (es : List Effect) : Conserves r (es.foldl (perform obs timed id) r) := by
  induction es generalizing r with
  | nil => exact conserves_of_eq rfl rfl fun _ => rfl
  | cons e rest ih =>
    have hposts := posts_perform obs timed r hw hid e
    exact (conserves_perform hw hid e).trans (ih hposts.coherent (hposts.find? self id hid))

/-- Whatever becomes of a conclusion, it is counted when it is taken. -/
theorem conserves_apply (hw : r.work.Coherent) (hid : r.work.state.find? root = some id)
    (hpop : r.work.pop? id = some (k, w)) :
    Conserves r (({ r with work := w } : RuleRun σ).apply obs timed id k) := by
  obtain ⟨c, rest, _, rfl, _, hv, hstate, hc, _⟩ := popped hw hid hpop
  have hid' : w.state.find? c.root = some id := by rw [hstate, hid]
  have hderive : Conserves r ⟨w.modify id fun _ =>
      (({ c with pending := rest } : Context).derive w.state.ontology (w.layout id) k).1,
      r.stats.countProcessed k.kind, r.env⟩ := by
    intro κ
    have hpending := pendingOf_replace (κ := κ)
      (d := (({ c with pending := rest } : Context).derive w.state.ontology (w.layout id) k).1) hw
      hid hpop
      fun a ha => by
        cases hc.symm.trans ha
        exact Context.pending_derive
    have hprocessed := r.stats.processed_countProcessed k.kind κ
    have hproduced : (r.stats.countProcessed k.kind).produced = r.stats.produced := rfl
    simp only [hproduced, hprocessed]
    omega
  rw [apply_eq obs timed { r with work := w } hc]
  exact hderive.trans (conserves_effects (hv.derived hc _ _) hid' _)

theorem Turn.conserves (h : Turn obs timed s r s' r') (hw : r.work.Coherent)
    (hknown : ∀ id, s = .holding id → ∃ n, r.work.state.find? n = some id) : Conserves r r' := by
  cases h with
  | process hpop =>
    obtain ⟨n, hid⟩ := hknown _ rfl
    exact conserves_apply hw hid hpop
  | layDown =>
    refine conserves_of_eq rfl rfl fun κ => pendingOf_congr rfl fun x _ => ?_
    simp only [pendingAt, setActive, context?_modify]
    split
    · cases r.work.context? x.2 <;> rfl
    · rfl
  | stopped | drained | take => exact conserves_of_eq rfl rfl fun _ => rfl

end RuleRun

end Subsumption
