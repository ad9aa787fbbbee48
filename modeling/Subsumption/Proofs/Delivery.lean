import Subsumption.RuleEngine

/-! Where conclusions go. Each reaches the context of its root, which is opened if there is none. -/
namespace Subsumption

namespace Context

variable (c : Context)

/-- The context with more conclusions pending, and with its token taken if there are any. -/
def receive (ks : List Conclusion) : Context :=
  { c with active := c.active || !ks.isEmpty, pending := c.pending ++ ks }

@[simp] theorem receive_nil : c.receive [] = c := by
  simp [receive]

theorem receive_receive (ks ls : List Conclusion) :
    (c.receive ks).receive ls = c.receive (ks ++ ls) := by
  cases ks <;> simp [receive]

/-- A new context with the conclusions that it starts from. -/
def opened (o : Ontology) (root : NodeId) : Context :=
  (fresh root).receive (RuleRun.initialConclusions o root)

end Context

namespace Effect

/-- Whether the effect asks for the context of a root. -/
def addresses (n : NodeId) : Effect → Bool
  | .send root _ => root == n
  | _ => false

/-- What the effect, carried out in the context of `self`, has for the context of a root. -/
def mail (self n : NodeId) : Effect → List Conclusion
  | .own k => if n = self then [k] else []
  | .send root ks => if root = n then ks else []
  | _ => []

end Effect

namespace Workspace

variable {w w' w'' : Workspace} {n root self : NodeId} {id x : ContextId} {k : Conclusion}
  {order : List PropertyId}
  {ks : List Conclusion}

/-! ### One context -/

theorem context?_modify (f : Context → Context) :
    (w.modify id f).context? x = if x = id then (w.context? x).map f else w.context? x := by
  simp only [modify, context?, Array.getElem?_modify]
  by_cases h : x = id
  · simp [h]
  · have : id.index ≠ x.index := fun he => h (by cases id; cases x; exact congrArg _ he.symm)
    simp [h, this]

theorem context?_of_pop (h : w.pop? id = some (k, w')) : w' = w.modify id (·.popped) ∧
    ∃ c rest, w.context? id = some c ∧ c.pending = k :: rest := by
  unfold pop? at h
  split at h <;> cases h
  obtain ⟨c, hc, hk⟩ := Option.bind_eq_some_iff.mp ‹_›
  obtain ⟨rest, hrest⟩ := List.head?_eq_some_iff.mp hk
  exact ⟨rfl, c, rest, hc, hrest⟩

theorem active_of_take (h : w.takeActive? = some (id, w')) : ∃ rest, w.state.active = id :: rest ∧
    w' = { w with state := { w.state with active := rest } } := by
  unfold takeActive? at h
  split at h <;> cases h
  exact ⟨_, ‹_›, rfl⟩

theorem context?_produce :
    (w.produce id k).context? x =
      if x = id then (w.context? x).map (·.receive [k]) else w.context? x := by
  unfold produce
  cases h : w.context? id with
  | none =>
    have hactive : (w.modify id (·.push k)).isActive id = true := by
      simp [isActive, context?_modify, h]
    simp only [hactive, if_true, context?_modify]
    by_cases hx : x = id
    · subst hx
      simp [h]
    · simp [hx]
  | some c =>
    have hactive : (w.modify id (·.push k)).isActive id = c.active := by
      simp [isActive, context?_modify, h, Context.push]
    dsimp only
    rw [hactive]
    cases ha : c.active with
    | true =>
      simp only [if_true, context?_modify]
      by_cases hx : x = id
      · subst hx
        simp [h, Context.push, Context.receive, ha]
      · simp [hx]
    | false =>
      have henqueue : ∀ v : Workspace, (v.enqueue id).context? x = v.context? x := fun _ => rfl
      simp only [Bool.false_eq_true, if_false, henqueue, setActive, context?_modify]
      by_cases hx : x = id
      · subst hx
        simp [h, Context.push, Context.receive]
      · simp [hx]

/-- `w'` is `w` after some conclusions were queued in one context. -/
structure Receives (w w' : Workspace) (id : ContextId) (ks : List Conclusion) : Prop where
  ontology : w'.state.ontology = w.state.ontology
  contexts : w'.state.contexts = w.state.contexts
  unsaturated : w'.state.unsaturated = w.state.unsaturated
  queued : ∀ x ∈ w'.state.active, x ∈ w.state.active ∨ x = id
  context? : ∀ x, w'.context? x =
    if x = id then (w.context? x).map (·.receive ks) else w.context? x

theorem receives_produce : Receives w (w.produce id k) id [k] := by
  refine ⟨?_, ?_, ?_, ?queued, fun _ => context?_produce⟩
  case queued =>
    intro x hx
    unfold produce at hx
    dsimp only at hx
    split at hx
    · exact Or.inl hx
    · rcases List.mem_append.mp hx with hx | hx
      · exact Or.inl hx
      · exact Or.inr (List.mem_singleton.mp hx)
  all_goals
    unfold produce
    dsimp only
    split <;> rfl

theorem receives_produceAll {σ : Type} (r : RuleRun σ) (id : ContextId) (ks : List Conclusion) :
    Receives r.work (r.produceAll id ks).work id ks := by
  induction ks generalizing r with
  | nil =>
    refine ⟨rfl, rfl, rfl, fun x hx => Or.inl hx, ?_⟩
    intro x
    simp [RuleRun.produceAll]
  | cons k rest ih =>
    have hfirst : Receives r.work (r.produce id k).work id [k] := receives_produce
    have hrest := ih (r.produce id k)
    refine ⟨hrest.ontology.trans hfirst.ontology, hrest.contexts.trans hfirst.contexts,
      hrest.unsaturated.trans hfirst.unsaturated, ?_, ?_⟩
    · intro x hx
      rcases hrest.queued x hx with hx | hx
      · exact hfirst.queued x hx
      · exact Or.inr hx
    · intro x
      refine (hrest.context? x).trans ?_
      rw [hfirst.context? x]
      by_cases hx : x = id
      · simp [hx, Function.comp_def, Context.receive_receive]
      · simp [hx]

/-! ### By roots -/

/-- Every root has one context at most, which knows its root. -/
structure Coherent (w : Workspace) : Prop where
  distinct : (w.state.contexts.map Prod.fst).Nodup
  rooted : ∀ n id, w.state.find? n = some id → ∃ c, w.context? id = some c ∧ c.root = n

theorem contextOf?_eq (h : w.state.find? n = some id) : w.contextOf? n = w.context? id := by
  simp [contextOf?, h]

/-- A change of one context that leaves its root alone. -/
theorem Coherent.modify (hw : w.Coherent) (id : ContextId) {f : Context → Context}
    (hf : ∀ c, w.context? id = some c → (f c).root = c.root) : (w.modify id f).Coherent := by
  refine ⟨hw.distinct, ?_⟩
  intro n x hx
  obtain ⟨c, hc, hn⟩ := hw.rooted n x hx
  rw [context?_modify]
  split
  · rename_i he
    subst he
    exact ⟨f c, by rw [hc]; rfl, (hf c hc).trans hn⟩
  · exact ⟨c, hc, hn⟩

theorem Coherent.find?_inj (hw : w.Coherent) (h : w.state.find? n = some id)
    (h' : w.state.find? root = some id) : n = root := by
  obtain ⟨c, hc, hn⟩ := hw.rooted n id h
  obtain ⟨c', hc', hr⟩ := hw.rooted root id h'
  cases hc.symm.trans hc'
  exact hn.symm.trans hr

theorem Coherent.place_eq_iff (hw : w.Coherent) (h : w.state.find? n = some x)
    (h' : w.state.find? root = some id) : x = id ↔ n = root := by
  constructor
  · rintro rfl
    exact hw.find?_inj h h'
  · rintro rfl
    exact Option.some.inj (h.symm.trans h')

theorem Coherent.find?_of_contextOf? (hw : w.Coherent) {c : Context}
    (h : w.contextOf? n = some c) : (∃ id, w.state.find? n = some id) ∧ c.root = n := by
  obtain ⟨id, hid, hc⟩ := Option.bind_eq_some_iff.mp h
  obtain ⟨c', hc', hn⟩ := hw.rooted n id hid
  cases hc.symm.trans hc'
  exact ⟨⟨id, hid⟩, hn⟩

theorem Coherent.contextOf?_eq_none (hw : w.Coherent) :
    w.contextOf? n = none ↔ w.state.find? n = none := by
  cases h : w.state.find? n with
  | none => simp [contextOf?, h]
  | some id =>
    obtain ⟨c, hc, _⟩ := hw.rooted n id h
    simp [contextOf?, h, hc]

/-- `w'` is `w` after the roots that are addressed got contexts, if they had none, and every context
got its mail. -/
structure Posts (w w' : Workspace) (addressed : NodeId → Bool) (mail : NodeId → List Conclusion) :
    Prop where
  ontology : w'.state.ontology = w.state.ontology
  coherent : w'.Coherent
  find? : ∀ n id, w.state.find? n = some id → w'.state.find? n = some id
  contextOf? : ∀ n, w'.contextOf? n =
    ((w.contextOf? n).or (if addressed n then some (.opened w.state.ontology n) else none)).map
      (·.receive (mail n))
  delivered : ∀ n, w.contextOf? n = none → addressed n = false → mail n = []
  unsaturated : ∀ id, id ∈ w.state.unsaturated → id ∈ w'.state.unsaturated
  enlisted : ∀ n id, w.state.find? n = none → w'.state.find? n = some id →
    id ∈ w'.state.unsaturated
  queued : ∀ id ∈ w'.state.active, id ∈ w.state.active ∨ ∃ n, w'.state.find? n = some id

theorem Posts.refl (hw : w.Coherent) : Posts w w (fun _ => false) (fun _ => []) := by
  refine ⟨rfl, hw, fun _ _ h => h, ?_, fun _ _ _ => rfl, fun _ h => h, ?_, fun _ h => Or.inl h⟩
  · intro n
    simp
  · intro n id h h'
    simp [h] at h'

theorem Posts.trans {a a' : NodeId → Bool} {m m' : NodeId → List Conclusion} (h : Posts w w' a m)
    (h' : Posts w' w'' a' m') : Posts w w'' (fun n => a n || a' n) (fun n => m n ++ m' n) := by
  refine ⟨h'.ontology.trans h.ontology, h'.coherent,
    fun n id hid => h'.find? n id (h.find? n id hid),
    ?_, ?_, fun id hid => h'.unsaturated id (h.unsaturated id hid), ?_, ?_⟩
  · intro n
    rw [h'.contextOf?, h.contextOf?, h.ontology]
    cases hc : w.contextOf? n with
    | some c => simp [Context.receive_receive]
    | none =>
      cases ha : a n with
      | true => simp [Context.receive_receive]
      | false => simp [h.delivered n hc ha]
  · intro n hn ha
    obtain ⟨ha, ha'⟩ := Bool.or_eq_false_iff.mp ha
    have hn' : w'.contextOf? n = none := by simp [h.contextOf?, hn, ha]
    rw [h.delivered n hn ha, h'.delivered n hn' ha']
    rfl
  · intro n id hn hid
    cases hf : w'.state.find? n with
    | none => exact h'.enlisted n id hf hid
    | some id' =>
      cases (h'.find? n id' hf).symm.trans hid
      exact h'.unsaturated _ (h.enlisted n _ hn hf)
  · intro id hid
    rcases h'.queued id hid with hid | hid
    · exact (h.queued id hid).imp_right fun ⟨n, hn⟩ => ⟨n, h'.find? n id hn⟩
    · exact Or.inr hid

theorem Receives.posts (h : Receives w w' id ks) (hw : w.Coherent)
    (hid : w.state.find? self = some id) :
    Posts w w' (fun _ => false) (fun n => if n = self then ks else []) := by
  have hfind : ∀ n, w'.state.find? n = w.state.find? n := fun n => by simp [State.find?, h.contexts]
  obtain ⟨c, hc, hself⟩ := hw.rooted self id hid
  refine ⟨h.ontology, ⟨?_, ?_⟩, ?_, ?_, ?_, ?_, ?_, ?_⟩
  · rw [h.contexts]
    exact hw.distinct
  · intro n x hx
    rw [hfind] at hx
    obtain ⟨c', hc', hn⟩ := hw.rooted n x hx
    rw [h.context?]
    split
    · exact ⟨c'.receive ks, by simp [hc'], hn⟩
    · exact ⟨c', hc', hn⟩
  · intro n x hx
    rw [hfind, hx]
  · intro n
    simp only [Workspace.contextOf?, hfind]
    cases hn : w.state.find? n with
    | none => simp
    | some x =>
      simp only [Option.bind_some, h.context?, hw.place_eq_iff hn hid]
      obtain ⟨c', hc', _⟩ := hw.rooted n x hn
      split <;> simp [hc']
  · intro n hn _
    split
    · rename_i he
      subst he
      simp [contextOf?_eq hid, hc] at hn
    · rfl
  · rw [h.unsaturated]
    exact fun _ hx => hx
  · intro n x hn hx
    rw [hfind, hn] at hx
    cases hx
  · intro x hx
    rcases h.queued x hx with hx | rfl
    · exact Or.inl hx
    · exact Or.inr ⟨self, by rw [hfind, hid]⟩

/-! ### Effects -/

variable {σ : Type} (obs : RuleObserver σ) (timed : Bool) (r : RuleRun σ)

/-- The place of the next context to be created. -/
def nextId (w : Workspace) : ContextId := ⟨w.store.size⟩

theorem context?_nextId : w.context? w.nextId = none := by
  simp [context?, nextId]

theorem context?_insertContext :
    (w.insertContext root).2.context? x =
      if x = w.nextId then some (.fresh root) else w.context? x := by
  simp only [insertContext, context?, nextId, Array.getElem?_push]
  by_cases h : x.index = w.store.size
  · simp [show x = ⟨w.store.size⟩ by cases x; cases h; rfl]
  · have : x ≠ ⟨w.store.size⟩ := fun he => h (by rw [he])
    simp [h, this]

/-- `w'` is `w` with a context for a root that had none. -/
structure Opens (w w' : Workspace) (root : NodeId) (new : ContextId) : Prop where
  absent : w.state.find? root = none
  unused : w.context? new = none
  ontology : w'.state.ontology = w.state.ontology
  contexts : w'.state.contexts = w.state.contexts ++ [(root, new)]
  unsaturated : w'.state.unsaturated = w.state.unsaturated ++ [new]
  queued : ∀ x ∈ w'.state.active, x ∈ w.state.active ∨ x = new
  context? : ∀ x, w'.context? x =
    if x = new then some (.opened w.state.ontology root) else w.context? x

/-- A new context gets what it starts from. -/
theorem opens_of_receives (hroot : w.state.find? root = none)
    (h : Receives ((w.insertContext root).2.enlist w.nextId) w' w.nextId
      (RuleRun.initialConclusions w.state.ontology root)) : Opens w w' root w.nextId := by
  refine ⟨hroot, w.context?_nextId, h.ontology, h.contexts, h.unsaturated, h.queued, ?_⟩
  intro x
  rw [h.context?]
  change (if x = w.nextId then ((w.insertContext root).2.context? x).map _ else
    (w.insertContext root).2.context? x) = _
  rw [context?_insertContext]
  split <;> simp [Context.opened]

theorem Opens.find? (h : Opens w w' root id) : w'.state.find? n =
    (w.state.find? n).or (if n = root then some id else none) := by
  simp only [State.find?, h.contexts, List.lookup_append, List.lookup_cons, List.lookup_nil]
  by_cases hn : n = root
  · simp [hn]
  · have hne : (n == root) = false := by simpa using hn
    simp [hne, hn]

theorem Opens.find?_root (h : Opens w w' root id) : w'.state.find? root = some id := by
  simp [h.find?, h.absent]

/-- Old contexts stay where they were. -/
theorem Opens.context?_old (h : Opens w w' root id) {c : Context} (hc : w.context? x = some c) :
    w'.context? x = some c := by
  have hne : x ≠ id := by
    rintro rfl
    rw [h.unused] at hc
    cases hc
  rw [h.context?, if_neg hne, hc]

theorem Opens.coherent (h : Opens w w' root id) (hw : w.Coherent) : w'.Coherent := by
  refine ⟨?_, ?_⟩
  · rw [h.contexts, List.map_append, List.nodup_append]
    refine ⟨hw.distinct, by simp, ?_⟩
    rintro n hn m hm rfl
    obtain ⟨⟨a, y⟩, hm', rfl⟩ := List.mem_map.mp hn
    have ha : a = root := by simpa using hm
    have hlook : w.state.contexts.lookup a = none := ha ▸ h.absent
    have := List.lookup_eq_none_iff.mp hlook _ hm'
    simp at this
  · intro n y hy
    rw [h.find?] at hy
    cases hn : w.state.find? n with
    | some z =>
      rw [hn, Option.some_or] at hy
      cases hy
      obtain ⟨c, hc, hroot⟩ := hw.rooted n y hn
      exact ⟨c, h.context?_old hc, hroot⟩
    | none =>
      rw [hn, Option.none_or] at hy
      split at hy
      · rename_i hnr
        cases hy
        exact ⟨_, by rw [h.context?, if_pos rfl], hnr.symm⟩
      · cases hy

theorem Opens.contextOf? (h : Opens w w' root id) (hw : w.Coherent) : w'.contextOf? n =
    (w.contextOf? n).or
      (if root == n then some (.opened w.state.ontology n) else none) := by
  cases hn : w.state.find? n with
  | some z =>
    obtain ⟨c, hc, _⟩ := hw.rooted n z hn
    have hn' : w'.state.find? n = some z := by rw [h.find?, hn, Option.some_or]
    rw [contextOf?_eq hn', contextOf?_eq hn, h.context?_old hc, hc, Option.some_or]
  | none =>
    rw [(hw.contextOf?_eq_none).mpr hn, Option.none_or]
    by_cases hnr : root = n
    · subst hnr
      rw [contextOf?_eq h.find?_root, h.context?, if_pos rfl]
      simp
    · have hn' : w'.state.find? n = none := by simp [h.find?, hn, Ne.symm hnr]
      simp [Workspace.contextOf?, hn', hnr]

theorem Opens.posts (h : Opens w w' root id) (hw : w.Coherent) :
    Posts w w' (root == ·) (fun _ => []) := by
  refine ⟨h.ontology, h.coherent hw, ?_, ?_, fun _ _ _ => rfl, ?_, ?_, ?_⟩
  · intro n y hy
    rw [h.find?, hy, Option.some_or]
  · intro n
    rw [h.contextOf? hw]
    simp
  · intro y hy
    rw [h.unsaturated]
    exact List.mem_append_left _ hy
  · intro n y hn hy
    rw [h.find?, hn, Option.none_or] at hy
    split at hy
    · cases hy
      rw [h.unsaturated]
      exact List.mem_append_right _ (List.mem_singleton.mpr rfl)
    · cases hy
  · intro y hy
    rcases h.queued y hy with hy | rfl
    · exact Or.inl hy
    · exact Or.inr ⟨root, h.find?_root⟩

theorem obtain_of_some (hf : r.work.state.find? root = some id) : r.obtain obs root = (id, r) := by
  simp [RuleRun.obtain, Workspace.obtain, hf]

/-- A new context gets what it starts from before notice of it is given. -/
theorem obtain_of_none (hf : r.work.state.find? root = none) : r.obtain obs root =
    (r.work.nextId, (({ r with
      work := (r.work.insertContext root).2.enlist r.work.nextId } : RuleRun σ).produceAll
        r.work.nextId (RuleRun.initialConclusions r.work.state.ontology root)).notifyCreated obs
          r.work.nextId) := by
  simp only [RuleRun.obtain, Workspace.obtain, hf]
  rfl

theorem work_notifyCreated (id : ContextId) : (r.notifyCreated obs id).work = r.work := by
  unfold RuleRun.notifyCreated
  split <;> rfl

theorem stats_notifyCreated (id : ContextId) : (r.notifyCreated obs id).stats = r.stats := by
  unfold RuleRun.notifyCreated
  split <;> rfl

theorem posts_obtain (hw : r.work.Coherent) (root : NodeId) :
    Posts r.work (r.obtain obs root).2.work (root == ·) (fun _ => []) ∧
      (r.obtain obs root).2.work.state.find? root = some (r.obtain obs root).1 := by
  cases hf : r.work.state.find? root with
  | some y =>
    rw [obtain_of_some obs r hf]
    obtain ⟨c, hc, _⟩ := hw.rooted root y hf
    refine ⟨⟨rfl, hw, fun _ _ h => h, ?_, fun _ _ _ => rfl, fun _ h => h,
      ?_, fun _ h => Or.inl h⟩, hf⟩
    · intro n
      by_cases hn : root = n
      · subst hn
        simp [contextOf?_eq hf, hc]
      · simp [hn]
    · intro n z hn hz
      rw [hn] at hz
      cases hz
  | none =>
    simp only [obtain_of_none obs r hf, work_notifyCreated]
    have hopens := opens_of_receives hf (receives_produceAll { r with work := _ } _ _)
    exact ⟨hopens.posts hw, hopens.find?_root⟩

theorem Coherent.report (hw : w.Coherent) (e : Event) : (w.report e).Coherent :=
  ⟨hw.distinct, hw.rooted⟩

theorem posts_perform (hw : r.work.Coherent) (hid : r.work.state.find? self = some id)
    (e : Effect) :
    Posts r.work (r.perform obs timed id e).work (e.addresses ·) (e.mail self ·) := by
  cases e with
  | own k => exact receives_produce.posts hw hid
  | send root ks =>
    obtain ⟨ho, hroot⟩ := posts_obtain obs r hw root
    have hr := (receives_produceAll (r.obtain obs root).2 _ ks).posts ho.coherent hroot
    simpa [Effect.addresses, Effect.mail, eq_comm, RuleRun.perform] using ho.trans hr
  | decomposed => exact .refl hw
  | applied kind => exact .refl hw
  | refuted root =>
    have h := Posts.refl hw
    exact ⟨h.ontology, hw.report _, h.find?, h.contextOf?, h.delivered, h.unsaturated, h.enlisted,
      h.queued⟩

theorem posts_effects (hw : r.work.Coherent) (hid : r.work.state.find? self = some id)
    (es : List Effect) :
    Posts r.work (es.foldl (RuleRun.perform obs timed id) r).work
      (fun n => es.any (·.addresses n)) (fun n => es.flatMap (·.mail self n)) := by
  induction es generalizing r with
  | nil => exact .refl hw
  | cons e rest ih =>
    have h := posts_perform obs timed r hw hid e
    exact h.trans (ih _ h.coherent (h.find? self id hid))

theorem root_derive (c : Context) (o : Ontology) : (c.derive o order k).1.root = c.root := by
  unfold Context.derive Context.deriveInconsistent Context.deriveConsistent
  split <;> split <;> (try split) <;> rfl

theorem saturated_derive (c : Context) (o : Ontology) :
    (c.derive o order k).1.saturated = c.saturated := by
  unfold Context.derive Context.deriveInconsistent Context.deriveConsistent
  split <;> split <;> (try split) <;> rfl

/-- Processing puts what is derived in the place of the context, then carries out the effects. -/
theorem apply_eq {c : Context} (hc : r.work.context? id = some c) : r.apply obs timed id k =
    (c.derive r.work.state.ontology (r.work.layout id) k).2.foldl (RuleRun.perform obs timed id)
      ⟨r.work.modify id fun _ => (c.derive r.work.state.ontology (r.work.layout id) k).1,
        r.stats.countProcessed k.kind, r.env⟩ := by
  simp only [RuleRun.apply, hc]

theorem Coherent.derived (hw : w.Coherent) {c : Context} (hc : w.context? id = some c)
    (o : Ontology) (k : Conclusion) : (w.modify id fun _ => (c.derive o order k).1).Coherent := by
  refine hw.modify id fun a ha => ?_
  cases hc.symm.trans ha
  exact root_derive c o

/-- Processing replaces the context that the conclusion was taken from, and posts what follows. -/
theorem posts_apply (hw : r.work.Coherent) (hid : r.work.state.find? self = some id) {c : Context}
    (hc : r.work.context? id = some c) :
    Posts (r.work.modify id fun _ => (c.derive r.work.state.ontology (r.work.layout id) k).1)
      (r.apply obs timed id k).work
      (fun n => (c.derive r.work.state.ontology (r.work.layout id) k).2.any (·.addresses n))
      (fun n => (c.derive r.work.state.ontology (r.work.layout id) k).2.flatMap (·.mail self n)) := by
  rw [apply_eq obs timed r hc]
  exact posts_effects obs timed ⟨_, _, _⟩ (hw.derived hc _ _) hid _

/-! ### Step by step -/

/-- A property of workspaces that is kept when a conclusion is queued, and when a context is
opened. -/
structure Lasting (P : Workspace → Prop) : Prop where
  produce : ∀ w n id k, w.state.find? n = some id → P w → P (w.produce id k)
  insert : ∀ w n, w.state.find? n = none → P w → P ((w.insertContext n).2.enlist w.nextId)
  report : ∀ w e, P w → P (w.report e)

section
variable {P : Workspace → Prop}

theorem find?_produce (k : Conclusion) (n : NodeId) :
    (w.produce id k).state.find? n = w.state.find? n :=
  congrArg (List.lookup n) receives_produce.contexts

theorem Lasting.produceAll (hP : Lasting P) (hid : r.work.state.find? n = some id)
    (ks : List Conclusion) (h : P r.work) : P (r.produceAll id ks).work := by
  induction ks generalizing r with
  | nil => exact h
  | cons k rest ih =>
    refine ih (r.produce id k) ?_ (hP.produce _ n id k hid h)
    exact (find?_produce k n).trans hid

theorem find?_insertContext_self (hn : w.state.find? n = none) :
    ((w.insertContext n).2.enlist w.nextId).state.find? n = some w.nextId := by
  have hlookup : w.state.contexts.lookup n = none := hn
  simp [insertContext, enlist, State.find?, nextId, List.lookup_append, hlookup]

theorem Lasting.obtain (hP : Lasting P) (h : P r.work) (root : NodeId) :
    P (r.obtain obs root).2.work := by
  cases hf : r.work.state.find? root with
  | some y =>
    rw [obtain_of_some obs r hf]
    exact h
  | none =>
    rw [obtain_of_none obs r hf, work_notifyCreated]
    exact hP.produceAll _ (find?_insertContext_self hf) _ (hP.insert _ _ hf h)

theorem Lasting.perform (hP : Lasting P) (hw : r.work.Coherent)
    (hid : r.work.state.find? self = some id) (h : P r.work) (e : Effect) :
    P (r.perform obs timed id e).work := by
  cases e with
  | own k => exact hP.produce _ self id k hid h
  | send root ks =>
    exact hP.produceAll _ (posts_obtain obs r hw root).2 ks (hP.obtain obs r h root)
  | decomposed | applied => exact h
  | refuted root => exact hP.report _ _ h

theorem Lasting.effects (hP : Lasting P) (hw : r.work.Coherent)
    (hid : r.work.state.find? self = some id) (h : P r.work) (es : List Effect) :
    P (es.foldl (RuleRun.perform obs timed id) r).work := by
  induction es generalizing r with
  | nil => exact h
  | cons e rest ih =>
    have hp := posts_perform obs timed r hw hid e
    exact ih _ hp.coherent (hp.find? self id hid) (hP.perform obs timed r hw hid h e)

/-- Processing replaces one context by what is derived; the rest is queued and opened. -/
theorem Lasting.apply (hP : Lasting P) (hw : r.work.Coherent)
    (hid : r.work.state.find? self = some id) {c : Context} (hc : r.work.context? id = some c)
    {k : Conclusion}
    (h : P (r.work.modify id fun _ => (c.derive r.work.state.ontology (r.work.layout id) k).1)) :
    P (r.apply obs timed id k).work := by
  rw [apply_eq obs timed r hc]
  exact hP.effects obs timed ⟨_, _, _⟩ (hw.derived hc _ _) hid h _

end

end Workspace

end Subsumption
