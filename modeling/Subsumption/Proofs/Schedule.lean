import Subsumption.Proofs.Delivery

/-! Schedules: in what order conclusions are processed is left open. -/
namespace Subsumption

namespace Workspace

/-- One step of a schedule. The oldest conclusion of any context is processed, under any
surroundings, or tokens, queue, marks and reports change, which no rule looks at. -/
inductive Step : Workspace → Workspace → Prop
  | process {w v root id k} {σ : Type} (obs : RuleObserver σ) (timed : Bool)
    (stats : RuleStatistics) (env : σ) (hroot : w.state.find? root = some id)
    (hpop : w.pop? id = some (k, v)) :
    Step w (RuleRun.apply obs timed ⟨v, stats, env⟩ id k).work
  | token {w} (id : ContextId) (b : Bool) : Step w (w.setActive id b)
  | queue {w} (ids : List ContextId) : Step w { w with state := { w.state with active := ids } }
  | mark {w} : Step w w.markNext.2
  | report {w} (e : Event) : Step w (w.report e)

/-- A run, with the roots that were submitted on the way, the latest first. -/
inductive Runs (w : Workspace) : List NodeId → Workspace → Prop
  | start : Runs w [] w
  | submit {roots v} {σ : Type} (obs : RuleObserver σ) (stats : RuleStatistics) (env : σ)
    (h : Runs w roots v) (root : NodeId) (hr : root.index < v.state.ontology.size) :
    Runs w (root :: roots) (RuleRun.submit obs ⟨v, stats, env⟩ root).2.work
  | step {roots v v'} (h : Runs w roots v) (hs : Step v v') : Runs w roots v'

/-- No conclusion is pending. -/
def Quiet (w : Workspace) : Prop := ∀ n c, w.contextOf? n = some c → c.pending = []

/-- Every context is marked saturated or waits for it. -/
def Listed (w : Workspace) : Prop :=
  ∀ n id c, w.state.find? n = some id → w.context? id = some c →
    c.saturated = true ∨ id ∈ w.state.unsaturated

end Workspace

/-- The contexts of a state by their roots. -/
abbrev Board := NodeId → Option Context

namespace Board

/-- What a step of a schedule, or a submission, does to the contexts. -/
inductive Move (o : Ontology) (b b' : Board) : Prop
  | opens (root : NodeId) (hr : root.index < o.size)
    (h : ∀ n, b' n = (b n).or (if root = n then some (.opened o n) else none))
  | marks (h : ∀ n, ∃ s a, b' n = (b n).map ({ · with saturated := s, active := a }))
  | processes {c : Context} {k rest} {order : List PropertyId} (hc : b c.root = some c)
    (hp : c.pending = k :: rest)
    (h : ∀ n, b' n =
      ((if n = c.root then some (({ c with pending := rest } : Context).derive o order k).1
        else b n).or
        (if (({ c with pending := rest } : Context).derive o order k).2.any (·.addresses n) then
          some (.opened o n) else none)).map
        (·.receive ((({ c with pending := rest } : Context).derive o order k).2.flatMap
          (·.mail c.root n))))

/-- The board after the context `c` has processed `k`, with `rest` left in its queue. -/
def processed (o : Ontology) (b : Board) (c : Context) (order : List PropertyId) (k : Conclusion)
    (rest : List Conclusion) : Board := fun n =>
  ((if n = c.root then some (({ c with pending := rest } : Context).derive o order k).1 else b n).or
    (if (({ c with pending := rest } : Context).derive o order k).2.any (·.addresses n) then
      some (.opened o n) else none)).map
    (·.receive
      ((({ c with pending := rest } : Context).derive o order k).2.flatMap (·.mail c.root n)))

end Board

namespace Workspace

variable {w v : Workspace} {n root : NodeId} {id : ContextId} {k : Conclusion}
  {roots : List NodeId}

/-! ### Steps as moves -/

theorem state_modify (f : Context → Context) : (w.modify id f).state = w.state := rfl

theorem contextOf?_modify (hw : w.Coherent) (hid : w.state.find? root = some id)
    (f : Context → Context) :
    (w.modify id f).contextOf? n = if n = root then (w.contextOf? n).map f else w.contextOf? n := by
  have hfind : (w.modify id f).state.find? n = w.state.find? n := rfl
  simp only [contextOf?, hfind]
  cases hn : w.state.find? n with
  | none => simp
  | some x =>
    simp only [Option.bind_some, context?_modify, hw.place_eq_iff hn hid]

/-- Marking a context, whatever its place. -/
theorem marks_modify (id : ContextId) (s a : Context → Bool) (n : NodeId) :
    ∃ s' a', (w.modify id fun c => { c with saturated := s c, active := a c }).contextOf? n =
      (w.contextOf? n).map ({ · with saturated := s', active := a' }) := by
  have hfind : ∀ f, (w.modify id f).state.find? n = w.state.find? n := fun _ => rfl
  simp only [contextOf?, hfind]
  cases hn : w.state.find? n with
  | none => exact ⟨true, true, rfl⟩
  | some x =>
    simp only [Option.bind_some, context?_modify]
    cases hc : w.context? x with
    | none => exact ⟨true, true, by simp⟩
    | some c =>
      split
      · exact ⟨s c, a c, rfl⟩
      · exact ⟨c.saturated, c.active, rfl⟩

/-- Taking a conclusion changes nothing but the queue that it comes from. -/
theorem popped (hw : w.Coherent) (hroot : w.state.find? root = some id)
    (hpop : w.pop? id = some (k, v)) :
    ∃ c rest, w.contextOf? root = some c ∧ c.root = root ∧ c.pending = k :: rest ∧
      v.Coherent ∧ v.state = w.state ∧ v.context? id = some { c with pending := rest } ∧
      ∀ n, v.contextOf? n =
        if n = root then some { c with pending := rest } else w.contextOf? n := by
  obtain ⟨rfl, c, rest, hc, hrest⟩ := context?_of_pop hpop
  obtain ⟨c', hc', hn⟩ := hw.rooted root id hroot
  cases hc.symm.trans hc'
  have hpopped : c.popped = { c with pending := rest } := by simp [Context.popped, hrest]
  have hboard : w.contextOf? root = some c := by rw [contextOf?_eq hroot, hc]
  refine ⟨c, rest, hboard, hn, hrest, hw.modify id fun _ _ => rfl, rfl, ?_, ?_⟩
  · rw [context?_modify, if_pos rfl, hc, Option.map_some, hpopped]
  · intro n
    rw [contextOf?_modify hw hroot]
    by_cases hn : n = root
    · rw [if_pos hn, if_pos hn, hn, hboard, Option.map_some, hpopped]
    · rw [if_neg hn, if_neg hn]

/-- Processing a conclusion changes its context, and posts what follows. -/
theorem contextOf?_process (hw : w.Coherent) {σ : Type} (obs : RuleObserver σ) (timed : Bool)
    (stats : RuleStatistics) (env : σ) (hroot : w.state.find? root = some id)
    (hpop : w.pop? id = some (k, v)) :
    ∃ c rest, w.contextOf? c.root = some c ∧ c.pending = k :: rest ∧ v.state = w.state ∧
      v.context? id = some { c with pending := rest } ∧
      ∀ n, (RuleRun.apply obs timed ⟨v, stats, env⟩ id k).work.contextOf? n =
        Board.processed w.state.ontology w.contextOf? c (v.layout id) k rest n := by
  obtain ⟨c, rest, hboard, rfl, hp, hv, hstate, hc, hrest⟩ := popped hw hroot hpop
  have hroot' : v.state.find? c.root = some id := by rw [hstate, hroot]
  have h := posts_apply obs timed ⟨v, stats, env⟩ hv hroot' hc (k := k)
  simp only [hstate] at h
  refine ⟨c, rest, hboard, hp, hstate, hc, ?_⟩
  intro n
  rw [h.contextOf?, contextOf?_modify hv hroot', hrest, state_modify, hstate, Board.processed]
  by_cases hn : n = c.root
  · simp only [hn, if_true, Option.map_some]
  · simp only [hn, if_false]

theorem move_process (hw : w.Coherent) {σ : Type} (obs : RuleObserver σ) (timed : Bool)
    (stats : RuleStatistics) (env : σ) (hroot : w.state.find? root = some id)
    (hpop : w.pop? id = some (k, v)) :
    Board.Move w.state.ontology w.contextOf?
      (RuleRun.apply obs timed ⟨v, stats, env⟩ id k).work.contextOf? := by
  obtain ⟨c, rest, hboard, hp, _, _, hafter⟩ := contextOf?_process hw obs timed stats env hroot hpop
  exact .processes hboard hp hafter

/-- Keeping all marks is a way of marking. -/
theorem marks_same (w : Workspace) (n : NodeId) :
    ∃ s a, w.contextOf? n = (w.contextOf? n).map ({ · with saturated := s, active := a }) := by
  cases hc : w.contextOf? n with
  | none => exact ⟨true, true, rfl⟩
  | some c => exact ⟨c.saturated, c.active, rfl⟩

theorem marks_mark (n : NodeId) : ∃ s a, w.markNext.2.contextOf? n =
    (w.contextOf? n).map ({ · with saturated := s, active := a }) := by
  unfold markNext
  split
  · exact marks_same w n
  · rename_i id rest _
    dsimp only [markSaturated]
    split
    · split
      · exact marks_same w n
      · exact marks_modify (w := w) id (fun _ => true) (·.active) n
    · exact marks_same w n

theorem move_step (hw : w.Coherent) (h : Step w v) :
    Board.Move w.state.ontology w.contextOf? v.contextOf? := by
  cases h with
  | process obs timed stats env hroot hpop => exact move_process hw obs timed stats env hroot hpop
  | token id b => exact .marks (marks_modify id (·.saturated) fun _ => b)
  | queue | report => exact .marks (marks_same w)
  | mark => exact .marks marks_mark

theorem contextOf?_submit (hw : w.Coherent) {σ : Type} (obs : RuleObserver σ)
    (stats : RuleStatistics) (env : σ) (root n : NodeId) :
    (RuleRun.submit obs ⟨w, stats, env⟩ root).2.work.contextOf? n =
      (w.contextOf? n).or (if root = n then some (.opened w.state.ontology n) else none) := by
  refine ((posts_obtain obs ⟨w, stats, env⟩ hw root).1.contextOf? n).trans ?_
  simp [beq_iff_eq]

theorem move_submit (hw : w.Coherent) {σ : Type} (obs : RuleObserver σ) (stats : RuleStatistics)
    (env : σ) (hr : root.index < w.state.ontology.size) :
    Board.Move w.state.ontology w.contextOf?
      (RuleRun.submit obs ⟨w, stats, env⟩ root).2.work.contextOf? :=
  .opens root hr (contextOf?_submit hw obs stats env root)

/-! ### What every run keeps -/

/-- What steps keep of the bookkeeping of a workspace. -/
structure Keeps (w v : Workspace) : Prop where
  coherent : v.Coherent
  ontology : v.state.ontology = w.state.ontology
  find? : ∀ n id, w.state.find? n = some id → v.state.find? n = some id
  listed : w.Listed → v.Listed

theorem Keeps.refl (hw : w.Coherent) : Keeps w w := ⟨hw, rfl, fun _ _ h => h, fun h => h⟩

theorem Keeps.trans {v' : Workspace} (h : Keeps w v) (h' : Keeps v v') : Keeps w v' :=
  ⟨h'.coherent, h'.ontology.trans h.ontology, fun n x hx => h'.find? n x (h.find? n x hx),
    fun hl => h'.listed (h.listed hl)⟩

/-- Contexts that are posted to keep their marks, and new ones are listed. -/
theorem Posts.keeps {a : NodeId → Bool} {m : NodeId → List Conclusion} (hw : w.Coherent)
    (h : Posts w v a m) : Keeps w v := by
  refine ⟨h.coherent, h.ontology, h.find?, ?_⟩
  intro hl n x c hx hc
  cases hn : w.state.find? n with
  | none => exact Or.inr (h.enlisted n x hn hx)
  | some y =>
    cases (h.find? n y hn).symm.trans hx
    obtain ⟨c₀, hc₀, _⟩ := hw.rooted n x hn
    have hsame := h.contextOf? n
    rw [contextOf?_eq hx, contextOf?_eq hn, hc, hc₀] at hsame
    simp only [Option.some_or, Option.map_some, Option.some.injEq] at hsame
    subst hsame
    exact (hl n x c₀ hn hc₀).imp_right (h.unsaturated x)

/-- A change of one context that leaves its root alone and takes no mark of saturation away. -/
theorem keeps_modify (hw : w.Coherent) (id : ContextId) {f : Context → Context}
    (hf : ∀ c, (f c).root = c.root) (hs : ∀ c, c.saturated = true → (f c).saturated = true) :
    Keeps w (w.modify id f) := by
  refine ⟨hw.modify id fun c _ => hf c, rfl, fun _ _ h => h, ?_⟩
  intro hl n x c hx hc
  rw [context?_modify] at hc
  split at hc
  · obtain ⟨c₀, hc₀, rfl⟩ := Option.map_eq_some_iff.mp hc
    exact (hl n x c₀ hx hc₀).imp_left (hs c₀)
  · exact hl n x c hx hc

theorem keeps_process (hw : w.Coherent) {σ : Type} (obs : RuleObserver σ) (timed : Bool)
    (stats : RuleStatistics) (env : σ) (hroot : w.state.find? root = some id)
    (hpop : w.pop? id = some (k, v)) :
    Keeps w (RuleRun.apply obs timed ⟨v, stats, env⟩ id k).work := by
  have hv : Keeps w v := by
    obtain ⟨rfl, _⟩ := context?_of_pop hpop
    exact keeps_modify hw id (fun _ => rfl) (fun _ h => h)
  obtain ⟨c, rest, _, rfl, _, _, hstate, hc, _⟩ := popped hw hroot hpop
  have hroot' : v.state.find? c.root = some id := by rw [hstate, hroot]
  have hp := posts_apply obs timed ⟨v, stats, env⟩ hv.coherent hroot' hc (k := k)
  have hm : Keeps v (v.modify id fun _ =>
      (({ c with pending := rest } : Context).derive v.state.ontology (v.layout id) k).1) := by
    refine ⟨hv.coherent.modify id ?_, rfl, fun _ _ h => h, ?_⟩
    · intro a ha
      cases hc.symm.trans ha
      exact root_derive _ _
    · intro hl n x a hx ha
      rw [context?_modify] at ha
      split at ha
      · rename_i he
        subst he
        rw [hc] at ha
        cases ha
        rw [saturated_derive]
        exact hl n x _ hx hc
      · exact hl n x a hx ha
  exact (hv.trans hm).trans (hp.keeps hm.coherent)

theorem keeps_mark (hw : w.Coherent) : Keeps w w.markNext.2 := by
  unfold markNext
  split
  · exact ⟨⟨hw.distinct, hw.rooted⟩, rfl, fun _ _ h => h, fun h => h⟩
  · rename_i id rest hu
    have hrest : ∀ x, x ≠ id → x ∈ w.state.unsaturated → x ∈ rest := by
      intro x hx hm
      rw [hu] at hm
      exact (List.mem_cons.mp hm).resolve_left hx
    dsimp only [markSaturated]
    split
    · rename_i c hc
      have hc : w.context? id = some c := hc
      split
      · refine ⟨⟨hw.distinct, hw.rooted⟩, rfl, fun _ _ h => h, ?_⟩
        intro hl n x a hx ha
        by_cases he : x = id
        · subst he
          cases hc.symm.trans ha
          exact Or.inl ‹_›
        · exact (hl n x a hx ha).imp_right (hrest x he)
      · have hm := hw.modify id (f := ({ · with saturated := true })) fun _ _ => rfl
        refine ⟨⟨hm.distinct, hm.rooted⟩, rfl, fun _ _ h => h, ?_⟩
        intro hl n x a hx ha
        by_cases he : x = id
        · subst he
          left
          have : (w.modify x ({ · with saturated := true })).context? x = some a := ha
          rw [context?_modify, if_pos rfl, hc] at this
          cases this
          rfl
        · have : (w.modify id ({ · with saturated := true })).context? x = some a := ha
          rw [context?_modify, if_neg he] at this
          exact (hl n x a hx this).imp_right (hrest x he)
    · rename_i hc
      have hc : w.context? id = none := hc
      refine ⟨⟨hw.distinct, hw.rooted⟩, rfl, fun _ _ h => h, ?_⟩
      intro hl n x a hx ha
      by_cases he : x = id
      · subst he
        cases hc.symm.trans ha
      · exact (hl n x a hx ha).imp_right (hrest x he)

theorem keeps_step (hw : w.Coherent) (h : Step w v) : Keeps w v := by
  cases h with
  | process obs timed stats env hroot hpop =>
    exact keeps_process hw obs timed stats env hroot hpop
  | token id b => exact keeps_modify hw id (fun _ => rfl) (fun _ h => h)
  | queue | report => exact ⟨⟨hw.distinct, hw.rooted⟩, rfl, fun _ _ h => h, fun h => h⟩
  | mark => exact keeps_mark hw

theorem keeps_runs (hw : w.Coherent) (h : Runs w roots v) : Keeps w v := by
  induction h with
  | start => exact .refl hw
  | submit obs stats env _ root _ ih =>
    exact ih.trans ((posts_obtain obs ⟨_, stats, env⟩ ih.coherent root).1.keeps ih.coherent)
  | step _ hs ih => exact ih.trans (keeps_step ih.coherent hs)

theorem submitted_runs (hw : w.Coherent) (h : Runs w roots v) :
    ∀ root ∈ roots, ∃ id, v.state.find? root = some id := by
  induction h with
  | start => intro root h; cases h
  | submit obs stats env hv root _ ih =>
    intro n hn
    have ho := posts_obtain obs ⟨_, stats, env⟩ (keeps_runs hw hv).coherent root
    rcases List.mem_cons.mp hn with rfl | hn
    · exact ⟨_, ho.2⟩
    · obtain ⟨id, hid⟩ := ih n hn
      exact ⟨id, ho.1.find? n id hid⟩
  | step hv hs ih =>
    intro n hn
    obtain ⟨id, hid⟩ := ih n hn
    exact ⟨id, (keeps_step (keeps_runs hw hv).coherent hs).find? n id hid⟩

/-- What every move keeps is kept by every run. -/
theorem board_runs {P : Board → Prop} (hw : w.Coherent)
    (hP : ∀ b b', Board.Move w.state.ontology b b' → P b → P b') (h : Runs w roots v)
    (h₀ : P w.contextOf?) : P v.contextOf? := by
  induction h with
  | start => exact h₀
  | submit obs stats env hv root hr ih =>
    have hk := keeps_runs hw hv
    exact hP _ _ (hk.ontology ▸ move_submit hk.coherent obs stats env hr) ih
  | step hv hs ih =>
    have hk := keeps_runs hw hv
    exact hP _ _ (hk.ontology ▸ move_step hk.coherent hs) ih

/-! ### The engine of one worker -/

/-- Only contexts of the state wait for a worker. -/
def Queued (w : Workspace) : Prop := ∀ id ∈ w.state.active, ∃ n, w.state.find? n = some id

variable {σ : Type} {obs : RuleObserver σ} {timed : Bool} {r : RuleRun σ}

theorem queued_process (hw : w.Coherent) (hq : w.Queued) (stats : RuleStatistics) (env : σ)
    (hroot : w.state.find? root = some id) (hpop : w.pop? id = some (k, v)) :
    (RuleRun.apply obs timed ⟨v, stats, env⟩ id k).work.Queued := by
  obtain ⟨c, rest, _, rfl, _, hv, hstate, hc, _⟩ := popped hw hroot hpop
  have hroot' : v.state.find? c.root = some id := by rw [hstate, hroot]
  have hp := posts_apply obs timed ⟨v, stats, env⟩ hv hroot' hc (k := k)
  intro x hx
  rcases hp.queued x hx with hx | hx
  · have hx : x ∈ w.state.active := hstate ▸ hx
    obtain ⟨n, hn⟩ := hq x hx
    exact ⟨n, hp.find? n x (by rw [state_modify, hstate, hn])⟩
  · exact hx

theorem runs_loop (fuel : Nat) (hand : Option ContextId) (hw : w.Coherent)
    (h : Runs w roots r.work) (hq : r.work.Queued)
    (hh : ∀ id ∈ hand, ∃ n, r.work.state.find? n = some id) :
    Runs w roots (RuleRun.loop obs timed fuel hand r).2.work ∧
      (RuleRun.loop obs timed fuel hand r).2.work.Queued := by
  induction fuel generalizing hand r with
  | zero => exact ⟨h, hq⟩
  | succ fuel ih =>
    cases hand with
    | some id =>
      obtain ⟨root, hroot⟩ := hh id rfl
      rw [RuleRun.loop]
      split
      · rename_i k v hpop
        have hr := (keeps_runs hw h).coherent
        have hs := Step.process obs timed r.stats r.env hroot hpop
        refine ih _ (h.step hs) (queued_process hr hq r.stats r.env hroot hpop) ?_
        intro x hx
        cases hx
        exact ⟨root, (keeps_step hr hs).find? root id hroot⟩
      · exact ih _ (h.step (.token id false)) hq fun x hx => by cases hx
    | none =>
      rw [RuleRun.loop]
      split
      · exact ⟨h, hq⟩
      · split
        · exact ⟨h, hq⟩
        · rename_i id v ht
          obtain ⟨rest, ha, rfl⟩ := active_of_take ht
          refine ih _ (h.step (.queue rest)) (fun y hy => hq y ?_) ?_
          · rw [ha]
            exact List.mem_cons_of_mem _ hy
          · intro y hy
            cases hy
            exact hq _ (by rw [ha]; exact List.mem_cons_self)

/-- A pass of the engine is a run. -/
theorem runs_pass (hw : w.Coherent) (h : Runs w roots r.work) (hq : r.work.Queued) :
    Runs w roots (r.process obs timed).2.work ∧ (r.process obs timed).2.work.Queued :=
  runs_loop _ none hw h hq fun _ hx => by cases hx

theorem queued_submit (hw : r.work.Coherent) (hq : r.work.Queued) :
    (r.submit obs root).2.work.Queued := by
  have hp := (posts_obtain obs r hw root).1
  intro x hx
  rcases hp.queued x hx with hx | hx
  · obtain ⟨n, hn⟩ := hq x hx
    exact ⟨n, hp.find? n x hn⟩
  · exact hx

/-- A workspace without contexts. -/
def start (o : Ontology) : Workspace := ⟨#[], State.new o, [], .asLinked⟩

/-- One more root, saturated by one worker whom nothing interrupts. In the end all contexts are
marked. -/
def saturate (w : Workspace) (root : NodeId) : Workspace :=
  let obs : RuleObserver Unit := ⟨fun e => (false, e), fun _ e => e⟩
  let v := (RuleRun.process obs false (RuleRun.submit obs ⟨w, .zero, ()⟩ root).2).2.work
  v.state.unsaturated.foldl (fun v _ => v.markNext.2) v

theorem coherent_new {o : Ontology} (hw : w.state = State.new o) : w.Coherent := by
  refine ⟨?_, ?_⟩
  · simp [hw, State.new]
  · intro n id h
    simp [hw, State.new, State.find?] at h

theorem listed_new {o : Ontology} (hw : w.state = State.new o) : w.Listed := by
  intro n id c h
  simp [hw, State.new, State.find?] at h

theorem runs_marks (ids : List ContextId) (h : Runs w roots v) :
    Runs w roots (ids.foldl (fun v _ => v.markNext.2) v) := by
  induction ids generalizing v with
  | nil => exact h
  | cons _ rest ih => exact ih (h.step .mark)

theorem Runs.saturate (hw : w.Coherent) (h : Runs w roots v) (hq : v.Queued)
    (hn : n.index < v.state.ontology.size) : Runs w (n :: roots) (v.saturate n) :=
  runs_marks _ (runs_pass hw (.submit _ _ _ h n hn)
    (queued_submit (keeps_runs hw h).coherent hq)).1

theorem runs_saturate (hw : w.Coherent) (hq : w.Queued)
    (hn : n.index < w.state.ontology.size) : Runs w [n] (w.saturate n) :=
  Runs.start.saturate hw hq hn

theorem runs_saturate_start {o : Ontology} (hn : n.index < o.size) :
    Runs (start o) [n] (saturate (start o) n) :=
  runs_saturate (coherent_new rfl) (fun _ h => by cases h) hn

/-- Whether anything is pending shows in the store. -/
theorem quiet_of_store (h : ∀ c ∈ w.store.toList, c.pending = []) : w.Quiet := by
  intro n c hc
  obtain ⟨id, _, hc⟩ := Option.bind_eq_some_iff.mp hc
  exact h c (Array.mem_toList_iff.mpr (Array.mem_of_getElem? hc))

end Workspace

end Subsumption
