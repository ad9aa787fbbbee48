import Subsumption.Proofs.Conservation

/-! Several rule engines over one state. Each counts for itself, and when it is finished its counts
are added to a total. Their calls may overlap; whenever none is under way, all counts together say
how much is pending, and the queue holds just the contexts that something is pending for. -/
namespace Subsumption

/-- The context in hand. -/
def Stage.hand? : Stage → Option ContextId
  | .holding id => some id
  | _ => none

namespace Workspace

open Workshop

variable {w v : Workspace} {n : NodeId} {id : ContextId} {c : Context} {k : Conclusion}
  {hands hands' : List ContextId}

/-- The contexts are tidy, and nothing waits in the queue for nothing. -/
structure Poised (hands : List ContextId) (w : Workspace) : Prop extends Tidy hands w where
  loaded : ∀ id ∈ w.state.active, ∀ c, w.context? id = some c → c.pending ≠ []

theorem Tidy.perm (h : Tidy hands w) (hp : hands.Perm hands') : Tidy hands' w := by
  have hall := hp.append_right w.state.active
  exact ⟨h.coherent, hall.nodup_iff.mp h.once,
    fun n id c hst => (h.token n id c hst).trans hall.mem_iff, h.waiting,
    fun id hid => h.known id (hall.mem_iff.mpr hid)⟩

theorem Poised.perm (h : Poised hands w) (hp : hands.Perm hands') : Poised hands' w :=
  ⟨h.toTidy.perm hp, h.loaded⟩

/-- When nobody has a context in hand, contexts are queued for what is pending. -/
theorem Poised.queued (h : Poised [] w) (hst : w.Stands n id c) :
    w.state.active.count id = (if c.pending = [] then 0 else 1) ∧
      (c.active = true ↔ c.pending ≠ []) := by
  have htoken : c.active = true ↔ id ∈ w.state.active := h.token n id c hst
  have hactive : c.active = true ↔ c.pending ≠ [] :=
    ⟨fun ha => h.loaded id (htoken.mp ha) c hst.2, h.waiting n id c hst⟩
  refine ⟨?_, hactive⟩
  split
  · rename_i hp
    exact List.count_eq_zero.mpr fun hid => hactive.mp (htoken.mpr hid) hp
  · rename_i hp
    exact List.count_eq_one_of_mem h.once (htoken.mp (hactive.mpr hp))

theorem Poised.produce (h : Poised hands w) (hid : w.state.find? n = some id) (k : Conclusion) :
    Poised hands (w.produce id k) := by
  refine ⟨h.toTidy.produce hid k, ?_⟩
  intro x hx c' hc'
  obtain ⟨c, hc, _⟩ := h.coherent.rooted n id hid
  rw [active_produce hc] at hx
  rw [context?_produce] at hc'
  split at hc'
  · obtain ⟨d, _, rfl⟩ := Option.map_eq_some_iff.mp hc'
    simp [Context.receive]
  · rename_i hne
    refine h.loaded x ?_ c' hc'
    split at hx
    · exact hx
    · exact (List.mem_append.mp hx).resolve_right fun he => hne (List.mem_singleton.mp he)

theorem Poised.insert (h : Poised hands w) (hn : w.state.find? n = none) :
    Poised hands ((w.insertContext n).2.enlist w.nextId) := by
  refine ⟨h.toTidy.insert hn, ?_⟩
  intro x hx c' hc'
  obtain ⟨m, hm⟩ := h.known x (List.mem_append_right _ hx)
  obtain ⟨c, hc, _⟩ := h.coherent.rooted m x hm
  have hold := (stands_insertContext h.coherent hn).mpr (Or.inl ⟨hm, hc⟩)
  cases hc'.symm.trans hold.2
  exact h.loaded x hx _ hc

theorem lasting_poised (hands : List ContextId) : Lasting (Poised hands) :=
  ⟨fun _ _ _ k hid h => h.produce hid k, fun _ _ hn h => h.insert hn,
    fun w e h => ⟨(lasting_tidy hands).report w e h.toTidy, h.loaded⟩⟩

/-- Who has a context in hand may take from what is pending there. -/
theorem Poised.modify (h : Poised hands w) (hid : id ∈ hands) {f : Context → Context}
    (hf : ∀ c, w.context? id = some c → (f c).root = c.root ∧ (f c).active = c.active ∧
      ((f c).pending ≠ [] → c.pending ≠ [])) : Poised hands (w.modify id f) := by
  refine ⟨h.toTidy.modify id hf, ?_⟩
  intro x hx c hc
  have hne : x ≠ id := by
    rintro rfl
    exact (List.nodup_append.mp h.once).2.2 _ hid _ hx rfl
  rw [context?_modify, if_neg hne] at hc
  exact h.loaded x hx c hc

theorem Poised.process (h : Poised hands w) {σ : Type} (obs : RuleObserver σ) (timed : Bool)
    (stats : RuleStatistics) (env : σ) (hid : id ∈ hands) (hpop : w.pop? id = some (k, v)) :
    Poised hands (RuleRun.apply obs timed ⟨v, stats, env⟩ id k).work := by
  obtain ⟨root, hroot⟩ := h.known id (List.mem_append_left _ hid)
  obtain ⟨c, rest, _, rfl, _, hv, hstate, hc, _⟩ := popped h.coherent hroot hpop
  have hpopped : Poised hands v := by
    obtain ⟨rfl, _⟩ := context?_of_pop hpop
    refine h.modify hid fun c _ => ⟨rfl, rfl, fun hp he => hp ?_⟩
    simp [Context.popped, he]
  have hroot' : v.state.find? c.root = some id := by rw [hstate, hroot]
  refine (lasting_poised hands).apply obs timed ⟨v, stats, env⟩ hv hroot' hc
    (hpopped.modify hid ?_)
  intro c' hc'
  cases hc.symm.trans hc'
  refine ⟨root_derive _ _, active_derive _ _ _, ?_⟩
  rw [Context.pending_derive]
  exact fun hp => hp

end Workspace

namespace RuleRun

open Workspace

variable {σ : Type} {obs : RuleObserver σ} {timed : Bool} {r r' : RuleRun σ} {s s' : Stage}
  {others : List ContextId}

/-- A step of one engine, while others have contexts in hand. -/
theorem Turn.poised (h : Turn obs timed s r s' r')
    (hp : Poised (s.hand?.toList ++ others) r.work) :
    Poised (s'.hand?.toList ++ others) r'.work := by
  cases h with
  | process hpop => exact hp.process obs timed r.stats r.env List.mem_cons_self hpop
  | @layDown _ id hpop =>
    have hdown := hp.toTidy.layDown (List.mem_cons_self (a := id)) hpop
    rw [show (Stage.holding id).hand?.toList ++ others = id :: others from rfl,
      List.erase_cons_head] at hdown
    refine ⟨hdown, ?_⟩
    intro x hx c hc
    simp only [setActive, context?_modify] at hc
    split at hc
    · obtain ⟨d, hd, rfl⟩ := Option.map_eq_some_iff.mp hc
      exact hp.loaded x hx d hd
    · exact hp.loaded x hx c hc
  | stopped | drained => exact hp
  | @take _ _ before id after _ ha =>
    refine ⟨hp.toTidy.remove ha, fun x hx => hp.loaded x ?_⟩
    rw [ha]
    exact List.perm_middle.mem_iff.mpr (List.mem_cons_of_mem id hx)

end RuleRun

/-! ### The engines of one factory -/

/-- An engine with what it counted itself. -/
structure RuleEngine where
  stage : Stage
  stats : RuleStatistics

/-- The engines that work on one state, and the sums of what finished engines counted. -/
structure RuleFactory where
  work : Workspace
  engines : List RuleEngine
  totals : RuleStatistics

namespace RuleFactory

open RuleRun Workspace

def new (w : Workspace) : RuleFactory := ⟨w, [], .zero⟩

/-- The factory after one of its engines has worked. -/
def put (f : RuleFactory) (before after : List RuleEngine) (s : Stage) (r : RuleRun σ) :
    RuleFactory :=
  { f with work := r.work, engines := before ++ ⟨s, r.stats⟩ :: after }

/-- What can happen next: there is a new engine; one that is in no call asks for a root, begins a
pass or is finished; or one takes a step of its pass. The flag may be set at any time. -/
inductive Move (f : RuleFactory) : RuleFactory → Prop
  | engine : Move f { f with engines := f.engines ++ [⟨.ended false, .zero⟩] }
  | submit {σ : Type} {before after b stats} (obs : RuleObserver σ) (env : σ) (root : NodeId)
    (hf : f.engines = before ++ ⟨.ended b, stats⟩ :: after) :
    Move f (f.put before after (.ended b) (RuleRun.submit obs ⟨f.work, stats, env⟩ root).2)
  | begins {before after b stats} (hf : f.engines = before ++ ⟨.ended b, stats⟩ :: after) :
    Move f { f with engines := before ++ ⟨.free, stats⟩ :: after }
  | turn {σ : Type} {obs : RuleObserver σ} {timed before after s stats env s' r'}
    (hf : f.engines = before ++ ⟨s, stats⟩ :: after)
    (ht : Turn obs timed s ⟨f.work, stats, env⟩ s' r') : Move f (f.put before after s' r')
  | finish {before after b stats} (hf : f.engines = before ++ ⟨.ended b, stats⟩ :: after) :
    Move f { f with
      engines := before ++ ⟨.ended b, .zero⟩ :: after, totals := f.totals.add stats }

inductive Moves (f₀ : RuleFactory) : RuleFactory → Prop
  | start : Moves f₀ f₀
  | move {f f' : RuleFactory} (h : Moves f₀ f) (hm : Move f f') : Moves f₀ f'

/-- The contexts that the engines have in hand. -/
def hands (f : RuleFactory) : List ContextId := f.engines.filterMap (·.stage.hand?)

/-- A count of all engines together. -/
def counted (g : RuleStatistics → Nat) (f : RuleFactory) : Nat :=
  g f.totals + (f.engines.map (g ·.stats)).sum

/-- How many conclusions of a kind have been produced, by all engines. -/
def produced (κ : ConclusionKind) (f : RuleFactory) : Nat :=
  f.totals.produced.get κ.index + (f.engines.map (·.stats.produced.get κ.index)).sum

/-- How many conclusions of a kind have been processed, by all engines. -/
def processed (κ : ConclusionKind) (f : RuleFactory) : Nat :=
  f.totals.processed.get κ.index + (f.engines.map (·.stats.processed.get κ.index)).sum

/-- No call is under way. -/
def Idle (f : RuleFactory) : Prop := ∀ e ∈ f.engines, ∃ b, e.stage = .ended b

/-- What holds at every moment. -/
structure Even (f : RuleFactory) : Prop where
  poised : Poised f.hands f.work
  balance : ∀ κ, f.produced κ = f.processed κ + f.work.pendingOf κ

variable {f f' f₀ : RuleFactory} {before after : List RuleEngine} {stats : RuleStatistics}
  {s s' : Stage} {σ : Type} {obs : RuleObserver σ} {timed b : Bool} {env : σ} {r r' : RuleRun σ}
  {n : Nat} {κ : ConclusionKind} {w : Workspace} {o : Ontology}

/-! ### The balance -/

theorem hands_of_engines (hf : f.engines = before ++ ⟨s, stats⟩ :: after) :
    (s.hand?.toList ++ (before ++ after).filterMap (·.stage.hand?)).Perm f.hands := by
  rw [hands, hf, List.filterMap_append, List.filterMap_append, List.filterMap_cons]
  cases s.hand? with
  | none => exact List.Perm.refl _
  | some id =>
    dsimp only [Option.toList_some, List.singleton_append]
    exact List.perm_middle.symm

theorem counted_of_engines (g : RuleStatistics → Nat)
    (hf : f.engines = before ++ ⟨s, stats⟩ :: after) :
    f.counted g = g stats + (g f.totals + ((before ++ after).map (g ·.stats)).sum) := by
  simp only [counted, hf, List.map_append, List.map_cons, List.sum_append, List.sum_cons]
  omega

theorem produced_of_engines (hf : f.engines = before ++ ⟨s, stats⟩ :: after) :
    f.produced κ = stats.produced.get κ.index + (f.totals.produced.get κ.index +
      ((before ++ after).map (·.stats.produced.get κ.index)).sum) :=
  counted_of_engines (·.produced.get κ.index) hf

theorem processed_of_engines (hf : f.engines = before ++ ⟨s, stats⟩ :: after) :
    f.processed κ = stats.processed.get κ.index + (f.totals.processed.get κ.index +
      ((before ++ after).map (·.stats.processed.get κ.index)).sum) :=
  counted_of_engines (·.processed.get κ.index) hf

/-- Who has a context in hand has it from the state. -/
theorem Even.known (h : f.Even) (hf : f.engines = before ++ ⟨s, stats⟩ :: after) :
    ∀ id, s = .holding id → ∃ n, f.work.state.find? n = some id := by
  rintro id rfl
  refine h.poised.known id (List.mem_append_left _ ?_)
  exact (hands_of_engines hf).mem_iff.mp List.mem_cons_self

/-- The work of one engine, in which conclusions are conserved, keeps the balance. -/
theorem Even.put (h : f.Even) (env : σ) (hf : f.engines = before ++ ⟨s, stats⟩ :: after)
    (hr : RuleRun.Conserves ⟨f.work, stats, env⟩ r)
    (hp : ∀ others, Poised (s.hand?.toList ++ others) f.work →
      Poised (s'.hand?.toList ++ others) r.work) : (f.put before after s' r).Even := by
  have hf' : (f.put before after s' r).engines = before ++ ⟨s', r.stats⟩ :: after := rfl
  refine ⟨?_, fun κ => ?_⟩
  · exact (hp _ (h.poised.perm (hands_of_engines hf).symm)).perm (hands_of_engines hf')
  · have hbefore := h.balance κ
    have hconserved := hr κ
    rw [produced_of_engines hf, processed_of_engines hf] at hbefore
    rw [produced_of_engines hf', processed_of_engines hf']
    dsimp only [RuleFactory.put] at hconserved ⊢
    omega

theorem Even.move (h : f.Even) (hm : Move f f') : f'.Even := by
  cases hm with
  | engine =>
    refine ⟨?_, fun κ => ?_⟩
    · simpa [hands, Stage.hand?] using h.poised
    · simpa [produced, processed, RuleStatistics.zero] using h.balance κ
  | submit obs env root hf =>
    refine h.put env hf (conserves_obtain h.poised.coherent root) fun others hp => ?_
    exact (lasting_poised others).obtain obs ⟨f.work, _, env⟩ hp root
  | begins hf =>
    exact h.put () hf (r := ⟨f.work, _, ()⟩) (conserves_of_eq rfl rfl fun _ => rfl) fun _ hp => hp
  | @turn _ _ _ _ _ s _ env _ _ hf ht =>
    exact h.put env hf (ht.conserves h.poised.coherent (h.known hf)) fun others hp => ht.poised hp
  | @finish before after b stats hf =>
    have hf' : ({ f with
        engines := before ++ ⟨.ended b, .zero⟩ :: after
        totals := f.totals.add stats } : RuleFactory).engines =
          before ++ ⟨.ended b, .zero⟩ :: after := rfl
    refine ⟨(h.poised.perm (hands_of_engines hf).symm).perm (hands_of_engines hf'), fun κ => ?_⟩
    have hbefore := h.balance κ
    rw [produced_of_engines hf, processed_of_engines hf] at hbefore
    rw [produced_of_engines hf', processed_of_engines hf']
    simp only [RuleStatistics.zero, RuleStatistics.add, Tally.get_zero, Tally.get_add]
    omega

theorem even_new (hw : w.state = State.new o) : (new w).Even := by
  refine ⟨⟨tidy_new hw, ?_⟩, fun κ => ?_⟩
  · intro id hid
    have hid : id ∈ w.state.active := hid
    rw [hw] at hid
    cases hid
  · simp [new, produced, processed, pendingOf, hw, State.new, RuleStatistics.zero]

theorem Moves.even (h : Moves f₀ f) (h₀ : f₀.Even) : f.Even := by
  induction h with
  | start => exact h₀
  | move _ hm ih => exact ih.move hm

theorem Even.hands_of_idle (hidle : f.Idle) : f.hands = [] := by
  refine List.filterMap_eq_nil_iff.mpr fun e he => ?_
  obtain ⟨b, hb⟩ := hidle e he
  rw [hb]
  rfl

theorem idle_put (hidle : f.Idle) (hf : f.engines = before ++ ⟨s, stats⟩ :: after) (b : Bool) :
    (f.put before after (.ended b) r).Idle := by
  intro e he
  rcases List.mem_cons.mp (List.perm_middle.mem_iff.mp he) with rfl | he
  · exact ⟨b, rfl⟩
  · refine hidle e ?_
    rw [hf]
    exact List.perm_middle.mem_iff.mpr (List.mem_cons_of_mem _ he)

/-! ### Whole passes -/

theorem Moves.turns (h : Moves f₀ (f.put before after s r)) (ht : Turns obs timed s r n s' r') :
    Moves f₀ (f.put before after s' r') := by
  induction ht with
  | none => exact h
  | more _ ht ih => exact ih.move (.turn (f := f.put before after _ _) rfl ht)

/-- A pass of an engine, from its beginning to its end. -/
theorem Moves.process (h : Moves f₀ f) (hf : f.engines = before ++ ⟨.ended b, stats⟩ :: after)
    (obs : RuleObserver σ) (timed : Bool) (env : σ) :
    Moves f₀ (f.put before after
      (.ended (RuleRun.process obs timed ⟨f.work, stats, env⟩).1)
      (RuleRun.process obs timed ⟨f.work, stats, env⟩).2) := by
  obtain ⟨n, hturns⟩ := (passes_process obs timed ⟨f.work, stats, env⟩).turns
  exact Moves.turns (f := f) (r := ⟨f.work, stats, env⟩) (h.move (.begins hf)) hturns

/-- Engines have worked on a new state, by calls that may have overlapped, and each pass was stopped
by the flag or not. When no call is under way, the conclusions of each kind that all of them, the
finished ones included, have produced are those that they have processed and those that are pending.
A context is queued once if anything is pending for it and is not queued otherwise, and its token is
taken in just the first case. If one more pass is made and the flag does not stop it, as many
conclusions of each kind have been processed as have been produced. -/
theorem conclusions_conserved (hw : w.state = State.new o) (h : Moves (new w) f)
    (hidle : f.Idle) :
    (∀ κ, f.produced κ = f.processed κ + f.work.pendingOf κ) ∧
    (∀ n id c, f.work.Stands n id c →
      f.work.state.active.count id = (if c.pending = [] then 0 else 1) ∧
        (c.active = true ↔ c.pending ≠ [])) ∧
    ∀ (σ : Type) (obs : RuleObserver σ) (timed : Bool) (env : σ) before b stats after,
      f.engines = before ++ ⟨.ended b, stats⟩ :: after →
      (RuleRun.process obs timed ⟨f.work, stats, env⟩).1 = false →
      ∀ κ, (f.put before after (.ended false)
          (RuleRun.process obs timed ⟨f.work, stats, env⟩).2).produced κ =
        (f.put before after (.ended false)
          (RuleRun.process obs timed ⟨f.work, stats, env⟩).2).processed κ := by
  have heven := h.even (even_new hw)
  have hpoised : Poised [] f.work := Even.hands_of_idle hidle ▸ heven.poised
  refine ⟨heven.balance, fun n id c hst => hpoised.queued hst, ?_⟩
  intro σ obs timed env before b stats after hf hfalse κ
  have hafter := h.process hf obs timed env
  rw [hfalse] at hafter
  have heven' := hafter.even (even_new hw)
  have hidle' := idle_put (r := (RuleRun.process obs timed ⟨f.work, stats, env⟩).2) hidle hf false
  have hpoised' : Poised [] _ := Even.hands_of_idle hidle' ▸ heven'.poised
  have hdrained := (passes_process obs timed ⟨f.work, stats, env⟩).drains hfalse
  have hquiet := hpoised'.toTidy.quiet hdrained
  rw [heven'.balance κ, pendingOf_quiet hpoised'.coherent hquiet, Nat.add_zero]

/-- The flag is found set when it has been polled as many times as the number says. -/
def countdown : RuleObserver Nat := ⟨fun e => (e == 0, e - 1), fun _ e => e⟩

/-- An engine has been asked for A, over A ⊑ B ⊑ A, A ⊑ ∃s.B, B ⊑ ∃r.A and ∃r.A ⊑ A. -/
def asked : RuleRun Nat :=
  (RuleRun.submit countdown ⟨start (Ontology.after cycles), .zero, 1⟩ ⟨2⟩).2

/-- Its pass is stopped when it has drained the context of A. -/
def drainedOne : RuleRun Nat :=
  (RuleRun.process countdown false ⟨asked.work, asked.stats, 1⟩).2

/-- Then there is another engine. -/
def halfway : RuleFactory :=
  ⟨drainedOne.work, [⟨.ended true, drainedOne.stats⟩, ⟨.ended false, .zero⟩], .zero⟩

theorem moves_halfway : Moves (new (start (Ontology.after cycles))) halfway := by
  have hasked : Moves (new (start (Ontology.after cycles)))
      ((new (start (Ontology.after cycles))).put [] [] (.ended false) asked) :=
    (Moves.start.move .engine).move (.submit countdown 1 ⟨2⟩ rfl)
  have hpass : Moves (new (start (Ontology.after cycles)))
      ((new (start (Ontology.after cycles))).put [] [] (.ended true) drainedOne) := by
    have hone : ((new (start (Ontology.after cycles))).put [] [] (.ended false) asked).engines =
        [] ++ ⟨.ended false, asked.stats⟩ :: [] := rfl
    have hcut := hasked.process hone countdown false 1
    have hset : (RuleRun.process countdown false ⟨asked.work, asked.stats, 1⟩).1 = true := by
      decide +kernel
    exact hset ▸ hcut
  exact hpass.move .engine

/-- The pass of the second engine is not stopped: it takes what the first one has left pending. -/
theorem conclusions_conserved_cycles :
    Moves (new (start (Ontology.after cycles))) halfway ∧ halfway.Idle ∧
    (∀ κ, halfway.produced κ = halfway.processed κ + halfway.work.pendingOf κ) ∧
    (halfway.produced .backwardLink, halfway.processed .backwardLink,
      halfway.work.pendingOf .backwardLink) = (2, 1, 1) ∧
    (RuleRun.process countdown false ⟨halfway.work, .zero, 9⟩).1 = false ∧
    ∀ κ, (halfway.put [⟨.ended true, drainedOne.stats⟩] [] (.ended false)
        (RuleRun.process countdown false ⟨halfway.work, .zero, 9⟩).2).produced κ =
      (halfway.put [⟨.ended true, drainedOne.stats⟩] [] (.ended false)
        (RuleRun.process countdown false ⟨halfway.work, .zero, 9⟩).2).processed κ := by
  have hidle : halfway.Idle := by
    intro e he
    rcases List.mem_cons.mp he with rfl | he
    · exact ⟨true, rfl⟩
    · rw [List.mem_singleton.mp he]
      exact ⟨false, rfl⟩
  have hdrained : (RuleRun.process countdown false ⟨halfway.work, .zero, 9⟩).1 = false := by
    decide +kernel
  obtain ⟨hbalance, _, hpass⟩ :=
    conclusions_conserved (o := Ontology.after cycles) rfl moves_halfway hidle
  exact ⟨moves_halfway, hidle, hbalance, by decide +kernel, hdrained,
    hpass Nat countdown false 9 [⟨.ended true, drainedOne.stats⟩] false .zero [] rfl hdrained⟩

end RuleFactory

end Subsumption
