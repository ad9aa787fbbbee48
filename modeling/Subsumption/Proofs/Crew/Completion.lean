import Subsumption.Proofs.Crew.Tending
import Subsumption.Proofs.Soundness
import Subsumption.Proofs.Sealing

/-! Completion is detected safely. At any time there is a closed set of roots that contains those of
all contexts marked saturated, and of those that are next to be marked. -/
namespace Subsumption

variable {α σ : Type} {s s' : Saturation α σ} {ps ps' rest : Multiset PC} {pc pc' q : PC}
  {ds : List Deed} {w w' : Workspace} {n root : NodeId} {id x : ContextId} {c c' : Context}
  {R : NodeId → Prop} {j : Nat} {k : Conclusion} {o : Ontology}

/-! ### What becomes of a context -/

/-- What becomes of the context at a place when the worker goes on from one place to another: its
facts change when a conclusion in hand is applied. -/
inductive Becomes (o : Ontology) (pc pc' : PC) (id : ContextId) (c : Context) : Context → Prop
  | kept {d} (hf : d.facts = c.facts) (hi : d.inconsistent = c.inconsistent)
    (hp : d.pending = c.pending) (hr : d.root = c.root) : Becomes o pc pc' id c d
  | pushed {hand l as} (h : pc = .act hand (.push id l :: as)) :
    Becomes o pc pc' id c (c.push l)
  | popped {l ls} (hp : c.pending = l :: ls) (h' : pc' = .derive id l) :
    Becomes o pc pc' id c c.popped
  | derived {l} {order : List PropertyId} (h : pc = .derive id l) :
    Becomes o pc pc' id c (c.derive o order l).1

theorem Becomes.refl (c : Context) : Becomes o pc pc' id c c := .kept rfl rfl rfl rfl

theorem becomes_modify {f : Context → Context}
    (hf : ∀ c, w.context? id = some c → Becomes o pc pc' id c (f c))
    (h : (w.modify id f).Stands n x c') :
    ∃ c, w.Stands n x c ∧ Becomes o pc pc' x c c' := by
  obtain ⟨c, hc, rfl⟩ := (Workspace.stands_modify f).mp h
  refine ⟨c, hc, ?_⟩
  split
  · rename_i he
    subst he
    exact hf c hc.2
  · exact .refl c

theorem becomes_act (hw : s.work.Coherent) (h : Act s pc ds s' pc')
    (hst : s'.work.Stands n id c') :
    (∃ c, s.work.Stands n id c ∧ Becomes s.work.state.ontology pc pc' id c c') ∨
      s.work.state.find? n = none ∧ c' = .fresh n := by
  have hmod : ∀ {x f}, s'.work = s.work.modify x f →
      (∀ c, s.work.context? x = some c → Becomes s.work.state.ontology pc pc' x c (f c)) →
      ∃ c, s.work.Stands n id c ∧ Becomes s.work.state.ontology pc pc' id c c' :=
    fun he hf => becomes_modify hf (he ▸ hst)
  cases h with
  | perform h =>
    cases h with
    | opened h =>
      rcases (Workspace.stands_insertContext hw h).mp hst with hc | ⟨rfl, _, rfl⟩
      · exact Or.inl ⟨c', hc, .refl c'⟩
      · exact Or.inr ⟨h, rfl⟩
    | push => exact Or.inl (hmod rfl fun c _ => .pushed rfl)
    | activate => exact Or.inl (hmod rfl fun c _ => .kept rfl rfl rfl rfl)
    | _ => exact Or.inl ⟨c', hst, .refl c'⟩
  | mark =>
    obtain ⟨c, hc, he⟩ := Workspace.stands_of_markSaturated hst
    rw [he]
    exact Or.inl ⟨c, hc, .kept rfl rfl rfl rfl⟩
  | derive hc =>
    refine Or.inl (hmod rfl fun c hc' => ?_)
    cases hc.symm.trans hc'
    exact .derived rfl
  | pop hc hp =>
    refine Or.inl (hmod rfl fun c hc' => ?_)
    cases hc.symm.trans hc'
    exact .popped hp rfl
  | release | retake => exact Or.inl (hmod rfl fun c _ => .kept rfl rfl rfl rfl)
  | _ => exact Or.inl ⟨c', hst, .refl c'⟩

/-! ### Closed sets of roots -/

/-- The action is for contexts of the state, and sends only what may come. -/
def Action.Admitted (R : NodeId → Prop) (w : Workspace) : Action → Prop
  | .locate root ks => ∀ k ∈ ks, Admits R root k
  | .push id k => ∃ n, w.state.find? n = some id ∧ Admits R n k
  | .activate id | .enqueue id => ∃ n, w.state.find? n = some id
  | _ => True

namespace PC

/-- The conclusion that the worker applies, and the context that it is applied to. -/
def hand : PC → Option (ContextId × Conclusion)
  | .derive id k => some (id, k)
  | .act hand _ => hand
  | _ => none

/-- The worker has to do with contexts of the state, and with conclusions that may come to them. -/
structure Admitted (R : NodeId → Prop) (w : Workspace) (pc : PC) : Prop where
  minded : ∀ id, pc.minded = some id → ∃ n, w.state.find? n = some id
  hand : ∀ id k, pc.hand = some (id, k) → ∃ n, w.state.find? n = some id ∧ Admits R n k
  agenda : ∀ a ∈ pc.agenda, a.Admitted R w

@[simp] theorem hand_woken (pc : PC) : pc.woken.hand = pc.hand := by
  cases pc <;> rfl

theorem hand_free (h : pc.isFree = true) : pc.hand = none := by
  cases pc <;> first | rfl | cases h

/-- A worker that has nothing in hand. -/
theorem admitted_idle (hm : pc.minded = none) (hh : pc.hand = none) (ha : pc.agenda = []) :
    pc.Admitted R w := by
  refine ⟨?_, ?_, ?_⟩
  · intro id h
    rw [hm] at h
    cases h
  · intro id k h
    rw [hh] at h
    cases h
  · intro a h
    rw [ha] at h
    cases h

end PC

theorem Workspace.Grows.find? (hg : w.Grows w') (hw : w.Coherent)
    (h : w.state.find? n = some id) : w'.state.find? n = some id := by
  obtain ⟨c, hc, _⟩ := hw.rooted n id h
  obtain ⟨_, hc', _⟩ := hg.stands n id c ⟨h, hc⟩
  exact hc'.1

theorem Action.Admitted.grow {a : Action} (h : a.Admitted R w) (hg : w.Grows w')
    (hw : w.Coherent) : a.Admitted R w' := by
  cases a with
  | push id k => exact h.imp fun n hn => ⟨hg.find? hw hn.1, hn.2⟩
  | activate id | enqueue id => exact h.imp fun n hn => hg.find? hw hn
  | locate => exact h
  | _ => trivial

theorem PC.Admitted.grow (h : q.Admitted R w) (hg : w.Grows w') (hw : w.Coherent) :
    q.Admitted R w' :=
  ⟨fun id hid => (h.minded id hid).imp fun _ hn => hg.find? hw hn,
    fun id k hk => (h.hand id k hk).imp fun _ hn => ⟨hg.find? hw hn.1, hn.2⟩,
    fun a ha => (h.agenda a ha).grow hg hw⟩

/-- The set `R` of roots is closed. -/
structure Closed (R : NodeId → Prop) (s : Saturation α σ) (ps : Multiset PC) : Prop where
  known : ∀ n, R n → ∃ id, s.work.state.find? n = some id
  queue : ∀ id ∈ s.work.state.active, ∃ n, s.work.state.find? n = some id
  pending : ∀ n id c, s.work.Stands n id c → ∀ k ∈ c.pending, Admits R n k
  sources : ∀ n id c, s.work.Stands n id c → ¬ R n →
    ∀ source r, c.Has (.backwardLink source r) → ¬ R source
  workers : ∀ q ∈ ps, q.Admitted R s.work

theorem Workspace.Coherent.root_of_stands (hw : w.Coherent) (h : w.Stands n id c) : c.root = n := by
  obtain ⟨c', hc', hn⟩ := hw.rooted n id h.1
  cases h.2.symm.trans hc'
  exact hn

/-- What becomes of a context while the set is closed. -/
theorem Closed.becomes (hc : Closed R s ps) (hw : s.work.Coherent) (hpc : pc ∈ ps)
    (hst : s.work.Stands n id c) (hb : Becomes o pc pc' id c c') :
    (∀ k ∈ c'.pending, Admits R n k) ∧
      (¬ R n → ∀ source r, c'.Has (.backwardLink source r) → ¬ R source) ∧
      (R n → c.LinksAdded c') := by
  have hpending := hc.pending n id c hst
  have hsources := hc.sources n id c hst
  cases hb with
  | kept hf hi hp hr =>
    refine ⟨hp ▸ hpending, ?_, fun _ => ⟨hr, hi, [], by simp [hf]⟩⟩
    simpa only [Context.Has, hf] using hsources
  | @pushed hand l as h =>
    obtain ⟨m, hm, hl⟩ := (hc.workers pc hpc).agenda (.push id l) (by simp [h, PC.agenda])
    obtain rfl := hw.find?_inj hm hst.1
    refine ⟨?_, hsources, fun _ => ⟨rfl, rfl, [], by simp [Context.push]⟩⟩
    intro k hk
    rcases List.mem_append.mp hk with hk | hk
    · exact hpending k hk
    · rw [List.mem_singleton.mp hk]
      exact hl
  | popped hp h' =>
    exact ⟨fun k hk => hpending k (List.mem_of_mem_tail hk), hsources,
      fun _ => ⟨rfl, rfl, [], by simp [Context.popped]⟩⟩
  | @derived l _ h =>
    obtain ⟨m, hm, hl⟩ := (hc.workers pc hpc).hand id l (by simp [h, PC.hand])
    obtain rfl := hw.find?_inj hm hst.1
    refine ⟨fun k hk => hpending k (Context.pending_derive ▸ hk), ?_, ?_⟩
    · intro hn source r hh
      exact Context.sources_derive (hsources hn) hl hh
    · intro hn
      obtain ⟨source, r, rfl⟩ := hl.link hn
      exact Context.linksAdded_derive c o source r

/-- Actions that follow from an admitted action are admitted. -/
theorem admitted_does {a : Action} {more : Agenda} (hw : s.work.Coherent)
    (hk : ∀ n, R n → ∃ id, s.work.state.find? n = some id) (h : a.Does s s' more)
    (ha : a.Admitted R s.work) : ∀ b ∈ more, b.Admitted R s'.work := by
  cases h with
  | found h =>
    intro b hb
    obtain ⟨k, hk, rfl⟩ := List.mem_map.mp hb
    exact ⟨_, h, ha k hk⟩
  | @opened root ks h =>
    have hnot : ¬ R root := by
      intro hr
      obtain ⟨id, hid⟩ := hk root hr
      rw [h] at hid
      cases hid
    have hfind : (s.work.insertContext root).2.state.find? root = some s.work.nextId :=
      ((Workspace.stands_insertContext hw h).mpr (Or.inr ⟨rfl, rfl, rfl⟩)).1
    have hpush : ∀ k, Admits R root k →
        (Action.push s.work.nextId k).Admitted R (s.work.insertContext root).2 :=
      fun k hk => ⟨root, hfind, hk⟩
    have hinitial : ∀ k ∈ RuleRun.initialConclusions s.work.state.ontology root,
        Admits R root k := by
      intro k hk
      refine .of_not hnot ?_
      rintro source r rfl
      unfold RuleRun.initialConclusions at hk
      split at hk <;> simp [Conclusion.plain] at hk
    intro b hb
    simp only [List.mem_append, List.mem_map, List.mem_singleton] at hb
    rcases hb with ((rfl | ⟨k, hk, rfl⟩) | rfl) | ⟨k, hk, rfl⟩
    · trivial
    · exact hpush k (hinitial k hk)
    · trivial
    · exact hpush k (ha k hk)
  | push =>
    intro b hb
    rw [List.mem_singleton.mp hb]
    exact ha.imp fun n hn => hn.1
  | activate =>
    intro b hb
    rw [List.mem_singleton.mp hb]
    exact ha
  | _ =>
    intro b hb
    cases hb

theorem admitted_effects {w : Workspace} {es : List Effect} (hn : w.state.find? n = some id)
    (h : ∀ e ∈ es, e.Admitted R n) : ∀ a ∈ es.map (Agenda.ofEffect id), a.Admitted R w := by
  intro a ha
  obtain ⟨e, he, rfl⟩ := List.mem_map.mp ha
  have := h e he
  cases e with
  | own k => exact ⟨n, hn, this⟩
  | send root ks => exact this
  | _ => trivial

/-- A worker that has a context in hand and nothing else. -/
theorem PC.admitted_minded (hm : pc.minded = some id) (hh : pc.hand = none) (ha : pc.agenda = [])
    (hn : ∃ n, w.state.find? n = some id) : pc.Admitted R w := by
  refine ⟨?_, ?_, ?_⟩
  · intro x h
    cases hm.symm.trans h
    exact hn
  · intro x k h
    rw [hh] at h
    cases h
  · intro a h
    rw [ha] at h
    cases h

theorem admitted_act (hc : Closed R s ps) (hw : s.work.Coherent) (hpc : pc ∈ ps)
    (h : Act s pc ds s' pc') : pc'.Admitted R s'.work := by
  have hq := (hc.workers pc hpc).grow (grows_act hw h) hw
  cases h with
  | @perform hand a as s' more h =>
    refine ⟨hq.minded, hq.hand, ?_⟩
    have ha := (hc.workers _ hpc).agenda a List.mem_cons_self
    intro b hb
    rcases List.mem_append.mp hb with hb | hb
    · exact admitted_does hw hc.known h ha b hb
    · exact hq.agenda b (List.mem_cons_of_mem _ hb)
  | @derive id k c hd =>
    refine ⟨hq.minded, hq.hand, ?_⟩
    obtain ⟨n, hn, hk⟩ := (hc.workers _ hpc).hand id k rfl
    have hst : s.work.Stands n id c := ⟨hn, hd⟩
    have hroot := hw.root_of_stands hst
    refine admitted_effects hn ?_
    rw [← hroot]
    exact Context.admitted_derive (hroot ▸ hk) (hroot ▸ hc.sources n id c hst)
  | @pop id c k as hd hp =>
    refine ⟨hq.minded, ?_, fun a ha => by cases ha⟩
    obtain ⟨n, hn⟩ := (hc.workers _ hpc).minded id rfl
    intro x l hl
    cases hl
    exact ⟨n, hn, hc.pending n id c ⟨hn, hd⟩ k (hp ▸ List.mem_cons_self)⟩
  | take h =>
    exact PC.admitted_minded rfl rfl rfl (hc.queue _ (h ▸ List.mem_cons_self))
  | drained | lost | applied | release | goBack | retake =>
    exact PC.admitted_minded rfl rfl rfl (hq.minded _ rfl)
  | countJob =>
    refine ⟨fun id h => (by cases h), fun id k h => (by cases h), ?_⟩
    intro a ha
    rw [List.mem_singleton.mp ha]
    intro k hk
    cases hk
  | free h h' => exact PC.admitted_idle (PC.minded_free h') (PC.hand_free h') (PC.agenda_free h')
  | _ => exact PC.admitted_idle rfl rfl rfl

theorem queue_act (hc : Closed R s ps) (hpc : pc ∈ ps) (h : Act s pc ds s' pc')
    (hid : id ∈ s'.work.state.active) : ∃ n, s.work.state.find? n = some id := by
  have hq := hc.queue id
  cases h with
  | perform h =>
    cases h with
    | @enqueue x =>
      rcases List.mem_append.mp hid with hid | hid
      · exact hq hid
      · rw [List.mem_singleton.mp hid]
        exact (hc.workers _ hpc).agenda (.enqueue x) List.mem_cons_self
    | _ => exact hq hid
  | take h => exact hq (h ▸ List.mem_cons_of_mem _ hid)
  | mark =>
    rw [Workspace.state_markSaturated] at hid
    exact hq hid
  | _ => exact hq hid

/-- A closed set stays closed, and nothing but links is recorded for its roots. -/
theorem closed_shift (hc : Closed R s ps) (hw : s.work.Coherent) (h : Shift s ps ds s' ps') :
    Closed R s' ps' ∧ ∀ n id c, s.work.Stands n id c → R n →
      ∃ c', s'.work.Stands n id c' ∧ c.LinksAdded c' := by
  have hg := grows_shift hw h
  cases h with
  | @act pc _ _ pc' rest h =>
    have hself : pc ∈ pc ::ₘ rest := Multiset.mem_cons_self _ _
    refine ⟨⟨?_, ?_, ?_, ?_, ?_⟩, ?_⟩
    · exact fun n hn => (hc.known n hn).imp fun _ h => hg.find? hw h
    · exact fun id hid => (queue_act hc hself h hid).imp fun _ h => hg.find? hw h
    · intro n id c' hst
      rcases becomes_act hw h hst with ⟨c, hst, hb⟩ | ⟨_, rfl⟩
      · exact (hc.becomes hw hself hst hb).1
      · intro k hk
        cases hk
    · intro n id c' hst
      rcases becomes_act hw h hst with ⟨c, hst, hb⟩ | ⟨_, rfl⟩
      · exact (hc.becomes hw hself hst hb).2.1
      · intro _ source r hh
        cases hh
    · intro q hq
      rcases Multiset.mem_cons.mp hq with rfl | hq
      · exact admitted_act hc hw hself h
      · exact (hc.workers q (Multiset.mem_cons_of_mem hq)).grow hg hw
    · intro n id c hst hn
      obtain ⟨c', hst', _⟩ := hg.stands n id c hst
      refine ⟨c', hst', ?_⟩
      rcases becomes_act hw h hst' with ⟨d, hd, hb⟩ | ⟨hnone, _⟩
      · cases hst.2.symm.trans hd.2
        exact (hc.becomes hw hself hst hb).2.2 hn
      · cases hst.1.symm.trans hnone
  | join =>
    refine ⟨⟨hc.known, hc.queue, hc.pending, hc.sources, ?_⟩, fun n id c hst _ => ⟨c, hst, .refl c⟩⟩
    intro q hq
    rcases Multiset.mem_cons.mp hq with rfl | hq
    · exact PC.admitted_idle rfl rfl rfl
    · exact hc.workers q hq
  | submit | make | surroundings =>
    exact ⟨⟨hc.known, hc.queue, hc.pending, hc.sources, hc.workers⟩,
      fun n id c hst _ => ⟨c, hst, .refl c⟩⟩

/-! ### Who is next to be marked -/

/-- How many contexts the worker is going to declare processed. -/
def PC.raising : PC → Option Nat
  | .raiseJobs c _ _ | .raiseContexts c _ => some c
  | _ => none

theorem PC.raising_free (h : pc.isFree = true) : pc.raising = none := by
  cases pc <;> first | rfl | cases h

/-- The context at a place stands for a root of the set. -/
def Workspace.Among (R : NodeId → Prop) (w : Workspace) (id : ContextId) : Prop :=
  ∃ n, w.state.find? n = some id ∧ R n

/-- The contexts that are marked or next to be marked stand for roots of the set. -/
structure Ranked (R : NodeId → Prop) (s : Saturation α σ) (ps : Multiset PC) : Prop where
  saturated : ∀ n id c, s.work.Stands n id c → c.saturated = true → R n
  marking : ∀ q ∈ ps, ∀ id ∈ q.marking, s.work.Among R id
  ranking : ∃ j, Ranking PC.claims PC.raising (s.work.Among R) s.work.state.unsaturated
    s.desk.counters.contextsProcessed s.desk.counters.contextsFinished j ps

/-- A context becomes saturated only when a worker marks it. -/
theorem saturated_act (hw : s.work.Coherent) (h : Act s pc ds s' pc')
    (hst : s'.work.Stands n id c') (hs : c'.saturated = true) :
    (∃ c, s.work.Stands n id c ∧ c.saturated = true) ∨
      id ∈ pc.marking ∧ s.work.state.find? n = some id := by
  have hmod : ∀ {x f}, s'.work = s.work.modify x f →
      (∀ c, s.work.context? x = some c → (f c).saturated = c.saturated) →
      ∃ c, s.work.Stands n id c ∧ c.saturated = true :=
    fun he hf => Workspace.saturated_modify hf (he ▸ hst) hs
  cases h with
  | perform h =>
    cases h with
    | opened h =>
      rcases (Workspace.stands_insertContext hw h).mp hst with hc | ⟨_, _, rfl⟩
      · exact Or.inl ⟨c', hc, hs⟩
      · cases hs
    | push | activate => exact Or.inl (hmod rfl fun _ _ => rfl)
    | _ => exact Or.inl ⟨c', hst, hs⟩
  | mark =>
    refine (Workspace.saturated_of_markSaturated hst hs).imp_right ?_
    rintro ⟨rfl, hn⟩
    exact ⟨List.mem_singleton_self _, hn⟩
  | derive hc =>
    refine Or.inl (hmod rfl fun c hc' => ?_)
    cases hc.symm.trans hc'
    exact Workspace.saturated_derive _ _
  | pop | release | retake => exact Or.inl (hmod rfl fun _ _ => rfl)
  | _ => exact Or.inl ⟨c', hst, hs⟩

/-- The worker has found out that no worker is inside and that none was interrupted. -/
structure Finds (s : Saturation α σ) (pc : PC) (s' : Saturation α σ) (pc' : PC) : Prop where
  outside : s.desk.counters.workersStarted ≤ s.desk.counters.workersFinished
  interrupt : s.desk.counters.lastInterrupt < s.desk.counters.workersStarted
  same : s' = s
  place : pc' = .raiseJobs s.desk.counters.contextsCreated s.desk.counters.jobsSubmitted none

theorem finds_act {f c j : Nat} (h : s.desk.counters.workersStarted ≤ f)
    (hs : (PC.comparePasses f c j).Sees s.desk.counters) :
    Finds s (.comparePasses f c j) s (.raiseJobs c j none) := by
  obtain ⟨hf, hc, hj, hstill⟩ := hs
  obtain ⟨hi, hc', hj'⟩ := hstill h
  rw [Nat.le_antisymm hc hc', Nat.le_antisymm hj hj']
  exact ⟨h.trans hf, hi, rfl, rfl⟩

theorem queueing_act (h : Act s pc ds s' pc') (hs : pc.Sees s.desk.counters)
    (hne : pc.claims = 0 ∨ s.work.state.unsaturated ≠ []) : Finds s pc s' pc' ∨
      Queueing PC.claims PC.raising s.work.state.unsaturated s'.work.state.unsaturated
        s.desk.counters.contextsProcessed s'.desk.counters.contextsProcessed
        s.desk.counters.contextsFinished s'.desk.counters.contextsFinished pc pc' := by
  cases h with
  | perform h =>
    refine Or.inr (.other ?_ ?_ (by simp [PC.raising]) ?_)
    · cases h <;> simp
    · rcases desk_of_does h with h | h <;> simp [h, PC.claims]
    · rcases desk_of_does h with h | h <;> simp [h]
  | noneUnsaturated h => simp [PC.claims, h] at hne
  | takeUnsaturated h => exact Or.inr (.taken h rfl (by simp [PC.raising]) rfl rfl)
  | noneInside h => exact Or.inl (finds_act h hs)
  | free h h' =>
    exact Or.inr (.other (List.prefix_refl _) (by simp [h, h']) (by simp [PC.raising_free h'])
      (Or.inl rfl))
  | _ =>
    refine Or.inr (.other ?_ ?_ (by simp [PC.raising]) ?_) <;> simp [PC.claims, PC.raising]

/-- A context that the worker comes to be going to mark was first in the queue. -/
theorem marking_act (h : Act s pc ds s' pc') (hid : id ∈ pc'.marking) :
    ∃ as, s.work.state.unsaturated = id :: as ∧ pc.claims ≠ 0 := by
  cases h with
  | takeUnsaturated h =>
    rw [List.mem_singleton.mp hid]
    exact ⟨_, h, Nat.one_ne_zero⟩
  | free _ h' => simp [h'] at hid
  | _ => cases hid

theorem Workspace.Among.grow (h : w.Among R id) (hg : w.Grows w') (hw : w.Coherent) :
    w'.Among R id :=
  h.imp fun _ hn => ⟨hg.find? hw hn.1, hn.2⟩

theorem Workspace.Unmarked.among (h : w.Unmarked id) :
    w.Among (fun n => ∃ id, w.state.find? n = some id) id := by
  obtain ⟨n, c, hst, _⟩ := h
  exact ⟨n, hst.1, id, hst.1⟩

theorem Ranked.saturated_act (hr : Ranked R s ps) (hw : s.work.Coherent) (hpc : pc ∈ ps)
    (h : Act s pc ds s' pc') : ∀ n id c, s'.work.Stands n id c → c.saturated = true → R n := by
  intro n id c' hst hs
  rcases Subsumption.saturated_act hw h hst hs with ⟨c, hst, hs⟩ | ⟨hid, hn⟩
  · exact hr.saturated n id c hst hs
  · obtain ⟨m, hm, hR⟩ := hr.marking pc hpc id hid
    exact hw.find?_inj hm hn ▸ hR

theorem ranked_act (hr : Ranked R s (pc ::ₘ rest)) (hw : s.work.Coherent)
    (hle : s.desk.counters.contextsFinished ≤ s.desk.counters.contextsProcessed)
    (h : Act s pc ds s' pc')
    (hq : Queueing PC.claims PC.raising s.work.state.unsaturated s'.work.state.unsaturated
      s.desk.counters.contextsProcessed s'.desk.counters.contextsProcessed
      s.desk.counters.contextsFinished s'.desk.counters.contextsFinished pc pc') :
    Ranked R s' (pc' ::ₘ rest) := by
  have hself : pc ∈ pc ::ₘ rest := Multiset.mem_cons_self _ _
  have hg := grows_act hw h
  obtain ⟨j, hj⟩ := hr.ranking
  refine ⟨hr.saturated_act hw hself h, ?_, ?_⟩
  · intro q hq id hid
    rcases Multiset.mem_cons.mp hq with rfl | hq
    · obtain ⟨as, hu, hc⟩ := marking_act h hid
      rw [hu] at hj
      exact (hj.ready hle hself hc).grow hg hw
    · exact (hr.marking q (Multiset.mem_cons_of_mem hq) id hid).grow hg hw
  · exact (hj.step hle hq).imp fun _ hj => hj.mono fun _ _ h => h.grow hg hw

theorem PC.idle_of_outside (h : pc.inPass = false) :
    pc.minded = none ∧ pc.hand = none ∧ pc.agenda = [] := by
  cases pc <;> first | cases h; done | exact ⟨rfl, rfl, rfl⟩

/-- When nothing is pending and no worker has anything in hand, the roots of all contexts are a
closed set. -/
theorem closed_known (hout : ∀ q ∈ ps, q.inPass = false) (ha : s.work.state.active = [])
    (hq : ∀ n id c, s.work.Stands n id c → c.pending = []) :
    Closed (fun n => ∃ id, s.work.state.find? n = some id) s ps := by
  refine ⟨fun _ h => h, ?_, ?_, ?_, ?_⟩
  · intro id hid
    rw [ha] at hid
    cases hid
  · intro n id c hst k hk
    rw [hq n id c hst] at hk
    cases hk
  · intro n id c hst hn
    exact absurd ⟨id, hst.1⟩ hn
  · intro q hq
    obtain ⟨hm, hh, ha⟩ := PC.idle_of_outside (hout q hq)
    exact PC.admitted_idle hm hh ha

theorem raising_le {k : Counters} {v : Nat} (hs : q.Sees k) (hv : v ∈ q.raising) :
    v ≤ k.contextsCreated := by
  cases q <;> cases hv
  · exact hs.1
  · exact hs.1

/-- Then all contexts that are not marked may be marked. -/
theorem ranked_known (he : Enrolled s ps) (hout : ∀ q ∈ ps, q.inPass = false) :
    Ranked (fun n => ∃ id, s.work.state.find? n = some id) s ps := by
  have hidle : ∀ q ∈ ps, q.agenda = [] := fun q hq => (PC.idle_of_outside (hout q hq)).2.2
  have hcreated := he.created
  have hqueued := he.queued
  have hprocessed := he.seen.ordered.contextsProcessed
  rw [total_eq_zero fun q hq => by rw [hidle q hq]; rfl] at hcreated hqueued
  refine ⟨fun n id c hst _ => ⟨id, hst.1⟩, ?_, _, .all ?_ (by omega) ?_⟩
  · exact fun q hq id hid => (he.unmarked_of_marking hq hid).among
  · intro id hid
    exact ((he.unmarked id).mp (Multiset.mem_add.mpr (Or.inl (Multiset.mem_coe.mpr hid)))).among
  · intro q hq v hv
    have := raising_le (he.seen.sees q hq) hv
    omega

/-! ### Every course -/

/-- What holds at all times. -/
structure Orderly (s : Saturation α σ) (ps : Multiset PC) : Prop where
  enrolled : Enrolled s ps
  watched : Watched s ps
  tended : Tended s ps
  sealed : ∃ R, Closed R s ps ∧ Ranked R s ps

theorem orderly_shift (h : Orderly s ps) (hs : Shift s ps ds s' ps') : Orderly s' ps' := by
  have he := enrolled_shift h.enrolled hs
  have hw := watched_shift h.enrolled.seen h.watched hs
  have ht := tended_shift h.enrolled.coherent h.tended hs
  refine ⟨he, hw, ht, ?_⟩
  obtain ⟨R, hc, hr⟩ := h.sealed
  have hc' := (closed_shift hc h.enrolled.coherent hs).1
  cases hs with
  | @act pc _ _ pc' rest hact =>
    have hself : pc ∈ pc ::ₘ rest := Multiset.mem_cons_self _ _
    have hclaims : pc.claims = 0 ∨ s.work.state.unsaturated ≠ [] :=
      (Classical.em _).imp_right (h.enrolled.unsaturated_ne_nil hself)
    rcases queueing_act hact (h.enrolled.seen.sees pc hself) hclaims with hf | hq
    · obtain ⟨hout, hi, rfl, rfl⟩ := hf
      have hnobody := fun q hq => he.seen.passes.nobody hout (q := q) hq
      have ha := h.watched.active_eq_nil h.enrolled.seen.passes hout hi
      have hquiet : ∀ n id c, s'.work.Stands n id c → c.pending = [] := fun n id c hst =>
        (ht.quiet hnobody ha hst).2
      exact ⟨_, closed_known hnobody ha hquiet, ranked_known he hnobody⟩
    · exact ⟨R, hc', ranked_act hr h.enrolled.coherent
        h.enrolled.seen.ordered.contextsFinished hact hq⟩
  | join =>
    refine ⟨R, hc', hr.saturated, ?_, hr.ranking.imp fun _ h => h.join rfl rfl⟩
    intro q hq id hid
    rcases Multiset.mem_cons.mp hq with rfl | hq
    · cases hid
    · exact hr.marking q hq id hid
  | submit | make | surroundings => exact ⟨R, hc', hr.saturated, hr.marking, hr.ranking⟩

theorem orderly_new (hs : s.Fresh) (workers : Nat) :
    Orderly s (.replicate workers .startPass) := by
  have hidle : ∀ q ∈ Multiset.replicate workers PC.startPass, q.inPass = false := fun q hq =>
    Multiset.eq_of_mem_replicate hq ▸ rfl
  have hnone : ∀ n id c, ¬ s.work.Stands n id c := fun _ _ _ => hs.not_stands
  have ha : s.work.state.active = [] := by
    obtain ⟨o, ho⟩ := hs.state
    rw [ho]
    rfl
  have he := enrolled_new hs workers
  exact ⟨he, Or.inl ha,
    ⟨fun n id c h => absurd h (hnone n id c), fun n id c h => absurd h (hnone n id c)⟩,
    _, closed_known hidle ha fun n id c h => absurd h (hnone n id c), ranked_known he hidle⟩

section
variable {obs : JobObserver α σ} {ds' : List Deed} {c₁ c₂ : Crew α σ} {d d' : Context}
  {workers : Nat}

theorem orderly_course (hs : s.Fresh) (h : Crew.Course obs (.new s workers) ds c₁) :
    Orderly c₁.shared c₁.places :=
  h.invariant (P := fun _ => Orderly) (Crew.places_new s workers ▸ orderly_new hs workers)
    fun _ _ _ _ _ _ => orderly_shift

/-- What is known about a saturated root stays as it is, but for links. -/
theorem linksAdded_course (h : Crew.Course obs c₁ ds' c₂) (ho : Orderly c₁.shared c₁.places)
    (hst : c₁.shared.work.Stands n id d) (hsat : d.saturated = true) :
    ∃ d', c₂.shared.work.Stands n id d' ∧ d'.saturated = true ∧ d.LinksAdded d' := by
  refine (h.invariant (P := fun _ s ps => Orderly s ps ∧
    ∃ d', s.work.Stands n id d' ∧ d'.saturated = true ∧ d.LinksAdded d')
    ⟨ho, d, hst, hsat, .refl d⟩ ?_).2
  rintro ds s ps ds' s' ps' ⟨ho, c, hst, hsat, hl⟩ hshift
  refine ⟨orderly_shift ho hshift, ?_⟩
  obtain ⟨R, hc, hr⟩ := ho.sealed
  have hw := ho.enrolled.coherent
  obtain ⟨c', hst', hl'⟩ := (closed_shift hc hw hshift).2 n id c hst (hr.saturated n id c hst hsat)
  obtain ⟨c'', hst'', hsat'⟩ := (grows_shift hw hshift).stands n id c hst
  cases hst'.2.symm.trans hst''.2
  exact ⟨c', hst', hsat' hsat, hl.trans hl'⟩

/-- When a context is marked saturated, nothing but links is pending for its root or on the way
there, and from then on nothing but links is added to what is known about it. -/
theorem saturated_is_final (hs : s.Fresh) (h : Crew.Course obs (.new s workers) ds c₁)
    (hst : c₁.shared.work.Stands n id d) (hsat : d.saturated = true) :
    (∀ k ∈ d.pending, ∃ source r, k = .backwardLink source r) ∧
    (∀ m ∈ c₁.members, ∀ k, m.pc.hand = some (id, k) → ∃ source r, k = .backwardLink source r) ∧
    (∀ m ∈ c₁.members, ∀ k, .push id k ∈ m.pc.agenda → ∃ source r, k = .backwardLink source r) ∧
    (∀ m ∈ c₁.members, ∀ ks, .locate n ks ∈ m.pc.agenda →
      ∀ k ∈ ks, ∃ source r, k = .backwardLink source r) ∧
    ∀ ds' c₂, Crew.Course obs c₁ ds' c₂ →
      ∃ d', c₂.shared.work.Stands n id d' ∧ d'.saturated = true ∧ d.LinksAdded d' := by
  have ho := orderly_course hs h
  obtain ⟨R, hc, hr⟩ := ho.sealed
  have hw := ho.enrolled.coherent
  have hn := hr.saturated n id d hst hsat
  have hworker : ∀ m ∈ c₁.members, m.pc.woken.Admitted R c₁.shared.work := fun m hm =>
    hc.workers _ (Crew.mem_places hm)
  have hplace : ∀ m, c₁.shared.work.state.find? m = some id → m = n := fun m hm =>
    hw.find?_inj hm hst.1
  refine ⟨fun k hk => (hc.pending n id d hst k hk).link hn, ?_, ?_, ?_, ?_⟩
  · intro m hm k hk
    obtain ⟨x, hx, ha⟩ := (hworker m hm).hand id k (by rwa [PC.hand_woken])
    exact (hplace x hx ▸ ha).link hn
  · intro m hm k hk
    obtain ⟨x, hx, ha⟩ := (hworker m hm).agenda (.push id k) (by rwa [PC.agenda_woken])
    exact (hplace x hx ▸ ha).link hn
  · intro m hm ks hks k hk
    exact ((hworker m hm).agenda (.locate n ks) (by rwa [PC.agenda_woken]) k hk).link hn
  · exact fun ds' c₂ h' => linksAdded_course h' ho hst hsat

end

namespace Crew

/-- The flag is never set, and the notices are counted. -/
def counting : JobObserver Unit Nat := ⟨fun e => (false, e), fun _ _ e => e + 1⟩

/-- One job, for A, over a new state. -/
def oneJob : Saturation Unit Nat :=
  ⟨Workspace.start (Ontology.after Workspace.throughFiller), #[.new ⟨2⟩ ()], .new 100 false, 0⟩

/-- Two workers have been called; a third one has queued the job, twice. -/
def called : Crew Unit Nat :=
  let third : Member := { Member.new with pc := .returned, jobs := ⟨2, 0, 0, 0⟩ }
  { Crew.new oneJob 2 with
    shared := (oneJob.pushToDo ⟨0⟩).pushToDo ⟨0⟩
    members := (Crew.new oneJob 2).members.push third }

theorem fresh_oneJob : oneJob.Fresh := by
  refine ⟨⟨_, rfl⟩, ⟨_, _, rfl⟩, ?_⟩
  rintro ⟨i⟩ j h
  have hi : i = 0 := by simpa [oneJob] using (Array.getElem?_eq_some_iff.mp h).1
  subst hi
  cases h
  rfl

theorem course_called :
    Course counting (.new oneJob 2) [.submitted ⟨0⟩, .submitted ⟨0⟩] called := by
  have h₁ : Course counting (.new oneJob 2) [] _ := Course.start.turn .join
  have h₂ : Course counting (.new oneJob 2) [.submitted ⟨0⟩] _ :=
    h₁.turn (.submit (i := 2) rfl rfl (by decide))
  exact h₂.turn (.submit (i := 2) rfl rfl (by decide))

/-- The two workers take turns until both have returned. -/
def returned : Crew Unit Nat := called.runTurns counting (· % 2) 400

theorem course_returned : Course counting (.new oneJob 2)
    (recordTurns counting (· % 2) 400 called ++ [.submitted ⟨0⟩, .submitted ⟨0⟩]) returned :=
  course_called.append (course_runTurns _ _ _ _)

end Crew

theorem saturated_is_final_oneJob : ∃ d, Crew.returned.shared.work.Stands ⟨2⟩ ⟨0⟩ d ∧
    d.saturated = true ∧ ∀ ds c, Crew.Course Crew.counting Crew.returned ds c →
      ∃ d', c.shared.work.Stands ⟨2⟩ ⟨0⟩ d' ∧ d'.saturated = true ∧ d.LinksAdded d' := by
  have hfind : Crew.returned.shared.work.state.find? ⟨2⟩ = some ⟨0⟩ := by decide +kernel
  have hsat : (Crew.returned.shared.work.context? ⟨0⟩).map (·.saturated) = some true := by
    decide +kernel
  obtain ⟨d, hd, hsat⟩ := Option.map_eq_some_iff.mp hsat
  obtain ⟨_, _, _, _, h⟩ :=
    saturated_is_final Crew.fresh_oneJob Crew.course_returned ⟨hfind, hd⟩ hsat
  exact ⟨d, ⟨hfind, hd⟩, hsat, h⟩

end Subsumption
