import Subsumption.Proofs.Crew.Completion
import Subsumption.Proofs.Handover

/-! The workers of a crew hand over their conclusions. What they do to queues and tokens, one atomic
action after the other, are the steps of couriers; all the rest is aside. -/
namespace Subsumption

variable {α σ : Type} {s s' : Saturation α σ} {pc pc' : PC} {ds : List Deed} {w w' : Workspace}
  {id : ContextId} {c : Courier} {i : Nat} {as rest more : Agenda} {R : NodeId → Prop}

/-! ### Workers as couriers -/

/-- Whether the action belongs to having a context queued after a push. -/
def Action.isErrand : Action → Bool
  | .activate _ | .enqueue _ => true
  | _ => false

namespace Agenda

/-- What is left to do for the conclusion that was pushed last. -/
def errand : Agenda → Errand
  | .activate id :: _ => .activate id
  | .enqueue id :: _ => .enqueue id
  | _ => .none

/-- To have a context queued is not put off. -/
def Prompt (as : Agenda) : Prop := ∀ a ∈ as.tail, a.isErrand = false

theorem errand_eq_none (h : ∀ a ∈ as, a.isErrand = false) : errand as = .none := by
  cases as with
  | nil => rfl
  | cons a as =>
    have ha := h a List.mem_cons_self
    cases a <;> first | rfl | cases ha

theorem prompt_of_forall (h : ∀ a ∈ as, a.isErrand = false) : Prompt as := fun a ha =>
  h a (List.mem_of_mem_tail ha)

theorem isErrand_map_ofEffect (id : ContextId) (es : List Effect) :
    ∀ a ∈ es.map (ofEffect id), a.isErrand = false := by
  intro a ha
  obtain ⟨e, _, rfl⟩ := List.mem_map.mp ha
  cases e <;> rfl

end Agenda

/-- The courier that a worker is at a place within a pass. -/
def PC.courier? : PC → Option Courier
  | .poll | .take => some ⟨.idle, .none⟩
  | .pop id | .derive id _ => some ⟨.draining id, .none⟩
  | .act none as => some ⟨.idle, as.errand⟩
  | .act (some (id, _)) as => some ⟨.draining id, as.errand⟩
  | .release id => some ⟨.closing id, .none⟩
  | .recheck id => some ⟨.rechecking id, .none⟩
  | .retake id => some ⟨.retaking id, .none⟩
  | _ => none

/-- The courier stands for a worker at the place. Between passes it may have left, if it was not
stopped by the flag. -/
structure PC.Fits (pc : PC) (c : Courier) : Prop where
  courier : pc.courier? = some c ∨ pc.courier? = none ∧ (c = ⟨.away, .none⟩ ∨ c = ⟨.idle, .none⟩)
  prompt : pc.agenda.Prompt

theorem PC.courier?_free (h : pc.isFree = true) : pc.courier? = none := by
  cases pc <;> first | rfl | cases h

namespace Traffic

/-- A step of the courier, or something aside. -/
def Follows (i : Nat) (w : Workspace) (c : Courier) (w' : Workspace) (c' : Courier) : Prop :=
  (∃ rs, Move i w c rs w' c') ∨ Aside w w' ∧ c' = c

theorem Aside.same (hstore : w'.store = w.store) (hactive : w'.state.active = w.state.active)
    (hcontexts : w'.state.contexts = w.state.contexts) : Aside w w' := by
  refine ⟨hactive, hcontexts, fun id => ?_⟩
  rw [Workspace.context?, hstore, ← Workspace.context?]

theorem Aside.modify {f : Context → Context}
    (hroot : ∀ d, w.context? id = some d → (f d).root = d.root)
    (hactive : ∀ d, w.context? id = some d → (f d).active = d.active)
    (hpending : ∀ d, w.context? id = some d → (f d).pending = d.pending) :
    Aside w (w.modify id f) := by
  refine ⟨rfl, rfl, fun x => ?_⟩
  rw [Workspace.context?_modify]
  split
  · subst x
    cases hd : w.context? id with
    | none => rfl
    | some d => simp [hroot d hd, hactive d hd, hpending d hd]
  · rfl

theorem aside_mark (w : Workspace) (id : ContextId) : Aside w (w.markSaturated id) := by
  have hmark : Aside w (w.modify id ({ · with saturated := true })) :=
    .modify (fun _ _ => rfl) (fun _ _ => rfl) fun _ _ => rfl
  unfold Workspace.markSaturated
  split
  · split
    · exact .same rfl rfl rfl
    · exact ⟨rfl, rfl, hmark.kept⟩
  · exact .same rfl rfl rfl

theorem follows_does {a : Action} {p : Station} (hp : p.isProducing = true)
    (ha : a.Admitted R s.work) (hprompt : Agenda.Prompt (a :: rest)) (h : a.Does s s' more) :
    Agenda.Prompt (more ++ rest) ∧ Follows i s.work ⟨p, Agenda.errand (a :: rest)⟩ s'.work
      ⟨p, Agenda.errand (more ++ rest)⟩ := by
  have hrest : Agenda.errand rest = .none := Agenda.errand_eq_none hprompt
  have hall : (∀ b ∈ more, b.isErrand = false) → ∀ b ∈ more ++ rest, b.isErrand = false :=
    fun hmore b hb => (List.mem_append.mp hb).elim (hmore b) (hprompt b)
  cases h with
  | found h =>
    have hmore := hall (by simp [Action.isErrand])
    refine ⟨Agenda.prompt_of_forall hmore, Or.inr ⟨.same rfl rfl rfl, ?_⟩⟩
    rw [Agenda.errand_eq_none hmore]
    rfl
  | opened h =>
    have hmore := hall (by simp +contextual [Action.isErrand, or_imp, forall_and])
    refine ⟨Agenda.prompt_of_forall hmore, Or.inl ⟨[], ?_⟩⟩
    rw [Agenda.errand_eq_none hmore]
    exact .opened hp h
  | push =>
    obtain ⟨n, hn, _⟩ := ha
    exact ⟨hprompt, Or.inl ⟨_, .push hp hn⟩⟩
  | outrun h =>
    refine ⟨Agenda.prompt_of_forall hprompt, Or.inl ⟨[], ?_⟩⟩
    rw [List.nil_append, hrest]
    exact .outrun h
  | activate h => exact ⟨hprompt, Or.inl ⟨_, .activate h⟩⟩
  | enqueue =>
    refine ⟨Agenda.prompt_of_forall hprompt, Or.inl ⟨[], ?_⟩⟩
    rw [List.nil_append, hrest]
    exact .enqueue
  | _ =>
    refine ⟨Agenda.prompt_of_forall hprompt, Or.inr ⟨.same rfl rfl rfl, ?_⟩⟩
    rw [List.nil_append, hrest]
    rfl

theorem follows_act (ha : pc.Admitted R s.work) (hf : pc.Fits c) (h : Act s pc ds s' pc') :
    ∃ c', pc'.Fits c' ∧ Follows i s.work c s'.work c' := by
  have hnil : Agenda.Prompt [] := fun a h => by cases h
  obtain ⟨hc, hp⟩ := hf
  have haside : pc.courier? = none → pc'.courier? = none → pc'.agenda.Prompt →
      Aside s.work s'.work → ∃ c', pc'.Fits c' ∧ Follows i s.work c s'.work c' := by
    intro hpc hpc' hp' hw
    rcases hc with hc | ⟨_, hc⟩
    · cases hpc.symm.trans hc
    · exact ⟨c, ⟨Or.inr ⟨hpc', hc⟩, hp'⟩, Or.inr ⟨hw, rfl⟩⟩
  have hidle : pc.courier? = none → pc'.courier? = some ⟨.idle, .none⟩ → pc'.agenda.Prompt →
      s'.work = s.work → ∃ c', pc'.Fits c' ∧ Follows i s.work c s'.work c' := by
    intro hpc hpc' hp' hw
    rcases hc with hc | ⟨_, rfl | rfl⟩
    · cases hpc.symm.trans hc
    · refine ⟨_, ⟨Or.inl hpc', hp'⟩, Or.inl ⟨[], ?_⟩⟩
      rw [hw]
      exact .arrive
    · exact ⟨_, ⟨Or.inl hpc', hp'⟩,
        Or.inr ⟨.same (by rw [hw]) (by rw [hw]) (by rw [hw]), rfl⟩⟩
  have hinside : ∀ {c₀ c'}, pc.courier? = some c₀ → pc'.courier? = some c' →
      pc'.agenda.Prompt → Follows i s.work c₀ s'.work c' →
      ∃ c', pc'.Fits c' ∧ Follows i s.work c s'.work c' := by
    intro c₀ c' hc₀ hc' hp' hfollows
    rcases hc with hc | ⟨hc, _⟩
    · cases hc₀.symm.trans hc
      exact ⟨c', ⟨Or.inl hc', hp'⟩, hfollows⟩
    · cases hc.symm.trans hc₀
  have hsame : ∀ {c}, Follows i s.work c s.work c := Or.inr ⟨.same rfl rfl rfl, rfl⟩
  cases h with
  | startPass => exact hidle rfl rfl hnil rfl
  | countJob => exact hidle rfl rfl hnil rfl
  | interrupted =>
    rcases hc with hc | ⟨hc, _⟩ <;> cases hc
    exact ⟨_, ⟨Or.inr ⟨rfl, Or.inr rfl⟩, hnil⟩, hsame⟩
  | polled => exact hinside rfl rfl hnil hsame
  | noneActive h =>
    rcases hc with hc | ⟨hc, _⟩ <;> cases hc
    have hnone : s.work.takeActive? = none := by rw [Workspace.takeActive?, h]
    exact ⟨⟨.away, .none⟩, ⟨Or.inr ⟨rfl, Or.inl rfl⟩, hnil⟩, Or.inl ⟨_, .leave hnone⟩⟩
  | take h =>
    exact hinside rfl rfl hnil (Or.inl ⟨_, .take (by rw [Workspace.takeActive?, h])⟩)
  | @drained id h =>
    refine hinside rfl rfl hnil (Or.inl ⟨_, .drained ?_⟩)
    cases hd : s.work.context? id with
    | none => simp [Workspace.pop?, hd]
    | some d => simp [Workspace.pop?, hd, h d hd]
  | @pop id d k rest hd hk =>
    have hpop : s.work.pop? id = some (k, s.work.modify id (·.popped)) := by
      simp [Workspace.pop?, hd, hk]
    exact hinside rfl rfl hnil (Or.inl ⟨_, .pop hpop⟩)
  | lost | applied | asked => exact hinside rfl rfl hnil hsame
  | @derive id k d hd =>
    have hderived : Aside s.work (s.work.modify id fun _ =>
        (d.derive s.work.state.ontology (s.work.layout id) k).1) := by
      refine .modify ?_ ?_ ?_ <;> intro e he <;> cases hd.symm.trans he
      · exact Workspace.root_derive _ _
      · exact Workspace.active_derive _ _ _
      · exact Context.pending_derive
    have hnone := Agenda.isErrand_map_ofEffect id
      (d.derive s.work.state.ontology (s.work.layout id) k).2
    refine hinside rfl rfl (Agenda.prompt_of_forall hnone) (Or.inr ⟨hderived, ?_⟩)
    rw [Agenda.errand_eq_none hnone]
  | @perform hand a rest s' more h =>
    have hadmitted := ha.agenda a List.mem_cons_self
    cases hand with
    | none =>
      obtain ⟨hprompt, hfollows⟩ := follows_does (i := i) (p := .idle) rfl hadmitted hp h
      exact hinside rfl rfl hprompt hfollows
    | some x =>
      obtain ⟨hprompt, hfollows⟩ := follows_does (i := i) (p := .draining x.1) rfl hadmitted hp h
      exact hinside rfl rfl hprompt hfollows
  | release => exact hinside rfl rfl hnil (Or.inl ⟨_, .release⟩)
  | leave h => exact hinside rfl rfl hnil (Or.inl ⟨_, .settle h⟩)
  | goBack h => exact hinside rfl rfl hnil (Or.inl ⟨_, .goBack h⟩)
  | outrun h => exact hinside rfl rfl hnil (Or.inl ⟨_, .forgo h⟩)
  | retake h => exact hinside rfl rfl hnil (Or.inl ⟨_, .retake h⟩)
  | mark => exact haside rfl rfl hnil (aside_mark _ _)
  | free hpc hpc' =>
    exact haside (PC.courier?_free hpc) (PC.courier?_free hpc') (PC.agenda_free hpc' ▸ hnil)
      (.same rfl rfl rfl)
  -- Everything else happens between the passes and leaves the contexts alone.
  | _ => exact haside rfl rfl hnil (.same rfl rfl rfl)

theorem step_of_follows {t : Traffic Nat} (h : Follows i t.work (t.couriers i) w' c) :
    ∃ rs, Step t rs ⟨w', Function.update t.couriers i c⟩ := by
  rcases h with ⟨rs, h⟩ | ⟨h, rfl⟩
  · exact ⟨rs, .move i h⟩
  · refine ⟨[], ?_⟩
    rw [Function.update_eq_self]
    exact .aside h

end Traffic

/-! ### Crews as traffic -/

namespace Crew

variable {obs : JobObserver α σ} {cr cr' : Crew α σ} {workers : Nat} {t : Traffic Nat}
  {m m' : Member} {members : Array Member} {lock : Option Nat}

/-- The couriers stand for the workers of the crew, number by number, and have its workspace. -/
structure Likened (cr : Crew α σ) (t : Traffic Nat) : Prop where
  work : t.work = cr.shared.work
  fits : ∀ (i : Nat) (m : Member), cr.members[i]? = some m → m.pc.woken.Fits (t.couriers i)
  later : ∀ i, cr.members.size ≤ i → t.couriers i = ⟨.away, .none⟩

theorem likened_new (s : Saturation α σ) (workers : Nat) :
    Likened (.new s workers) (.new Nat s.work) := by
  refine ⟨rfl, fun i m hm => ?_, fun _ _ => rfl⟩
  have hstart : m.pc = .startPass := by
    obtain ⟨_, rfl⟩ := Array.getElem?_eq_some_iff.mp hm
    simp [Crew.new, Member.new]
  rw [hstart]
  exact ⟨Or.inr ⟨rfl, Or.inl rfl⟩, fun a h => by cases h⟩

theorem woken_of_wakeAll {j : Nat} (h : (wakeAll members)[j]? = some m') :
    ∃ m, members[j]? = some m ∧ m'.pc.woken = m.pc.woken := by
  rw [wakeAll, Array.getElem?_map, Option.map_eq_some_iff] at h
  obtain ⟨m, hm, rfl⟩ := h
  refine ⟨m, hm, ?_⟩
  split
  · rename_i he
    rw [he]
    rfl
  · rfl

/-- One worker is replaced, and others may be woken. -/
theorem Likened.set (hl : Likened cr t) (hf : m'.pc.woken.Fits c) (hi : i < cr.members.size)
    (hsize : members.size = cr.members.size)
    (hset : ∀ (j : Nat) (x : Member), members[j]? = some x →
      ∃ y : Member, (cr.members.setIfInBounds i m')[j]? = some y ∧ x.pc.woken = y.pc.woken) :
    Likened ⟨s', lock, members⟩ ⟨s'.work, Function.update t.couriers i c⟩ := by
  refine ⟨rfl, fun j x hx => ?_, fun j hj => ?_⟩
  · obtain ⟨y, hy, he⟩ := hset j x hx
    dsimp only
    by_cases hj : j = i
    · subst hj
      rw [Array.getElem?_setIfInBounds_self_of_lt hi] at hy
      cases hy
      rw [Function.update_self, he]
      exact hf
    · rw [Array.getElem?_setIfInBounds_ne (Ne.symm hj)] at hy
      rw [Function.update_of_ne hj, he]
      exact hl.fits j y hy
  · have hj : cr.members.size ≤ j := hsize ▸ hj
    have hne : j ≠ i := by omega
    dsimp only
    rw [Function.update_of_ne hne]
    exact hl.later j hj

theorem Likened.follow (hl : Likened cr t) (hm : cr.members[i]? = some m)
    (hf : m'.pc.woken.Fits c)
    (h : Traffic.Follows i cr.shared.work (t.couriers i) s'.work c)
    (hsize : members.size = cr.members.size)
    (hset : ∀ (j : Nat) (x : Member), members[j]? = some x →
      ∃ y : Member, (cr.members.setIfInBounds i m')[j]? = some y ∧ x.pc.woken = y.pc.woken) :
    ∃ rs t', Traffic.Step t rs t' ∧ Likened ⟨s', lock, members⟩ t' := by
  obtain ⟨hi, _⟩ := Array.getElem?_eq_some_iff.mp hm
  rw [← hl.work] at h
  obtain ⟨rs, hstep⟩ := Traffic.step_of_follows h
  exact ⟨rs, _, hstep, hl.set hf hi hsize hset⟩

theorem likened_turn (hl : Likened cr t)
    (hadmitted : ∀ m ∈ cr.members, m.pc.woken.Admitted R cr.shared.work)
    (h : Turn obs cr ds cr') : ∃ rs t', Traffic.Step t rs t' ∧ Likened cr' t' := by
  have hact : ∀ {i : Nat} {ds pc'} {s' : Saturation α σ} {m : Member}, cr.members[i]? = some m →
      Act cr.shared m.pc.woken ds s' pc' →
      ∃ c', pc'.Fits c' ∧ Traffic.Follows i cr.shared.work (t.couriers i) s'.work c' :=
    fun {i _ _ _ m} hm h => Traffic.follows_act (hadmitted m (Array.mem_of_getElem? hm))
      (hl.fits i m hm) h
  have haside : Traffic.Step t [] t := .aside (.same rfl rfl rfl)
  cases h with
  | @step i m c' hm h =>
    simp only [Crew.step, hm] at h
    cases hs : m.step obs cr.shared cr.lock i with
    | none => rw [hs] at h; cases h
    | some mv =>
      rw [hs] at h
      cases h
      have hawake := awake_of_act (act_of_step hs)
      obtain ⟨c', hfits, hfollows⟩ := hact hm (hawake.symm ▸ act_of_step hs)
      refine hl.follow hm hfits hfollows ?_ ?_
      · split <;> simp [wakeAll]
      · intro j x hx
        split at hx
        · exact woken_of_wakeAll hx
        · exact ⟨x, hx, rfl⟩
  | @call i m hm hr =>
    have hcall : Act cr.shared m.pc.woken [] cr.shared .startPass := by
      rw [hr]
      exact .call
    obtain ⟨c', hfits, hfollows⟩ := hact hm hcall
    have hfits : ({ m with pc := .startPass } : Member).pc.woken.Fits c' := hfits
    exact hl.follow hm hfits hfollows (by simp) fun j x hx => ⟨x, hx, rfl⟩
  | @submit i m job hm hr hj =>
    have hfits : ({ m with jobs := { m.jobs with submitted := m.jobs.submitted + 1 } } :
      Member).pc.woken.Fits (t.couriers i) := hl.fits i m hm
    exact hl.follow hm hfits (Or.inr ⟨.same rfl rfl rfl, rfl⟩) (by simp)
      fun j x hx => ⟨x, hx, rfl⟩
  | join =>
    refine ⟨[], t, haside, hl.work, fun i m hm => ?_, fun i hi => ?_⟩
    · rw [Array.getElem?_push] at hm
      split at hm
      · rename_i hi
        cases hm
        rw [hl.later i hi.ge]
        exact ⟨Or.inr ⟨rfl, Or.inl rfl⟩, fun a h => by cases h⟩
      · exact hl.fits i m hm
    · rw [Array.size_push] at hi
      exact hl.later i (Nat.le_of_succ_le hi)
  | make | surroundings | alert => exact ⟨[], t, haside, hl.work, hl.fits, hl.later⟩
  | wake =>
    refine ⟨[], t, haside, hl.work, fun i m hm => ?_, fun i hi => hl.later i ?_⟩
    · obtain ⟨m', hm', hwoken⟩ := woken_of_wakeAll hm
      rw [hwoken]
      exact hl.fits i m' hm'
    · simpa [wakeAll] using hi

/-- Every course of a crew is a run of couriers, those of its workers. -/
theorem likened_course (hs : s.Fresh) (h : Course obs (.new s workers) ds cr) :
    ∃ rs t, Traffic.Runs (.new Nat s.work) rs t ∧ Likened cr t := by
  induction h with
  | start => exact ⟨[], _, .start, likened_new s workers⟩
  | turn h ht ih =>
    obtain ⟨rs, t, hruns, hl⟩ := ih
    obtain ⟨R, hclosed, _⟩ := (orderly_course hs h).sealed
    obtain ⟨rs', t', hstep, hl'⟩ := likened_turn hl
      (fun m hm => hclosed.workers _ (mem_places hm)) ht
    exact ⟨_, t', hruns.step hstep, hl'⟩

end Crew

@[simp] theorem PC.held_woken (pc : PC) : pc.woken.held = pc.held := by
  cases pc <;> rfl

theorem PC.held_of_courier? (h : pc.courier? = none) : pc.held = none := by
  cases pc with
  | act hand as => cases hand <;> cases h
  | _ => first | rfl | cases h

theorem PC.Fits.held (h : pc.Fits c) : c.held .drains = pc.held := by
  obtain ⟨hc | ⟨hc, hout⟩, _⟩ := h
  · cases pc with
    | act hand as => cases hand <;> cases hc <;> rfl
    | _ => cases hc <;> rfl
  · rw [PC.held_of_courier? hc]
    rcases hout with rfl | rfl <;> rfl

namespace Crew

/-- A context is drained by one worker of the crew, and does not wait for another one meanwhile. -/
theorem Course.drained_by_one {obs : JobObserver α σ} {cr : Crew α σ} {workers : Nat}
    (hs : s.Fresh) (h : Course obs (.new s workers) ds cr) :
    cr.shared.work.state.active.Nodup ∧
    ∀ (i : Nat) (m : Member), cr.members[i]? = some m → m.pc.held = some id →
      id ∉ cr.shared.work.state.active ∧
        ∀ (j : Nat) (m' : Member), cr.members[j]? = some m' → m'.pc.held = some id → j = i := by
  obtain ⟨o, ho⟩ := hs.state
  obtain ⟨rs, t, hruns, hl⟩ := likened_course hs h
  have hsole := (Traffic.sound_run ho hruns).sole
  rw [hl.work] at hsole
  have hhold : ∀ (i : Nat) (m : Member), cr.members[i]? = some m → m.pc.held = some id →
      t.hold (i, .drains) = some id := by
    intro i m hm hid
    rw [Traffic.hold, (hl.fits i m hm).held, PC.held_woken, hid]
  refine ⟨hsole.nodup, fun i m hm hid => ⟨hsole.apart _ id (hhold i m hm hid), ?_⟩⟩
  intro j m' hm' hid'
  cases hsole.single _ _ id (hhold j m' hm' hid') (hhold i m hm hid)
  rfl

end Crew

end Subsumption
