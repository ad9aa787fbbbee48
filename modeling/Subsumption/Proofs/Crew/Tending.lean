import Subsumption.Proofs.Crew.Enrolment
import Subsumption.Proofs.Firing

/-! No conclusion is left behind: a context with conclusions pending waits for a worker, or a worker
looks after it. -/
namespace Subsumption

variable {α σ : Type} {s s' : Saturation α σ} {ps ps' rest : Multiset PC} {pc pc' q : PC}
  {ds : List Deed} {w : Workspace} {n root : NodeId} {id x : ContextId} {c c' : Context}

namespace PC

/-- The context that the worker drains. -/
def held : PC → Option ContextId
  | .pop id | .derive id _ | .release id => some id
  | .act hand _ => hand.map Prod.fst
  | _ => none

/-- The context that the worker looks after, be it one that it has laid down. -/
def minded : PC → Option ContextId
  | .pop id | .derive id _ | .release id | .recheck id | .retake id => some id
  | .act hand _ => hand.map Prod.fst
  | _ => none

/-- The worker has taken the token of the context. -/
def Guards (id : ContextId) (pc : PC) : Prop := pc.held = some id ∨ .enqueue id ∈ pc.agenda

/-- The worker is going to look at what is pending in the context, or to have it looked at. -/
def Minds (id : ContextId) (pc : PC) : Prop :=
  pc.minded = some id ∨ .enqueue id ∈ pc.agenda ∨ .activate id ∈ pc.agenda

theorem held_free (h : pc.isFree = true) : pc.held = none := by
  cases pc <;> first | rfl | cases h

theorem minded_free (h : pc.isFree = true) : pc.minded = none := by
  cases pc <;> first | rfl | cases h

theorem Guards.minds (h : pc.Guards id) : pc.Minds id := by
  rcases h with h | h
  · left
    cases pc <;> first | exact h | cases h
  · exact Or.inr (Or.inl h)

end PC

/-- The context waits to be drained, or a worker has to do with it. -/
def Attended (P : ContextId → PC → Prop) (s : Saturation α σ) (ps : Multiset PC) (id : ContextId) :
    Prop :=
  id ∈ s.work.state.active ∨ ∃ q ∈ ps, P id q

/-- The token of a context is taken while the context waits or is in hand; what is pending in a
context is looked after. -/
structure Tended (s : Saturation α σ) (ps : Multiset PC) : Prop where
  token : ∀ n id c, s.work.Stands n id c → c.active = true → Attended PC.Guards s ps id
  pending : ∀ n id c, s.work.Stands n id c → c.pending ≠ [] → Attended PC.Minds s ps id

/-- What a step does to the tokens and to what is pending. -/
structure Passing (s : Saturation α σ) (pc : PC) (s' : Saturation α σ) (pc' : PC) : Prop where
  queue : ∀ id ∈ s.work.state.active, id ∈ s'.work.state.active ∨ pc'.Guards id
  token : ∀ n id c', s'.work.Stands n id c' → c'.active = true →
    pc'.Guards id ∨ ∃ c, s.work.Stands n id c ∧ c.active = true
  guard : ∀ n id c', s'.work.Stands n id c' → c'.active = true → pc.Guards id →
    id ∈ s'.work.state.active ∨ pc'.Guards id
  pending : ∀ n id c', s'.work.Stands n id c' → c'.pending ≠ [] →
    pc'.Minds id ∨ ∃ c, s.work.Stands n id c ∧ c.pending ≠ []
  mind : ∀ n id c', s'.work.Stands n id c' → c'.pending ≠ [] → pc.Minds id →
    id ∈ s'.work.state.active ∨ pc'.Minds id ∨ c'.active = true

/-- Contexts, tokens and queue stay as they are, and the worker goes on with what it has in hand. -/
theorem passing_same (hst : ∀ n id c', s'.work.Stands n id c' → ∃ c, s.work.Stands n id c ∧
      c.active = c'.active ∧ (c'.pending ≠ [] → c.pending ≠ []))
    (hq : s'.work.state.active = s.work.state.active) (hg : ∀ id, pc.Guards id → pc'.Guards id)
    (hm : ∀ id, pc.Minds id → pc'.Minds id) : Passing s pc s' pc' := by
  refine ⟨fun id hid => Or.inl (hq ▸ hid), ?_, fun _ id _ _ _ h => Or.inr (hg id h), ?_,
    fun _ id _ _ _ h => Or.inr (Or.inl (hm id h))⟩
  · intro n id c' hc' ha
    obtain ⟨c, hc, he, _⟩ := hst n id c' hc'
    exact Or.inr ⟨c, hc, he.trans ha⟩
  · intro n id c' hc' hp
    obtain ⟨c, hc, _, he⟩ := hst n id c' hc'
    exact Or.inr ⟨c, hc, he hp⟩

/-- Contexts and tokens stay as they are. -/
theorem passing_still (hst : ∀ n id c, s'.work.Stands n id c → s.work.Stands n id c)
    (hq : ∀ id ∈ s.work.state.active, id ∈ s'.work.state.active ∨ pc'.Guards id)
    (hg : ∀ id, pc.Guards id → id ∈ s'.work.state.active ∨ pc'.Guards id)
    (hm : ∀ n id c, s'.work.Stands n id c → c.pending ≠ [] → pc.Minds id →
      id ∈ s'.work.state.active ∨ pc'.Minds id ∨ c.active = true) : Passing s pc s' pc' :=
  ⟨hq, fun n id c hc ha => Or.inr ⟨c, hst n id c hc, ha⟩, fun _ id _ _ _ => hg id,
    fun n id c hc hp => Or.inr ⟨c, hst n id c hc, hp⟩, hm⟩

theorem stands_of_modify {f : Context → Context}
    (hf : ∀ c, w.context? id = some c → c.active = (f c).active ∧
      ((f c).pending ≠ [] → c.pending ≠ []))
    (h : (w.modify id f).Stands n x c') : ∃ c, w.Stands n x c ∧
      c.active = c'.active ∧ (c'.pending ≠ [] → c.pending ≠ []) := by
  obtain ⟨c, hc, rfl⟩ := (Workspace.stands_modify f).mp h
  refine ⟨c, hc, ?_⟩
  split
  · rename_i he
    exact hf c (he ▸ hc.2)
  · exact ⟨rfl, fun h => h⟩

/-- One context is changed: the worker guards it if its token is taken, has it looked after if
something becomes pending there, and gives up guarding it only when the token is given back. -/
theorem passing_modify {f : Context → Context} (hs : s'.work = s.work.modify id f)
    (ha : ∀ c, (f c).active = true → pc'.Guards id ∨ c.active = true)
    (hp : ∀ c, (f c).pending ≠ [] → pc'.Minds id ∨ c.pending ≠ [])
    (hg : ∀ x, pc.Guards x → pc'.Guards x ∨ x = id ∧ ∀ c, (f c).active = false)
    (hm : ∀ x, pc.Minds x → pc'.Minds x) : Passing s pc s' pc' := by
  have hst : ∀ {n x c'}, s'.work.Stands n x c' →
      ∃ c, s.work.Stands n x c ∧ c' = if x = id then f c else c :=
    fun h => (Workspace.stands_modify f).mp (hs ▸ h)
  refine ⟨fun x hx => Or.inl ?_, ?_, ?_, ?_, fun _ x _ _ _ h => Or.inr (Or.inl (hm x h))⟩
  · rw [hs, Workspace.state_modify]
    exact hx
  · intro n x c' hc' hact
    obtain ⟨c, hc, rfl⟩ := hst hc'
    split at hact
    · rename_i he
      exact (ha c hact).imp (fun h => he ▸ h) fun h => ⟨c, hc, h⟩
    · exact Or.inr ⟨c, hc, hact⟩
  · intro n x c' hc' hact hx
    obtain ⟨c, hc, rfl⟩ := hst hc'
    rcases hg x hx with h | ⟨he, hfree⟩
    · exact Or.inr h
    · rw [if_pos he, hfree] at hact
      cases hact
  · intro n x c' hc' hne
    obtain ⟨c, hc, rfl⟩ := hst hc'
    split at hne
    · rename_i he
      exact (hp c hne).imp (fun h => he ▸ h) fun h => ⟨c, hc, h⟩
    · exact Or.inr ⟨c, hc, hne⟩

/-- A context is opened, with its token to be had and nothing pending. -/
theorem passing_opened (hw : s.work.Coherent) (h : s.work.state.find? root = none)
    (hs : s'.work = (s.work.insertContext root).2) (hg : ∀ x, pc.Guards x → pc'.Guards x)
    (hm : ∀ x, pc.Minds x → pc'.Minds x) : Passing s pc s' pc' := by
  have hst : ∀ n id c, s'.work.Stands n id c →
      s.work.Stands n id c ∨ c.active = false ∧ c.pending = [] := by
    intro n id c hc
    rcases (Workspace.stands_insertContext hw h).mp (hs ▸ hc) with hc | ⟨_, _, rfl⟩
    · exact Or.inl hc
    · exact Or.inr ⟨rfl, rfl⟩
  refine ⟨fun id hid => Or.inl ?_, ?_, fun _ x _ _ _ h => Or.inr (hg x h), ?_,
    fun _ x _ _ _ h => Or.inr (Or.inl (hm x h))⟩
  · rw [hs, Workspace.state_insertContext]
    exact hid
  · intro n id c hc ha
    rcases hst n id c hc with hc | ⟨hno, _⟩
    · exact Or.inr ⟨c, hc, ha⟩
    · rw [hno] at ha
      cases ha
  · intro n id c hc hp
    rcases hst n id c hc with hc | ⟨_, hno⟩
    · exact Or.inr ⟨c, hc, hp⟩
    · exact absurd hno hp

theorem passing_does {hand : Option (ContextId × Conclusion)} {a : Action} {more rest : Agenda}
    (hw : s.work.Coherent) (h : a.Does s s' more) :
    Passing s (.act hand (a :: rest)) s' (.act hand (more ++ rest)) := by
  cases h with
  | opened h =>
    refine passing_opened hw h rfl ?_ ?_
    · simp [PC.Guards, PC.held, PC.agenda]
    · simp [PC.Minds, PC.minded, PC.agenda]
  | push =>
    refine passing_modify rfl (fun _ h => Or.inr h) ?_ ?_ ?_
    · simp [PC.Minds, PC.agenda]
    · intro x hx
      left
      simpa [PC.Guards, PC.held, PC.agenda] using hx
    · intro x
      simp only [PC.Minds, PC.minded, PC.agenda, List.mem_append, List.mem_cons]
      tauto
  | activate =>
    refine passing_modify rfl ?_ (fun _ h => Or.inr h) ?_ ?_
    · simp [PC.Guards, PC.agenda]
    · intro x
      simp [PC.Guards, PC.held, PC.agenda]
      tauto
    · intro x
      simp [PC.Minds, PC.minded, PC.agenda]
      tauto
  | enqueue =>
    refine passing_still (fun _ _ _ h => h) (fun x h => Or.inl (by simp [h])) ?_ ?_
    · intro x
      simp [PC.Guards, PC.held, PC.agenda]
      tauto
    · intro n x c _ _
      simp [PC.Minds, PC.minded, PC.agenda]
      tauto
  | @outrun id h =>
    refine passing_still (fun _ _ _ h => h) (fun _ h => Or.inl h) ?_ ?_
    · intro x hx
      right
      simpa [PC.Guards, PC.held, PC.agenda] using hx
    · intro n x c hc _ hm
      by_cases he : x = id
      · subst he
        rw [Workspace.isActive, hc.2] at h
        exact Or.inr (Or.inr h)
      · right
        left
        simpa [PC.Minds, PC.minded, PC.agenda, he] using hm
  | _ =>
    refine passing_same (fun n id c h => ⟨c, h, rfl, fun h => h⟩) rfl ?_ ?_
    · simp [PC.Guards, PC.held, PC.agenda]
    · simp [PC.Minds, PC.minded, PC.agenda]

theorem passing_act (hw : s.work.Coherent) (h : Act s pc ds s' pc') : Passing s pc s' pc' := by
  cases h with
  | perform h => exact passing_does hw h
  | mark =>
    refine passing_same (fun n x c' hc' => ?_) (by simp) (by simp [PC.Guards, PC.held, PC.agenda])
      (by simp [PC.Minds, PC.minded, PC.agenda])
    obtain ⟨c, hc, he⟩ := Workspace.stands_of_markSaturated hc'
    rw [he]
    exact ⟨c, hc, rfl, fun h => h⟩
  | @derive id k c hc =>
    refine passing_same (fun n x c' hc' => stands_of_modify ?_ hc') rfl ?_ ?_
    · intro c' hc'
      cases hc.symm.trans hc'
      exact ⟨(Workspace.active_derive c _ k).symm, fun h => Context.pending_derive ▸ h⟩
    · simp [PC.Guards, PC.held, PC.agenda]
    · simp [PC.Minds, PC.minded, PC.agenda]
  | @pop id c k rest hc hp =>
    refine passing_same (fun n x c' hc' => stands_of_modify ?_ hc') rfl ?_ ?_
    · intro c' hc'
      cases hc.symm.trans hc'
      refine ⟨rfl, fun _ h => ?_⟩
      rw [h] at hp
      cases hp
    · simp [PC.Guards, PC.held, PC.agenda]
    · simp [PC.Minds, PC.minded, PC.agenda]
  | release =>
    refine passing_modify rfl (fun _ h => ?_) (fun _ h => Or.inr h) ?_ ?_
    · cases h
    · simp [PC.Guards, PC.held, PC.agenda, eq_comm]
    · simp [PC.Minds, PC.minded, PC.agenda]
  | retake =>
    refine passing_modify rfl ?_ (fun _ h => Or.inr h) ?_ ?_
    · simp [PC.Guards, PC.held]
    · simp [PC.Guards, PC.held, PC.agenda]
    · simp [PC.Minds, PC.minded, PC.agenda]
  | @take id rest h =>
    refine passing_still (fun _ _ _ h => h) ?_ ?_ ?_
    · intro x hx
      rw [h] at hx
      rcases List.mem_cons.mp hx with rfl | hx
      · exact Or.inr (Or.inl rfl)
      · exact Or.inl hx
    · simp [PC.Guards, PC.held, PC.agenda]
    · simp [PC.Minds, PC.minded, PC.agenda]
  | @leave id h =>
    refine passing_still (fun _ _ _ h => h) (fun _ h => Or.inl h) ?_ ?_
    · simp [PC.Guards, PC.held, PC.agenda]
    · intro n x c hc hp hm
      have hx : x = id := by simpa [PC.Minds, PC.minded, PC.agenda, eq_comm] using hm
      rw [Workspace.hasPending, ← hx, hc.2] at h
      exact absurd (by simpa using h) hp
  | @outrun id h =>
    refine passing_still (fun _ _ _ h => h) (fun _ h => Or.inl h) ?_ ?_
    · simp [PC.Guards, PC.held, PC.agenda]
    · intro n x c hc hp hm
      have hx : x = id := by simpa [PC.Minds, PC.minded, PC.agenda, eq_comm] using hm
      rw [Workspace.isActive, ← hx, hc.2] at h
      exact Or.inr (Or.inr h)
  | free h =>
    refine passing_same (fun n id c h => ⟨c, h, rfl, fun h => h⟩) rfl ?_ ?_
    · simp [PC.Guards, PC.held_free h, h]
    · simp [PC.Minds, PC.minded_free h, h]
  | _ =>
    refine passing_same (fun n id c h => ⟨c, h, rfl, fun h => h⟩) rfl ?_ ?_
    · simp [PC.Guards, PC.held, PC.agenda]
    · simp [PC.Minds, PC.minded, PC.agenda]

theorem tended_shift (hw : s.work.Coherent) (ht : Tended s ps) (h : Shift s ps ds s' ps') :
    Tended s' ps' := by
  cases h with
  | @act pc _ _ pc' rest h =>
    have hp := passing_act hw h
    have hhere : ∀ {P : ContextId → PC → Prop} {id}, P id pc' → Attended P s' (pc' ::ₘ rest) id :=
      fun h => Or.inr ⟨pc', Multiset.mem_cons_self _ _, h⟩
    have htoken : ∀ n id c, s'.work.Stands n id c → c.active = true →
        Attended PC.Guards s' (pc' ::ₘ rest) id := by
      intro n id c' hc' ha
      rcases hp.token n id c' hc' ha with hg | ⟨c, hc, ha'⟩
      · exact hhere hg
      · rcases ht.token n id c hc ha' with hq | ⟨q, hq, hg⟩
        · exact (hp.queue id hq).imp_right fun hg => ⟨pc', Multiset.mem_cons_self _ _, hg⟩
        · rcases Multiset.mem_cons.mp hq with rfl | hq
          · exact (hp.guard n id c' hc' ha hg).imp_right
              fun hg => ⟨pc', Multiset.mem_cons_self _ _, hg⟩
          · exact Or.inr ⟨q, Multiset.mem_cons_of_mem hq, hg⟩
    refine ⟨htoken, ?_⟩
    intro n id c' hc' hne
    rcases hp.pending n id c' hc' hne with hm | ⟨c, hc, hne'⟩
    · exact hhere hm
    · rcases ht.pending n id c hc hne' with hq | ⟨q, hq, hm⟩
      · exact (hp.queue id hq).imp_right fun hg => ⟨pc', Multiset.mem_cons_self _ _, hg.minds⟩
      · rcases Multiset.mem_cons.mp hq with rfl | hq
        · rcases hp.mind n id c' hc' hne hm with hq | hm | ha
          · exact Or.inl hq
          · exact hhere hm
          -- Whoever has the token is going to look at what is pending.
          · exact (htoken n id c' hc' ha).imp_right fun ⟨q, hq, hg⟩ => ⟨q, hq, hg.minds⟩
        · exact Or.inr ⟨q, Multiset.mem_cons_of_mem hq, hm⟩
  | join =>
    have hjoin : ∀ {P : ContextId → PC → Prop} {id}, Attended P s ps id →
        Attended P s (.returned ::ₘ ps) id :=
      fun h => h.imp_right fun ⟨q, hq, h⟩ => ⟨q, Multiset.mem_cons_of_mem hq, h⟩
    exact ⟨fun n id c hc ha => hjoin (ht.token n id c hc ha),
      fun n id c hc hp => hjoin (ht.pending n id c hc hp)⟩
  | submit | make | surroundings => exact ⟨ht.token, ht.pending⟩

/-- While no worker is in a pass, a context has its token taken just if it waits for a worker, and
only those have anything pending. -/
theorem Tended.quiet (ht : Tended s ps) (hout : ∀ q ∈ ps, q.inPass = false)
    (ha : s.work.state.active = []) (hc : s.work.Stands n id c) :
    c.active = false ∧ c.pending = [] := by
  have hno : ∀ q ∈ ps, ¬ q.Minds id := by
    intro q hq hm
    have hin := hout q hq
    cases q <;> first | cases hin; done | simp [PC.Minds, PC.minded, PC.agenda] at hm
  constructor
  · by_contra hact
    rcases ht.token n id c hc (by simpa using hact) with hq | ⟨q, hq, hg⟩
    · rw [ha] at hq
      cases hq
    · exact hno q hq hg.minds
  · by_contra hne
    rcases ht.pending n id c hc hne with hq | ⟨q, hq, hm⟩
    · rw [ha] at hq
      cases hq
    · exact hno q hq hm

end Subsumption
