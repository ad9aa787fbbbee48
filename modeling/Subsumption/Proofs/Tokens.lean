import Mathlib.Data.List.Nodup
import Mathlib.Tactic.Tauto
import Subsumption.Proofs.Couriers
import Subsumption.Proofs.Standing

/-! Whoever has taken the token of a context has it in one hand, or has put the context into the
active queue, once. -/
namespace Subsumption

namespace Traffic

variable {ι : Type} {w w' : Workspace} {c c' : Courier} {n root : NodeId} {id x : ContextId}
  {d d' : Context} {k : Conclusion} {rs rs' : Record ι} {i j : ι} {t t' t₀ : Traffic ι}

/-! ### Queue and hands -/

section
variable {A : Type} [DecidableEq A] {queue : List ContextId} {hold : A → Option ContextId} {a : A}

/-- Every context is in the queue or in a hand, once. -/
structure Sole (queue : List ContextId) (hold : A → Option ContextId) : Prop where
  nodup : queue.Nodup
  apart : ∀ a id, hold a = some id → id ∉ queue
  single : ∀ a b id, hold a = some id → hold b = some id → a = b

/-- The context waits in the queue, or is in a hand. -/
def Claimed (queue : List ContextId) (hold : A → Option ContextId) (id : ContextId) : Prop :=
  id ∈ queue ∨ ∃ a, hold a = some id

theorem held_update {v : Option ContextId} {b : A} : Function.update hold a v b = some x ↔
    b = a ∧ v = some x ∨ b ≠ a ∧ hold b = some x := by
  by_cases hb : b = a
  · subst hb
    simp
  · simp [hb]

/-- One hand is emptied, or it takes hold of a context that is nowhere else. -/
theorem Sole.update {v : Option ContextId} (h : Sole queue hold)
    (hv : ∀ id, v = some id → id ∉ queue ∧ ∀ b, hold b = some id → b = a) :
    Sole queue (Function.update hold a v) := by
  refine ⟨h.nodup, ?_, ?_⟩
  · intro b x hb
    rcases held_update.mp hb with ⟨_, hb⟩ | ⟨_, hb⟩
    · exact (hv x hb).1
    · exact h.apart b x hb
  · intro b b' x hb hb'
    rcases held_update.mp hb with ⟨he, hb⟩ | ⟨hne, hb⟩ <;>
      rcases held_update.mp hb' with ⟨he', hb'⟩ | ⟨hne', hb'⟩
    · exact he.trans he'.symm
    · exact absurd ((hv x hb).2 b' hb') hne'
    · exact absurd ((hv x hb').2 b hb) hne
    · exact h.single b b' x hb hb'

theorem claimed_update {v : Option ContextId} : Claimed queue (Function.update hold a v) x ↔
    x ∈ queue ∨ v = some x ∨ ∃ b, b ≠ a ∧ hold b = some x := by
  unfold Claimed
  refine or_congr_right ⟨?_, ?_⟩
  · rintro ⟨b, hb⟩
    exact (held_update.mp hb).imp (·.2) fun hb => ⟨b, hb⟩
  · rintro (hv | ⟨b, hb⟩)
    · exact ⟨a, held_update.mpr (Or.inl ⟨rfl, hv⟩)⟩
    · exact ⟨b, held_update.mpr (Or.inr hb)⟩

theorem Sole.take (h : Sole (id :: queue) hold) (ha : hold a = none) :
    Sole queue (Function.update hold a (some id)) ∧
      ∀ x, Claimed queue (Function.update hold a (some id)) x ↔ Claimed (id :: queue) hold x := by
  obtain ⟨hid, hq⟩ := List.nodup_cons.mp h.nodup
  have hrest : Sole queue hold :=
    ⟨hq, fun b x hb hx => h.apart b x hb (List.mem_cons_of_mem _ hx), h.single⟩
  refine ⟨hrest.update ?_, fun x => ?_⟩
  · rintro _ ⟨⟩
    exact ⟨hid, fun b hb => absurd List.mem_cons_self (h.apart b id hb)⟩
  · have hother : ∀ b, hold b = some x → b ≠ a := by
      rintro b hb rfl
      cases ha.symm.trans hb
    rw [claimed_update, Claimed, List.mem_cons, Option.some.injEq]
    constructor
    · rintro (hx | rfl | ⟨b, _, hb⟩)
      · exact Or.inl (Or.inr hx)
      · exact Or.inl (Or.inl rfl)
      · exact Or.inr ⟨b, hb⟩
    · rintro ((rfl | hx) | ⟨b, hb⟩)
      · exact Or.inr (Or.inl rfl)
      · exact Or.inl hx
      · exact Or.inr (Or.inr ⟨b, hother b hb, hb⟩)

/-- What is held by one hand only is not held any more once the hand is emptied. -/
theorem Sole.claimed_emptied (h : Sole queue hold) (ha : hold a = some id) :
    Claimed queue (Function.update hold a none) x ↔ Claimed queue hold x ∧ x ≠ id := by
  rw [claimed_update, Claimed]
  constructor
  · rintro (hx | hx | ⟨b, hne, hb⟩)
    · refine ⟨Or.inl hx, ?_⟩
      rintro rfl
      exact h.apart a x ha hx
    · cases hx
    · refine ⟨Or.inr ⟨b, hb⟩, ?_⟩
      rintro rfl
      exact hne (h.single b a x hb ha)
  · rintro ⟨hx | ⟨b, hb⟩, hne⟩
    · exact Or.inl hx
    · refine Or.inr (Or.inr ⟨b, ?_, hb⟩)
      rintro rfl
      exact hne (Option.some.inj (hb.symm.trans ha))

/-- Giving a token back. -/
theorem Sole.empty (h : Sole queue hold) : Sole queue (Function.update hold a none) :=
  h.update fun _ hv => by cases hv

theorem Sole.enqueue (h : Sole queue hold) (ha : hold a = some id) :
    Sole (queue ++ [id]) (Function.update hold a none) ∧
      ∀ x, Claimed (queue ++ [id]) (Function.update hold a none) x ↔ Claimed queue hold x := by
  refine ⟨⟨?_, ?_, h.empty.single⟩, fun x => ?_⟩
  · rw [← List.concat_eq_append]
    exact h.nodup.concat (h.apart a id ha)
  · intro b x hb hx
    rcases held_update.mp hb with ⟨_, hb⟩ | ⟨hne, hb⟩
    · cases hb
    · rcases List.mem_append.mp hx with hx | hx
      · exact h.apart b x hb hx
      · obtain rfl := List.mem_singleton.mp hx
        exact hne (h.single b a x hb ha)
  · have hemptied := h.claimed_emptied (x := x) ha
    have hself : x = id → Claimed queue hold x := by
      rintro rfl
      exact Or.inr ⟨a, ha⟩
    unfold Claimed at hemptied hself ⊢
    rw [List.mem_append, List.mem_singleton]
    tauto

/-- Taking a token that nobody has. -/
theorem Sole.grab (h : Sole queue hold) (hid : ¬ Claimed queue hold id) (ha : hold a = none) :
    Sole queue (Function.update hold a (some id)) ∧
      ∀ x, Claimed queue (Function.update hold a (some id)) x ↔ Claimed queue hold x ∨ x = id := by
  refine ⟨h.update ?_, fun x => ?_⟩
  · rintro _ ⟨⟩
    exact ⟨fun hq => hid (Or.inl hq), fun b hb => absurd (Or.inr ⟨b, hb⟩) hid⟩
  · have hother : ∀ b, hold b = some x → b ≠ a := by
      rintro b hb rfl
      cases ha.symm.trans hb
    rw [claimed_update, Claimed, Option.some.injEq]
    constructor
    · rintro (hx | rfl | ⟨b, _, hb⟩)
      · exact Or.inl (Or.inl hx)
      · exact Or.inr rfl
      · exact Or.inl (Or.inr ⟨b, hb⟩)
    · rintro ((hx | ⟨b, hb⟩) | rfl)
      · exact Or.inl hx
      · exact Or.inr (Or.inr ⟨b, hother b hb, hb⟩)
      · exact Or.inr (Or.inl rfl)

end

/-- What the hands of all workers hold. -/
def hold (t : Traffic ι) (a : ι × Hand) : Option ContextId := (t.couriers a.1).held a.2

/-- A token is taken just while its context waits in the queue or is in a hand; contexts are in one
such place at most, and all that workers deal with are contexts of the state. -/
structure Guarded (t : Traffic ι) : Prop where
  coherent : t.work.Coherent
  sole : Sole t.work.state.active t.hold
  token : ∀ n id d, t.work.Stands n id d →
    (d.active = true ↔ Claimed t.work.state.active t.hold id)
  queued : ∀ id ∈ t.work.state.active, ∃ n, t.work.state.find? n = some id
  minded : ∀ i id, (t.couriers i).Minds id → ∃ n, t.work.state.find? n = some id

theorem Guarded.stands (hg : t.Guarded)
    (hx : x ∈ t.work.state.active ∨ ∃ j, (t.couriers j).Minds x) :
    ∃ n d, t.work.Stands n x d := by
  have hn : ∃ n, t.work.state.find? n = some x := by
    rcases hx with hx | ⟨j, hx⟩
    · exact hg.queued x hx
    · exact hg.minded j x hx
  obtain ⟨n, hn⟩ := hn
  obtain ⟨d, hd, _⟩ := hg.coherent.rooted n x hn
  exact ⟨n, d, hn, hd⟩

theorem Guarded.stands_of_claimed (hg : t.Guarded) (hx : Claimed t.work.state.active t.hold x) :
    ∃ n d, t.work.Stands n x d :=
  hg.stands (hx.imp_right fun ⟨a, ha⟩ => ⟨a.1, Courier.minds_of_held ha⟩)

/-- Nobody has the token of a context that is seen without it. -/
theorem Guarded.free (hg : t.Guarded) (hm : (t.couriers i).Minds id)
    (h : t.work.isActive id = false) : ¬ Claimed t.work.state.active t.hold id := by
  obtain ⟨n, d, hd⟩ := hg.stands (Or.inr ⟨i, hm⟩)
  rw [Workspace.isActive, hd.2] at h
  rw [← hg.token n id d hd]
  simpa using h

section
variable [DecidableEq ι]

theorem hold_same (hc : c.held = (t.couriers i).held) :
    hold ⟨w, Function.update t.couriers i c⟩ = t.hold := by
  funext ⟨j, l⟩
  by_cases hj : j = i
  · subst hj
    simp [hold, hc]
  · simp [hold, hj]

theorem hold_update {h : Hand} {v : Option ContextId}
    (hc : c.held = Function.update (t.couriers i).held h v) :
    hold ⟨w, Function.update t.couriers i c⟩ = Function.update t.hold (i, h) v := by
  funext ⟨j, l⟩
  by_cases hj : j = i
  · subst hj
    simp only [hold, Function.update_self, hc]
    by_cases hl : l = h
    · simp [hl]
    · simp [hl, hold]
  · simp [hold, hj]

theorem minds_update {P : ContextId → Prop} (hc : ∀ x, c.Minds x → P x)
    (ht : ∀ j x, (t.couriers j).Minds x → P x) :
    ∀ j x, (Function.update t.couriers i c j).Minds x → P x := by
  intro j x hx
  by_cases hj : j = i
  · subst hj
    rw [Function.update_self] at hx
    exact hc x hx
  · rw [Function.update_of_ne hj] at hx
    exact ht j x hx

/-- Contexts and tokens stay as they are, and what was claimed still is. -/
theorem Guarded.still (hg : t.Guarded) (hcontexts : w.state.contexts = t.work.state.contexts)
    (hstore : w.store = t.work.store)
    (hsole : Sole w.state.active (hold ⟨w, Function.update t.couriers i c⟩))
    (hclaimed : ∀ x, Claimed w.state.active (hold ⟨w, Function.update t.couriers i c⟩) x ↔
      Claimed t.work.state.active t.hold x)
    (hqueued : ∀ x ∈ w.state.active, x ∈ t.work.state.active ∨ (t.couriers i).Minds x)
    (hminds : ∀ x, c.Minds x → x ∈ t.work.state.active ∨ (t.couriers i).Minds x) :
    Guarded ⟨w, Function.update t.couriers i c⟩ := by
  have hfind : ∀ n, w.state.find? n = t.work.state.find? n := fun n => by
    rw [State.find?, hcontexts, ← State.find?]
  have hcontext : ∀ x, w.context? x = t.work.context? x := fun x => by
    rw [Workspace.context?, hstore, ← Workspace.context?]
  have hknown : ∀ x, x ∈ t.work.state.active ∨ (t.couriers i).Minds x →
      ∃ n, w.state.find? n = some x := by
    intro x hx
    obtain ⟨n, _, hn, _⟩ := hg.stands (hx.imp_right fun h => ⟨i, h⟩)
    exact ⟨n, (hfind n).trans hn⟩
  refine ⟨⟨?_, ?_⟩, hsole, ?_, fun x hx => hknown x (hqueued x hx),
    minds_update (fun x hx => hknown x (hminds x hx)) ?_⟩
  · rw [hcontexts]
    exact hg.coherent.distinct
  · intro n x hx
    rw [hfind] at hx
    rw [hcontext]
    exact hg.coherent.rooted n x hx
  · intro n x d hd
    rw [hclaimed]
    exact hg.token n x d ⟨hfind n ▸ hd.1, hcontext x ▸ hd.2⟩
  · intro j x hx
    simp only [hfind]
    exact hg.minded j x hx

/-- One context is changed, and its token with it if it is claimed now or not any more. -/
theorem Guarded.modify {f : Context → Context} (hg : t.Guarded)
    (hroot : ∀ d, (f d).root = d.root)
    (hsole : Sole t.work.state.active
      (hold ⟨t.work.modify id f, Function.update t.couriers i c⟩))
    (htoken : ∀ n x d, t.work.Stands n x d → ((if x = id then f d else d).active = true ↔
      Claimed t.work.state.active (hold ⟨t.work.modify id f, Function.update t.couriers i c⟩) x))
    (hminds : ∀ x, c.Minds x → ∃ n, t.work.state.find? n = some x) :
    Guarded ⟨t.work.modify id f, Function.update t.couriers i c⟩ := by
  refine ⟨hg.coherent.modify id fun d _ => hroot d, hsole, ?_, hg.queued,
    minds_update hminds hg.minded⟩
  intro n x d' hd'
  obtain ⟨d, hd, rfl⟩ := (Workspace.stands_modify f).mp hd'
  exact htoken n x d hd

/-- The worker goes on with the tokens that it has. -/
theorem Guarded.goOn (hg : t.Guarded) (hheld : c.held = (t.couriers i).held)
    (hminds : ∀ x, c.Minds x → (t.couriers i).Minds x) :
    Guarded ⟨t.work, Function.update t.couriers i c⟩ := by
  have hsame := hold_same (w := t.work) hheld
  refine hg.still rfl rfl ?_ ?_ (fun _ hx => Or.inl hx) fun x hx => Or.inr (hminds x hx)
  · rw [hsame]
    exact hg.sole
  · intro x
    rw [hsame]

/-- What is pending in a context changes. -/
theorem Guarded.deal {f : Context → Context} (hg : t.Guarded) (hroot : ∀ d, (f d).root = d.root)
    (hactive : ∀ d, (f d).active = d.active) (hheld : c.held = (t.couriers i).held)
    (hminds : ∀ x, c.Minds x → ∃ n, t.work.state.find? n = some x) :
    Guarded ⟨t.work.modify id f, Function.update t.couriers i c⟩ := by
  have hsame := hold_same (w := t.work.modify id f) hheld
  refine hg.modify hroot ?_ ?_ hminds
  · rw [hsame]
    exact hg.sole
  · intro n x d hd
    rw [hsame, ← hg.token n x d hd]
    split
    · rw [hactive]
    · rfl

/-- A token that is seen free is taken. -/
theorem Guarded.grab (hg : t.Guarded) {h : Hand} (hm : (t.couriers i).Minds id)
    (hfree : t.work.isActive id = false) (hnone : (t.couriers i).held h = none)
    (hheld : c.held = Function.update (t.couriers i).held h (some id))
    (hminds : ∀ x, c.Minds x → (t.couriers i).Minds x) :
    Guarded ⟨t.work.setActive id true, Function.update t.couriers i c⟩ := by
  obtain ⟨hsole, hclaimed⟩ := hg.sole.grab (a := (i, h)) (hg.free hm hfree) hnone
  rw [Workspace.setActive]
  refine hg.modify (fun _ => rfl) ?_ ?_ fun x hx => hg.minded i x (hminds x hx)
  · rw [hold_update hheld]
    exact hsole
  · intro n x d hd
    rw [hold_update hheld, hclaimed, ← hg.token n x d hd]
    split <;> simp [*]

theorem Guarded.release (hg : t.Guarded) {h : Hand} (hsome : (t.couriers i).held h = some id)
    (hheld : c.held = Function.update (t.couriers i).held h none)
    (hminds : ∀ x, c.Minds x → (t.couriers i).Minds x) :
    Guarded ⟨t.work.setActive id false, Function.update t.couriers i c⟩ := by
  rw [Workspace.setActive]
  refine hg.modify (fun _ => rfl) ?_ ?_ fun x hx => hg.minded i x (hminds x hx)
  · rw [hold_update hheld]
    exact hg.sole.empty
  · intro n x d hd
    rw [hold_update hheld, hg.sole.claimed_emptied (a := (i, h)) hsome, ← hg.token n x d hd]
    split <;> simp [*]

theorem Guarded.opened (hg : t.Guarded) (h : t.work.state.find? root = none)
    (hheld : c.held = (t.couriers i).held) (hminds : ∀ x, c.Minds x → (t.couriers i).Minds x) :
    Guarded ⟨(t.work.insertContext root).2, Function.update t.couriers i c⟩ := by
  have hsame := hold_same (w := (t.work.insertContext root).2) hheld
  have hknown : ∀ x, (∃ n, t.work.state.find? n = some x) →
      ∃ n, (t.work.insertContext root).2.state.find? n = some x := by
    rintro x ⟨n, hn⟩
    exact ⟨n, by rw [Workspace.find?_insertContext, hn, Option.some_or]⟩
  refine ⟨hg.coherent.insertContext h, ?_, ?_, fun x hx => hknown x (hg.queued x hx),
    minds_update (fun x hx => hknown x (hg.minded i x (hminds x hx)))
      fun j x hx => hknown x (hg.minded j x hx)⟩
  · rw [hsame]
    exact hg.sole
  · intro n x d hd
    rw [hsame]
    rcases (Workspace.stands_insertContext hg.coherent h).mp hd with hd | ⟨_, rfl, rfl⟩
    · exact hg.token n x d hd
    -- Nobody can have to do with a context that was not there.
    · refine iff_of_false (by simp [Context.fresh]) fun hx => ?_
      obtain ⟨n, d, hd⟩ := hg.stands_of_claimed hx
      cases t.work.context?_nextId.symm.trans hd.2

theorem guarded_move (hg : t.Guarded) (hi : t.couriers i = c) (h : Move i t.work c rs w c') :
    Guarded ⟨w, Function.update t.couriers i c'⟩ := by
  cases h with
  | arrive | leave | outrun | drained | settle | goBack | forgo =>
    refine hg.goOn ?_ ?_ <;> rw [hi]
    · exact Hand.funext rfl rfl
    · simp +contextual [Courier.Minds, Station.context?, Errand.context?]
  | opened _ h =>
    refine hg.opened h ?_ ?_ <;> rw [hi]
    exact fun _ h => h
  | @push p n id k _ h =>
    refine hg.deal (fun _ => rfl) (fun _ => rfl) ?_ fun x hx => ?_
    · rw [hi]
      exact Hand.funext rfl rfl
    · by_cases he : x = id
      · exact ⟨n, he ▸ h⟩
      · refine hg.minded i x ?_
        rw [hi]
        simpa [Courier.Minds, Errand.context?, Ne.symm he] using hx
  | pop h =>
    obtain ⟨rfl, _⟩ := Workspace.context?_of_pop h
    refine hg.deal (fun _ => rfl) (fun _ => rfl) (by rw [hi]) fun x hx => hg.minded i x (hi ▸ hx)
  | activate h =>
    refine hg.grab (h := .queues) ?_ h ?_ ?_ ?_ <;> rw [hi]
    · simp [Courier.Minds, Station.context?, Errand.context?]
    · rfl
    · exact Hand.funext rfl rfl
    · simp [Courier.Minds, Station.context?, Errand.context?]
  | retake h =>
    refine hg.grab (h := .drains) ?_ h ?_ ?_ ?_ <;> rw [hi]
    · simp [Courier.Minds, Station.context?, Errand.context?]
    · rfl
    · exact Hand.funext rfl rfl
    · simp [Courier.Minds, Station.context?, Errand.context?]
  | release =>
    refine hg.release (h := .drains) ?_ ?_ ?_ <;> rw [hi]
    · rfl
    · exact Hand.funext rfl rfl
    · simp [Courier.Minds, Station.context?, Errand.context?]
  | @enqueue p id =>
    have hqueues : t.hold (i, .queues) = some id := by
      rw [hold, hi]
      rfl
    obtain ⟨hsole, hclaimed⟩ := hg.sole.enqueue hqueues
    have hheld : Courier.held ⟨p, .none⟩ = Function.update (t.couriers i).held .queues none := by
      rw [hi]
      exact Hand.funext rfl rfl
    refine hg.still rfl rfl ?_ ?_ ?_ ?_
    · rw [hold_update hheld]
      exact hsole
    · rw [hold_update hheld]
      exact hclaimed
    · intro x hx
      rw [hi]
      have hx : x ∈ t.work.state.active ∨ x = id := by simpa using hx
      refine hx.imp_right fun he => Or.inr ?_
      rw [he]
      rfl
    · intro x hx
      rw [hi]
      exact Or.inr (hx.imp_right fun h => by cases h)
  | @take id v h =>
    obtain ⟨rest, ha, rfl⟩ := Workspace.active_of_take h
    have hnone : t.hold (i, .drains) = none := by
      rw [hold, hi]
      rfl
    have hsole := hg.sole
    rw [ha] at hsole
    obtain ⟨hsole, hclaimed⟩ := hsole.take hnone
    have hheld : Courier.held ⟨.draining id, .none⟩ =
        Function.update (t.couriers i).held .drains (some id) := by
      rw [hi]
      exact Hand.funext rfl rfl
    refine hg.still rfl rfl ?_ ?_ ?_ ?_
    · rw [hold_update hheld]
      exact hsole
    · rw [hold_update hheld, ha]
      exact hclaimed
    · intro x hx
      rw [ha]
      exact Or.inl (List.mem_cons_of_mem _ hx)
    · simp [Courier.Minds, Station.context?, Errand.context?, ha]

end

end Traffic

end Subsumption
