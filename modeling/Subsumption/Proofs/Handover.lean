import Subsumption.Proofs.Tokens

/-! Conclusions come to the worker that drains their context: none is lost and none is handled
twice, though the queue of a context and its token are two things that nobody looks at together. -/
namespace Subsumption

namespace Traffic

variable {ι : Type} {w w' : Workspace} {c c' : Courier} {n root : NodeId} {id x : ContextId}
  {d d' : Context} {k : Conclusion} {rs rs' : Record ι} {i j : ι} {t t' t₀ : Traffic ι}

/-! ### What is pending -/

/-- What comes out of a queue is what has come in first. -/
theorem pending_move (hw : w.Coherent) (h : Move i w c rs w' c') (hd' : w'.Stands n x d') :
    (∃ d, w.Stands n x d ∧ d.pending ++ Record.pushes x rs = Record.pops x rs ++ d'.pending) ∨
      rs = [] ∧ (∀ m, w.state.find? m ≠ some x) ∧ d'.pending = [] := by
  cases h with
  | arrive | leave | outrun | enqueue | drained | settle | goBack | forgo =>
    exact Or.inl ⟨d', hd', by simp⟩
  | take h =>
    obtain ⟨rest, _, rfl⟩ := Workspace.active_of_take h
    exact Or.inl ⟨d', hd', by simp⟩
  | opened _ h =>
    rcases (Workspace.stands_insertContext hw h).mp hd' with hd | ⟨_, rfl, rfl⟩
    · exact Or.inl ⟨d', hd, by simp⟩
    · refine Or.inr ⟨rfl, fun m hm => ?_, rfl⟩
      obtain ⟨d, hd, _⟩ := hw.rooted m _ hm
      cases w.context?_nextId.symm.trans hd
  | activate | release | retake =>
    obtain ⟨d, hd, rfl⟩ := (Workspace.stands_modify _).mp hd'
    refine Or.inl ⟨d, hd, ?_⟩
    split <;> simp
  | @push _ _ id k =>
    obtain ⟨d, hd, rfl⟩ := (Workspace.stands_modify _).mp hd'
    refine Or.inl ⟨d, hd, ?_⟩
    by_cases he : x = id
    · simp [he, Context.push]
    · simp [he, Ne.symm he]
  | @pop id k v h =>
    obtain ⟨rfl, e, rest, he, hk⟩ := Workspace.context?_of_pop h
    obtain ⟨d, hd, rfl⟩ := (Workspace.stands_modify _).mp hd'
    refine Or.inl ⟨d, hd, ?_⟩
    by_cases hx : x = id
    · subst hx
      cases he.symm.trans hd.2
      simp [hk, Context.popped]
    · simp [hx, Ne.symm hx]

/-- Deals are about contexts of the state, which stay there. -/
theorem unknown_move (h : Move i w c rs w' c')
    (hc : ∀ x, c.Minds x → ∃ n, w.state.find? n = some x) (hx : ∀ n, w'.state.find? n ≠ some x) :
    (∀ n, w.state.find? n ≠ some x) ∧ Record.pushes x rs = [] ∧ Record.pops x rs = [] := by
  cases h with
  | arrive | leave | outrun | enqueue | drained | settle | goBack | forgo | activate | release
  | retake => exact ⟨hx, by simp⟩
  | take h =>
    obtain ⟨rest, _, rfl⟩ := Workspace.active_of_take h
    exact ⟨hx, by simp⟩
  | opened =>
    refine ⟨fun n hn => hx n ?_, by simp⟩
    rw [Workspace.find?_insertContext, hn, Option.some_or]
  | @push _ n id _ _ h =>
    have he : id ≠ x := by
      rintro rfl
      exact hx n h
    exact ⟨hx, by simp [he]⟩
  | @pop id _ _ h =>
    obtain ⟨rfl, _⟩ := Workspace.context?_of_pop h
    have he : id ≠ x := by
      rintro rfl
      obtain ⟨n, hn⟩ := hc id (Or.inl rfl)
      exact hx n hn
    exact ⟨hx, by simp [he]⟩

/-- A token is given back only by its holder, and that is put on record. -/
theorem token_move (hw : w.Coherent) (h : Move i w c rs w' c') (hd : w.Stands n x d)
    (hd' : w'.Stands n x d') (ha : d.active = true) :
    d'.active = true ∨ rs = [(i, .released x)] ∧ c'.station = .rechecking x := by
  have hkept : ∀ {id} {f : Context → Context}, w' = w.modify id f →
      (∀ d, (f d).active = d.active ∨ (f d).active = true) → d'.active = true := by
    rintro id f rfl hf
    obtain ⟨e, he, rfl⟩ := (Workspace.stands_modify f).mp hd'
    cases hd.2.symm.trans he.2
    split
    · exact (hf d).elim (fun h => h.trans ha) fun h => h
    · exact ha
  cases h with
  | opened _ h =>
    rcases (Workspace.stands_insertContext hw h).mp hd' with hd' | ⟨rfl, _, _⟩
    · cases hd.2.symm.trans hd'.2
      exact Or.inl ha
    · cases h.symm.trans hd.1
  | push => exact Or.inl (hkept rfl fun _ => Or.inl rfl)
  | activate | retake => exact Or.inl (hkept rfl fun _ => Or.inr rfl)
  | take h =>
    obtain ⟨rest, _, rfl⟩ := Workspace.active_of_take h
    cases hd.2.symm.trans hd'.2
    exact Or.inl ha
  | pop h =>
    obtain ⟨rfl, _⟩ := Workspace.context?_of_pop h
    exact Or.inl (hkept rfl fun _ => Or.inl rfl)
  | @release id =>
    obtain ⟨e, he, rfl⟩ := (Workspace.stands_modify _).mp hd'
    cases hd.2.symm.trans he.2
    by_cases hx : x = id
    · subst hx
      exact Or.inr ⟨rfl, rfl⟩
    · rw [if_neg hx]
      exact Or.inl ha
  | _ =>
    cases hd.2.symm.trans hd'.2
    exact Or.inl ha

theorem released_move (h : Move i w c rs w' c') {r : ι × Deal} (hr : r ∈ rs)
    (hx : r.2 = .released x) : rs = [(i, .released x)] ∧ c'.station = .rechecking x := by
  cases h with
  | release =>
    obtain rfl := List.mem_singleton.mp hr
    cases hx
    exact ⟨rfl, rfl⟩
  | push | pop =>
    obtain rfl := List.mem_singleton.mp hr
    cases hx
  | _ => cases hr

/-- Only the worker that has the token of a context takes conclusions from there. -/
theorem popped_move (h : Move i w c rs w' c') (hr : (j, Deal.popped id k) ∈ rs) :
    j = i ∧ c.held .drains = some id := by
  cases h with
  | pop =>
    cases List.mem_singleton.mp hr
    exact ⟨rfl, rfl⟩
  | push | release => cases List.mem_singleton.mp hr
  | _ => cases hr

/-- An attempt to take a token ends with the token taken, by whomever. -/
theorem errand_move (h : Move i w c rs w' c') (hc : c.errand = .activate x)
    (hd' : w'.Stands n x d') : d'.active = true := by
  cases h with
  | outrun h =>
    cases hc
    rwa [Workspace.isActive, hd'.2] at h
  | activate h =>
    cases hc
    obtain ⟨d, _, rfl⟩ := (Workspace.stands_modify _).mp hd'
    rw [if_pos rfl]
  | _ => cases hc

/-- A worker that has given a token back is done with that once it sees that nothing is pending, or
the token taken. -/
theorem back_move (h : Move i w c rs w' c') (hc : c.station.GivesBack x)
    (hd' : w'.Stands n x d') (hp : d'.pending ≠ []) :
    c'.station.GivesBack x ∨ d'.active = true := by
  cases h with
  | outrun | activate | enqueue => exact Or.inl hc
  | goBack =>
    obtain hc | hc := hc <;> cases hc
    exact Or.inl (Or.inr rfl)
  | settle h =>
    obtain hc | hc := hc <;> cases hc
    rw [Workspace.hasPending, hd'.2] at h
    exact absurd (by simpa using h) hp
  | forgo h =>
    obtain hc | hc := hc <;> cases hc
    rw [Workspace.isActive, hd'.2] at h
    exact Or.inr h
  | retake h =>
    obtain hc | hc := hc <;> cases hc
    obtain ⟨d, _, rfl⟩ := (Workspace.stands_modify _).mp hd'
    rw [if_pos rfl]
    exact Or.inr rfl
  | @opened p | @push p => exact Or.inl hc
  | _ => obtain hc | hc := hc <;> cases hc

theorem errand_of_pushed (h : Move i w c rs w' c') (hx : Record.pushes x rs ≠ []) :
    c'.errand = .activate x := by
  cases h with
  | @push _ _ id =>
    by_cases he : id = x
    · rw [he]
    · simp [he] at hx
  | _ => simp at hx

/-- The last thing a worker sees before it leaves is an empty queue. -/
theorem away_move (h : Move i w c rs w' c') (hc : c.station = .away → c.errand = .none)
    (hc' : c'.station = .away) : c'.errand = .none ∧ w'.state.active = [] := by
  cases h with
  | leave h =>
    refine ⟨rfl, ?_⟩
    unfold Workspace.takeActive? at h
    split at h
    · assumption
    · cases h
  | @opened p _ hp =>
    obtain rfl : p = .away := hc'
    cases hp
  | @push p _ _ _ hp =>
    obtain rfl : p = .away := hc'
    cases hp
  | outrun | activate | enqueue => cases hc hc'
  | _ => cases hc'

/-! ### Runs -/

/-- The worker has put something into the queue of the context and still has to see to its token, or
it was the last one that had the token and has not finished giving it back. -/
def Attends (rs : Record ι) (t : Traffic ι) (i : ι) (id : ContextId) : Prop :=
  (t.couriers i).errand = .activate id ∨
    Record.lastHolder? id rs = some i ∧ (t.couriers i).station.GivesBack id

/-- What holds at every moment of a run with the record `rs`. -/
structure Sound (rs : Record ι) (t : Traffic ι) : Prop extends t.Guarded where
  tally : ∀ n id d, t.work.Stands n id d → Record.pushes id rs = Record.pops id rs ++ d.pending
  unknown : ∀ id, (∀ n, t.work.state.find? n ≠ some id) →
    Record.pushes id rs = [] ∧ Record.pops id rs = []
  attended : ∀ n id d, t.work.Stands n id d → d.pending ≠ [] →
    d.active = true ∨ ∃ i, t.Attends rs i id
  gone : ∀ i, (t.couriers i).station = .away → (t.couriers i).errand = .none
  manned : t.work.state.active ≠ [] → ∃ i, (t.couriers i).station ≠ .away

theorem sound_new {o : Ontology} (hw : w.state = State.new o) : Sound [] (new ι w) := by
  have hfind : ∀ n id, w.state.find? n ≠ some id := by
    intro n id h
    rw [hw] at h
    cases h
  have hactive : w.state.active = [] := by rw [hw]; rfl
  have hnone : ∀ a, (new ι w).hold a = none := by
    rintro ⟨i, l⟩
    cases l <;> rfl
  refine ⟨⟨⟨?_, ?_⟩, ⟨?_, ?_, ?_⟩, ?_, ?_, ?_⟩, ?_, ?_, ?_, fun _ _ => rfl, ?_⟩
  · simp [new, hw, State.new]
  · exact fun n id h => absurd h (hfind n id)
  · simp [new, hactive]
  · intro a id h
    cases (hnone a).symm.trans h
  · intro a b id h
    cases (hnone a).symm.trans h
  · exact fun n id d hd => absurd hd.1 (hfind n id)
  · simp [new, hactive]
  · rintro i id (h | h) <;> cases h
  · exact fun n id d hd => absurd hd.1 (hfind n id)
  · exact fun _ _ => ⟨rfl, rfl⟩
  · exact fun n id d hd => absurd hd.1 (hfind n id)
  · exact fun h => absurd hactive h

theorem Aside.stands (h : Aside w w') (hd : w'.Stands n x d) : ∃ e, w.Stands n x e ∧
    e.root = d.root ∧ e.active = d.active ∧ e.pending = d.pending := by
  have hkept := h.kept x
  rw [hd.2, Option.map_some] at hkept
  obtain ⟨e, he, hsame⟩ := Option.map_eq_some_iff.mp hkept.symm
  have hfind := hd.1
  rw [State.find?, h.contexts, ← State.find?] at hfind
  simp only [Prod.mk.injEq] at hsame
  exact ⟨e, ⟨hfind, he⟩, hsame.1, hsame.2.1, hsame.2.2⟩

theorem sound_aside (hs : t.Sound rs) (h : Aside t.work w) : Sound rs { t with work := w } := by
  have hfind : ∀ n, w.state.find? n = t.work.state.find? n := fun n => by
    rw [State.find?, h.contexts, ← State.find?]
  refine ⟨⟨⟨?_, ?_⟩, ?_, ?_, ?_, ?_⟩, ?_, ?_, ?_, hs.gone, ?_⟩
  · rw [h.contexts]
    exact hs.coherent.distinct
  · intro n x hx
    obtain ⟨d, hd, hroot⟩ := hs.coherent.rooted n x (hfind n ▸ hx)
    have hkept := h.kept x
    rw [hd, Option.map_some] at hkept
    obtain ⟨e, he, hsame⟩ := Option.map_eq_some_iff.mp hkept
    simp only [Prod.mk.injEq] at hsame
    exact ⟨e, he, hsame.1.trans hroot⟩
  · rw [h.active]
    exact hs.sole
  · intro n x d hd
    obtain ⟨e, he, _, ha, _⟩ := h.stands hd
    rw [h.active, ← ha]
    exact hs.token n x e he
  · intro x hx
    simp only [hfind]
    exact hs.queued x (h.active ▸ hx)
  · intro i x hx
    simp only [hfind]
    exact hs.minded i x hx
  · intro n x d hd
    obtain ⟨e, he, _, _, hp⟩ := h.stands hd
    rw [← hp]
    exact hs.tally n x e he
  · exact fun x hx => hs.unknown x fun n hn => hx n ((hfind n).trans hn)
  · intro n x d hd hp
    obtain ⟨e, he, _, ha, hpe⟩ := h.stands hd
    rw [← ha]
    exact hs.attended n x e he (hpe ▸ hp)
  · rw [h.active]
    exact hs.manned

/-- Once all have left, there is nobody who would have to see to what is pending. -/
theorem Sound.finished (hs : t.Sound rs) (h : ∀ i, (t.couriers i).station = .away)
    (hd : t.work.Stands n id d) : d.pending = [] := by
  have hgone : ∀ i, t.couriers i = ⟨.away, .none⟩ := fun i => by
    rw [← h i, ← hs.gone i (h i)]
  have hactive : t.work.state.active = [] := by
    by_contra hne
    obtain ⟨i, hi⟩ := hs.manned hne
    exact hi (h i)
  by_contra hp
  rcases hs.attended n id d hd hp with ha | ⟨i, hi | ⟨_, hi⟩⟩
  · rcases (hs.token n id d hd).mp ha with hq | ⟨⟨i, l⟩, hi⟩
    · rw [hactive] at hq
      cases hq
    · rw [hold, hgone i] at hi
      cases l <;> cases hi
  · rw [hgone i] at hi
    cases hi
  · rw [hgone i] at hi
    rcases hi with hi | hi <;> cases hi

section
variable [DecidableEq ι]

theorem attended_move (hs : t.Sound rs) (h : Move i t.work (t.couriers i) rs' w c)
    (hd' : w.Stands n x d') (hp : d'.pending ≠ []) :
    d'.active = true ∨
      ∃ j, Attends (rs ++ rs') ⟨w, Function.update t.couriers i c⟩ j x := by
  rcases pending_move hs.coherent h hd' with ⟨d, hd, he⟩ | ⟨_, _, hnil⟩
  case inr => exact absurd hnil hp
  by_cases hpushed : Record.pushes x rs' = []
  case neg =>
    refine Or.inr ⟨i, Or.inl ?_⟩
    simpa using errand_of_pushed h hpushed
  have hne : d.pending ≠ [] := by
    intro hnil
    rw [hnil, hpushed, List.append_nil] at he
    exact hp (List.append_eq_nil_iff.mp he.symm).2
  -- Whoever has given the token back before, this worker does so now.
  by_cases hreleased : rs' = [(i, .released x)] ∧ c.station = .rechecking x
  · obtain ⟨rfl, hc⟩ := hreleased
    refine Or.inr ⟨i, Or.inr ⟨Record.lastHolder?_released, Or.inl ?_⟩⟩
    simpa using hc
  rcases hs.attended n x d hd hne with ha | ⟨j, hj | ⟨hlast, hj⟩⟩
  · exact (token_move hs.coherent h hd hd' ha).imp_right fun h => absurd h hreleased
  · by_cases hji : j = i
    · subst hji
      exact Or.inl (errand_move h hj hd')
    · refine Or.inr ⟨j, Or.inl ?_⟩
      simpa [hji] using hj
  · have hlast' : Record.lastHolder? x (rs ++ rs') = some j := by
      rw [Record.lastHolder?_append fun r hr hx => hreleased (released_move h hr hx), hlast]
    by_cases hji : j = i
    · subst hji
      refine (back_move h hj hd' hp).symm.imp_right fun hc => ⟨j, Or.inr ⟨hlast', ?_⟩⟩
      simpa using hc
    · refine Or.inr ⟨j, Or.inr ⟨hlast', ?_⟩⟩
      simpa [hji] using hj

theorem sound_move (hs : t.Sound rs) (h : Move i t.work (t.couriers i) rs' w c) :
    Sound (rs ++ rs') ⟨w, Function.update t.couriers i c⟩ := by
  have hg := guarded_move hs.toGuarded rfl h
  refine ⟨hg, ?_, ?_, fun n x d hd hp => attended_move hs h hd hp, fun j hj => ?_,
    fun hne => ⟨i, fun hi => hne ?_⟩⟩
  · intro n x d' hd'
    rw [Record.pushes_append, Record.pops_append]
    rcases pending_move hs.coherent h hd' with ⟨d, hd, he⟩ | ⟨rfl, hx, hp⟩
    · rw [hs.tally n x d hd, List.append_assoc, he, List.append_assoc]
    · obtain ⟨hpushes, hpops⟩ := hs.unknown x hx
      simp [hpushes, hpops, hp]
  · intro x hx
    obtain ⟨hx, hpushes, hpops⟩ := unknown_move h (hs.minded i) hx
    simp [hs.unknown x hx, hpushes, hpops]
  · dsimp only at hj ⊢
    by_cases hji : j = i
    · subst hji
      rw [Function.update_self] at hj ⊢
      exact (away_move h (hs.gone j) hj).1
    · rw [Function.update_of_ne hji] at hj ⊢
      exact hs.gone j hj
  · dsimp only at hi
    rw [Function.update_self] at hi
    exact (away_move h (hs.gone i) hi).2

theorem Runs.move (h : Runs t₀ rs t) (i : ι) (hi : t.couriers i = c)
    (hm : Move i t.work c rs' w c') : Runs t₀ (rs ++ rs') ⟨w, Function.update t.couriers i c'⟩ :=
  h.step (.move i (hi ▸ hm))

theorem sound_run {o : Ontology} (hw : w.state = State.new o) (h : Runs (new ι w) rs t) :
    t.Sound rs := by
  induction h with
  | start => exact sound_new hw
  | step _ hs ih =>
    cases hs with
    | move i h => exact sound_move ih h
    | aside h =>
      rw [List.append_nil]
      exact sound_aside ih h

/-- Nothing is lost, and nothing is handled twice. -/
structure HandedOver (rs : Record ι) (t : Traffic ι) : Prop where
  /-- One worker has the token of a context, in one hand. -/
  single : ∀ a b id, t.hold a = some id → t.hold b = some id → a = b
  token : ∀ a id, t.hold a = some id → ∃ n d, t.work.Stands n id d ∧ d.active = true
  popper : ∀ rs' t', Step t rs' t' → ∀ i id k, (i, Deal.popped id k) ∈ rs' →
    t.hold (i, .drains) = some id
  once : t.work.state.active.Nodup
  apart : ∀ a id, t.hold a = some id → id ∉ t.work.state.active
  /-- What comes out of a queue is what has come in first, each conclusion once. -/
  order : ∀ id, Record.pops id rs <+: Record.pushes id rs
  rest : ∀ n id d, t.work.Stands n id d → Record.pushes id rs = Record.pops id rs ++ d.pending
  /-- Where something is pending, the context is queued, or a worker has its token in a hand, or a
  worker has pushed there and not tried to take the token yet, or the last one that had the token
  has not finished giving it back. -/
  attended : ∀ n id d, t.work.Stands n id d → d.pending ≠ [] →
    id ∈ t.work.state.active ∨ (∃ a, t.hold a = some id) ∨ ∃ i, t.Attends rs i id
  finished : (∀ i, (t.couriers i).station = .away) →
    ∀ n id d, t.work.Stands n id d → d.pending = []

/-- However the steps of the workers fall, what they do is handed over. -/
theorem handed_over_of_runs {o : Ontology} (hw : w.state = State.new o)
    (h : Runs (new ι w) rs t) : t.HandedOver rs := by
  have hs := sound_run hw h
  refine ⟨hs.sole.single, ?_, ?_, hs.sole.nodup, hs.sole.apart, ?_, hs.tally, ?_, ?_⟩
  · intro a id ha
    obtain ⟨n, d, hd⟩ := hs.stands_of_claimed (Or.inr ⟨a, ha⟩)
    exact ⟨n, d, hd, (hs.token n id d hd).mpr (Or.inr ⟨a, ha⟩)⟩
  · intro rs' t' hstep i id k hr
    cases hstep with
    | move i' h =>
      obtain ⟨rfl, hheld⟩ := popped_move h hr
      exact hheld
    | aside => cases hr
  · intro id
    by_cases hid : ∃ n, t.work.state.find? n = some id
    · obtain ⟨n, hn⟩ := hid
      obtain ⟨d, hd, _⟩ := hs.coherent.rooted n id hn
      exact ⟨d.pending, (hs.tally n id d ⟨hn, hd⟩).symm⟩
    · rw [(hs.unknown id (not_exists.mp hid)).2]
      exact List.nil_prefix
  · intro n id d hd hp
    rcases hs.attended n id d hd hp with ha | ha
    · exact ((hs.token n id d hd).mp ha).imp_right Or.inl
    · exact Or.inr (Or.inr ha)
  · exact fun haway n id d hd => hs.finished haway hd

/-- A context is drained by one worker. Another one puts something there once the first has seen
nothing, but before it gives the token back: so the first finds that when it looks again. -/
theorem handed_over_of_runs_race : ∃ rs t, Runs (new Bool ⟨#[], .new .empty, [], .asLinked⟩) rs t ∧
    t.HandedOver rs ∧ t.work.state.active = [] ∧ (∀ a, t.hold a = none) ∧ t.Attends rs false ⟨0⟩ ∧
    (∃ n d, t.work.Stands n ⟨0⟩ d ∧ d.pending = [.contradiction]) ∧
    ∃ rs' t', Runs (new Bool ⟨#[], .new .empty, [], .asLinked⟩) rs' t' ∧ t'.HandedOver rs' ∧
      (∀ i, (t'.couriers i).station = .away) ∧
      Record.pops ⟨0⟩ rs' = [.subsumer ⟨0⟩ .plain, .contradiction] := by
  have hnone : (⟨#[], .new .empty, [], .asLinked⟩ : Workspace).state.find? ⟨0⟩ = none := rfl
  have hopened : Runs (new Bool ⟨#[], .new .empty, [], .asLinked⟩) _ _ :=
    (Runs.start.move false rfl .arrive).move false rfl (.opened rfl hnone)
  have hpushed := hopened.move false rfl (.push rfl (n := ⟨0⟩) (k := .subsumer ⟨0⟩ .plain) rfl)
  have hqueued := (hpushed.move false rfl (.activate rfl)).move false rfl .enqueue
  have hdrained := ((hqueued.move false rfl (.take rfl)).move false rfl (.pop rfl)).move false rfl
    (.drained rfl)
  have houtrun := ((hdrained.move true rfl .arrive).move true rfl
    (.push rfl (n := ⟨0⟩) (k := .contradiction) rfl)).move true rfl (.outrun rfl)
  have hreleased := houtrun.move false rfl .release
  have hretaken := (hreleased.move false rfl (.goBack rfl)).move false rfl (.retake rfl)
  have hsettled := (((hretaken.move false rfl (.pop rfl)).move false rfl (.drained rfl)).move
    false rfl .release).move false rfl (.settle rfl)
  have hleft := (hsettled.move false rfl (.leave rfl)).move true rfl (.leave rfl)
  refine ⟨_, _, hreleased, handed_over_of_runs rfl hreleased, rfl, ?_, ?_, ?_, _, _, hleft,
    handed_over_of_runs rfl hleft, ?_, rfl⟩
  · rintro ⟨i, l⟩
    cases i <;> cases l <;> rfl
  · exact Or.inr ⟨rfl, Or.inl rfl⟩
  · exact ⟨⟨0⟩, _, ⟨rfl, rfl⟩, rfl⟩
  · rintro ⟨⟩ <;> rfl

end

end Traffic

end Subsumption
