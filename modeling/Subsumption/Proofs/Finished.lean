import Subsumption.Proofs.Sharing

/-! Finished contexts. Whatever is run later, on the state that they belong to or on one that is
made from it, nothing is added to them but links from roots whose contexts are newer. -/
namespace Subsumption

namespace Context

/-- Nothing is different but that links may be missing, tokens and queues apart. -/
structure Sheds (c c' : Context) : Prop where
  root : c'.root = c.root
  inconsistent : c'.inconsistent = c.inconsistent
  saturated : c'.saturated = c.saturated
  facts : ∃ links, links.Sublist c.facts.backward ∧ c'.facts = { c.facts with backward := links }

theorem Sheds.refl (c : Context) : c.Sheds c := ⟨rfl, rfl, rfl, _, List.Sublist.refl _, rfl⟩

theorem sheds_pruned (c : Context) (kept : List NodeId) : c.Sheds (c.pruned kept) := by
  unfold pruned withoutSources?
  split
  · exact .refl c
  · exact ⟨rfl, rfl, rfl, _, List.filter_sublist, rfl⟩

end Context

namespace Board

variable {o : Ontology} {b b' : Board} {n root s : NodeId} {r : PropertyId} {kept : List NodeId}
  {order : List PropertyId}

/-- Every link, recorded or pending, is from a root that has a context. -/
def Sourced (b : Board) : Prop :=
  ∀ n c s r, b n = some c → c.Has (.backwardLink s r) ∨ .backwardLink s r ∈ c.pending → b.Hosts s

theorem Sourced.of_contexts (hb : b.Sourced) (hhosts : ∀ n, b.Hosts n → b'.Hosts n)
    (h : ∀ n c', b' n = some c' → ∀ s r,
      c'.Has (.backwardLink s r) ∨ .backwardLink s r ∈ c'.pending →
      (∃ c, b n = some c ∧ (c.Has (.backwardLink s r) ∨ .backwardLink s r ∈ c.pending)) ∨
        b.Hosts s) : b'.Sourced := by
  intro n c' s r hc' hl
  rcases h n c' hc' s r hl with ⟨c, hc, hl⟩ | hs
  · exact hhosts s (hb n c s r hc hl)
  · exact hhosts s hs

theorem not_link_of_opened :
    ¬ ((Context.opened o n).Has (.backwardLink s r) ∨
      .backwardLink s r ∈ (Context.opened o n).pending) := by
  rintro (h | h)
  · exact Context.has_opened (Context.has_receive.mpr h : ((Context.opened o n).receive []).Has _)
  · cases Context.infers_opened h

theorem sourced_opens (h : ∀ n, b' n = (b n).or (if root = n then some (.opened o n) else none))
    (hb : b.Sourced) : b'.Sourced := by
  refine hb.of_contexts ?_ ?_
  · intro n hn
    obtain ⟨c, hc⟩ := Option.ne_none_iff_exists'.mp hn
    rw [Hosts, h, hc, Option.some_or]
    exact Option.some_ne_none c
  · intro n c' hc' s r hl
    rw [h] at hc'
    cases hc : b n with
    | some c =>
      rw [hc, Option.some_or] at hc'
      cases hc'
      exact Or.inl ⟨_, rfl, hl⟩
    | none =>
      rw [hc, Option.none_or] at hc'
      split at hc' <;> cases hc'
      exact absurd hl not_link_of_opened

/-- The links after a conclusion has been processed were recorded or pending before. -/
theorem link_of_derive {c : Context} {k : Conclusion} {rest : List Conclusion}
    (hp : c.pending = k :: rest)
    (hl : (({ c with pending := rest } : Context).derive o order k).1.Has (.backwardLink s r) ∨
      .backwardLink s r ∈ (({ c with pending := rest } : Context).derive o order k).1.pending) :
    c.Has (.backwardLink s r) ∨ .backwardLink s r ∈ c.pending := by
  rcases hl with hl | hl
  · rcases Context.has_derive.mp hl with hl | ⟨_, he⟩
    · exact Or.inl (Context.has_rest.mp hl)
    · cases k <;> cases he
      exact Or.inr (by simp [hp])
  · rw [Context.pending_derive] at hl
    exact Or.inr (hp ▸ List.mem_cons_of_mem _ hl)

/-- A link that is sent is from the root that sends it. -/
theorem Sourced.mail (hb : b.Sourced) {c : Context} {k : Conclusion} {rest : List Conclusion}
    (hc : b c.root = some c) (hp : c.pending = k :: rest)
    (hm : .backwardLink s r ∈
      (({ c with pending := rest } : Context).derive o order k).2.flatMap (·.mail c.root n)) :
    b.Hosts s := by
  have hself : b.Hosts c.root := by
    rw [Hosts, hc]
    exact Option.some_ne_none c
  have hk : Admits (fun m => ¬ b.Hosts m) c.root k := by
    cases k with
    | backwardLink s' r' => exact not_not.mpr (hb c.root c s' r' hc (Or.inr (by simp [hp])))
    | _ => exact not_not.mpr hself
  have hsent : ∀ e ∈ (({ c with pending := rest } : Context).derive o order k).2,
      e.Admitted (fun m => ¬ b.Hosts m) c.root :=
    Context.admitted_derive hk
      fun _ s' r' hl => not_not.mpr (hb c.root c s' r' hc (Or.inl (Context.has_rest.mp hl)))
  rcases Deduction.mem_mail.mp hm with ⟨_, he⟩ | ⟨ks, he, hm⟩
  · exact not_not.mp (hsent _ he)
  · exact not_not.mp (hsent _ he _ hm)

theorem sourced_move (h : Move o b b') (hb : b.Sourced) : b'.Sourced := by
  cases h with
  | opens root _ h => exact sourced_opens h hb
  | marks h =>
    refine hb.of_contexts ?_ ?_
    · intro n hn
      obtain ⟨s, a, hm⟩ := h n
      rw [Hosts, hm]
      exact fun hno => hn (Option.map_eq_none_iff.mp hno)
    · intro n c' hc' s r hl
      obtain ⟨sat, a, hm⟩ := h n
      rw [hm] at hc'
      obtain ⟨c, hc, rfl⟩ := Option.map_eq_some_iff.mp hc'
      exact Or.inl ⟨c, hc, hl.imp_left Context.has_marks.mp⟩
  | @processes a k rest _ ha hp h =>
    refine hb.of_contexts ?_ ?_
    · intro n hn
      obtain ⟨c, hc⟩ := Option.ne_none_iff_exists'.mp hn
      rw [Hosts, h]
      split <;> simp [hc]
    · intro n c' hc' s r hl
      rw [h] at hc'
      obtain ⟨d, hd, rfl⟩ := Option.map_eq_some_iff.mp hc'
      have hl : d.Has (.backwardLink s r) ∨ .backwardLink s r ∈ d.pending ∨ b.Hosts s :=
        hl.imp Context.has_receive.mp fun hl => (List.mem_append.mp hl).imp id (hb.mail ha hp)
      rw [← or_assoc] at hl
      rcases hl with hl | hs
      · by_cases hn : n = a.root
        · rw [if_pos hn, Option.some_or] at hd
          cases hd
          exact Or.inl ⟨a, hn ▸ ha, link_of_derive hp hl⟩
        · rw [if_neg hn] at hd
          cases hc : b n with
          | some c =>
            rw [hc, Option.some_or] at hd
            cases hd
            exact Or.inl ⟨_, rfl, hl⟩
          | none =>
            rw [hc, Option.none_or] at hd
            split at hd <;> cases hd
            exact absurd hl not_link_of_opened
      · exact Or.inr hs

/-- No link goes over but from a root that does. -/
theorem sourced_pruned (hboard : ∀ n, b' n = if n ∈ kept then (b n).map (·.pruned kept) else none)
    (hkept : ∀ n ∈ kept, b.Hosts n) (hq : ∀ n c, b n = some c → c.pending = []) :
    b'.Sourced := by
  intro n c' s r hc' hl
  have hp := quiet_of_pruned hboard hq n c' hc'
  rw [hp] at hl
  rw [hboard] at hc'
  split at hc'
  · obtain ⟨c, _, rfl⟩ := Option.map_eq_some_iff.mp hc'
    have hs : s ∈ kept :=
      (Context.has_pruned.mp (hl.resolve_right List.not_mem_nil)).2 s r rfl
    rw [Hosts, hboard, if_pos hs]
    exact fun hno => hkept s hs (Option.map_eq_none_iff.mp hno)
  · cases hc'

end Board

namespace Workspace

open Ontology

variable {w v v' m : Workspace} {roots : List NodeId} {n root : NodeId} {id x : ContextId}
  {c : Context} {o : Ontology} {invalidated : List NodeId}

/-- What may go on with a state: roots are submitted, among them such as its ontology does not have,
and conclusions are processed in any order. -/
inductive Proceeds (w : Workspace) : Workspace → Prop
  | start : Proceeds w w
  | submit {v : Workspace} {σ : Type} (obs : RuleObserver σ) (stats : RuleStatistics) (env : σ)
    (h : Proceeds w v) (root : NodeId) :
    Proceeds w (RuleRun.submit obs ⟨v, stats, env⟩ root).2.work
  | step {v v' : Workspace} (h : Proceeds w v) (hs : Step v v') : Proceeds w v'

theorem Runs.proceeds (h : Runs w roots v) : Proceeds w v := by
  induction h with
  | start => exact .start
  | submit obs stats env _ root _ ih => exact .submit obs stats env ih root
  | step _ hs ih => exact .step ih hs

/-! ### Marks -/

/-- Contexts that were marked saturated still are. -/
def MarksLast (w v : Workspace) : Prop :=
  ∀ x c, w.context? x = some c → c.saturated = true →
    ∃ c', v.context? x = some c' ∧ c'.saturated = true

theorem MarksLast.refl (w : Workspace) : MarksLast w w := fun _ c hc hs => ⟨c, hc, hs⟩

theorem MarksLast.trans (h : MarksLast w v) (h' : MarksLast v v') : MarksLast w v' := by
  intro x c hc hs
  obtain ⟨d, hd, hs'⟩ := h x c hc hs
  exact h' x d hd hs'

theorem marksLast_modify (id : ContextId) {f : Context → Context}
    (hf : ∀ c, w.context? id = some c → c.saturated = true → (f c).saturated = true) :
    MarksLast w (w.modify id f) := by
  intro x c hc hs
  rw [context?_modify, hc]
  split
  · rename_i he
    exact ⟨f c, rfl, hf c (he ▸ hc) hs⟩
  · exact ⟨c, rfl, hs⟩

theorem lasting_marksLast (w₀ : Workspace) : Lasting (MarksLast w₀) := by
  refine ⟨fun w _ id k _ h => h.trans ?_, fun w n _ h => h.trans ?_, fun _ _ h => h⟩
  · intro x c hc hs
    rw [context?_produce, hc]
    split
    · exact ⟨c.receive [k], rfl, hs⟩
    · exact ⟨c, rfl, hs⟩
  · intro x c hc hs
    have hne : x ≠ w.nextId := by
      rintro rfl
      rw [context?_nextId] at hc
      cases hc
    exact ⟨c, (context?_insertContext (w := w)).trans (by rw [if_neg hne, hc]), hs⟩

theorem marksLast_mark : MarksLast w w.markNext.2 := by
  unfold markNext
  split
  · exact .refl w
  · rename_i id rest _
    have hmark := marksLast_modify (w := w) id (f := ({ · with saturated := true }))
      fun _ _ _ => rfl
    rcases markSaturated_eq { w with state := { w.state with unsaturated := rest } } id with he | he
    · intro x c hc hs
      exact ⟨c, by simpa only [context?, he] using hc, hs⟩
    · intro x c hc hs
      obtain ⟨c', hc', hs'⟩ := hmark x c hc hs
      exact ⟨c', by simpa only [context?, he, modify] using hc', hs'⟩

theorem marksLast_step (hw : w.Coherent) (h : Step w v) : MarksLast w v := by
  cases h with
  | @process v root id k _ obs timed stats env hroot hpop =>
    obtain ⟨c, rest, _, rfl, _, hv, hstate, hc, _⟩ := popped hw hroot hpop
    have hroot' : v.state.find? c.root = some id := by rw [hstate, hroot]
    have hpopped : MarksLast w v := by
      obtain ⟨rfl, _⟩ := context?_of_pop hpop
      exact marksLast_modify id fun _ _ hs => hs
    refine (lasting_marksLast w).apply obs timed ⟨v, stats, env⟩ hv hroot' hc
      (hpopped.trans (marksLast_modify id ?_))
    intro d hd hs
    cases hc.symm.trans hd
    exact (saturated_derive _ _).trans hs
  | token id b => exact marksLast_modify id fun _ _ hs => hs
  | queue | report => exact .refl w
  | mark => exact marksLast_mark

/-! ### Since a moment of rest -/

/-- What holds after a moment at which nothing was pending. -/
structure Since (m v : Workspace) : Prop where
  keeps : Keeps m v
  frozen : Board.Frozen m.contextOf? v.contextOf?
  sourced : Board.Sourced v.contextOf?
  beside : Beside m v
  marks : MarksLast m v

theorem since_proceeds (hm : m.Coherent) (hq : m.Quiet) (hs : Board.Sourced m.contextOf?)
    (h : Proceeds m v) : Since m v := by
  induction h with
  | start => exact ⟨.refl hm, Board.frozen_refl hq, hs, .refl m, .refl m⟩
  | submit obs stats env _ root ih =>
    have hk := (posts_obtain obs ⟨_, stats, env⟩ ih.keeps.coherent root).1.keeps ih.keeps.coherent
    have hopens := contextOf?_submit ih.keeps.coherent obs stats env root
    exact ⟨ih.keeps.trans hk, Board.frozen_opens hopens ih.frozen,
      Board.sourced_opens hopens ih.sourced,
      (lasting_beside m).obtain obs ⟨_, stats, env⟩ ih.beside root,
      (lasting_marksLast m).obtain obs ⟨_, stats, env⟩ ih.marks root⟩
  | step _ hstep ih =>
    have hmove := move_step ih.keeps.coherent hstep
    exact ⟨ih.keeps.trans (keeps_step ih.keeps.coherent hstep), Board.frozen_move hmove ih.frozen,
      Board.sourced_move hmove ih.sourced,
      ih.beside.trans (beside_step ih.keeps.coherent hstep),
      ih.marks.trans (marksLast_step ih.keeps.coherent hstep)⟩

/-- A saturated context, of whichever state, has got nothing but links from roots that had no
context then and have one now. -/
theorem Since.linked (h : Since m v) (hc : m.context? x = some c)
    (hs : c.saturated = true) :
    ∃ c', v.context? x = some c' ∧ c'.saturated = true ∧
      c.LinksFrom (fun s => m.contextOf? s = none ∧ ∃ d, v.contextOf? s = some d) c' := by
  obtain ⟨c', hc', hs'⟩ := h.marks x c hc hs
  refine ⟨c', hc', hs', ?_⟩
  by_cases hx : ∃ n, m.state.find? n = some x
  · obtain ⟨n, hn⟩ := hx
    obtain ⟨d, hd, hroot, hin, links, hf, hlinks⟩ :=
      h.frozen.kept n c ((contextOf?_eq hn).trans hc)
    have hv := contextOf?_eq (h.keeps.find? n x hn)
    cases hc'.symm.trans (hv.symm.trans hd)
    refine ⟨hroot, hin, links, hf, fun l hl => ⟨not_not.mp (hlinks l hl), ?_⟩⟩
    have hhas : c'.Has (.backwardLink l.2 l.1) := by
      simp only [Context.Has, hf]
      exact List.mem_append_right _ hl
    exact Option.ne_none_iff_exists'.mp (h.sourced n c' l.2 l.1 hd (Or.inl hhas))
  · obtain ⟨_, sat, a, hd⟩ := h.beside.context? x c (not_exists.mp hx) hc
    cases hc'.symm.trans hd
    exact ⟨rfl, rfl, [], by simp, by simp⟩

/-! ### Finished states -/

/-- The workspaces that complete runs lead to, on a new state or on one that is made from such a
workspace, over any ontology and with any roots starting over. -/
inductive Finished : Workspace → Prop
  | fresh {o : Ontology} {w v : Workspace} (hw : w.state = State.new o) (h : Proceeds w v)
    (hv : v.AtRest) : Finished v
  | again {w v : Workspace} {o : Ontology} {invalidated : List NodeId} (hw : Finished w)
    (h : Proceeds (w.resubmission o invalidated) v) (hv : v.AtRest) : Finished v

theorem sourced_resubmission (hw : w.Coherent) (hq : w.Quiet) (o : Ontology)
    (invalidated : List NodeId) : Board.Sourced (w.resubmission o invalidated).contextOf? := by
  refine Board.sourced_pruned (fun _ => hw.contextOf?_resubmission) ?_ hq
  intro n hn
  obtain ⟨c, hc, _⟩ := (hw.mem_keptRoots.mp hn).2
  rw [Board.Hosts, hc]
  exact Option.some_ne_none c

theorem Finished.sound (h : Finished w) :
    w.Coherent ∧ Board.Sourced w.contextOf? ∧ w.AtRest := by
  induction h with
  | @fresh o w v hw h hv =>
    have hempty : ∀ n c, w.contextOf? n ≠ some c := by
      intro n c hc
      obtain ⟨id, hid, _⟩ := Option.bind_eq_some_iff.mp hc
      simp [hw, State.new, State.find?] at hid
    have hsince := since_proceeds (coherent_new hw) (fun n c hc => absurd hc (hempty n c))
      (fun n c _ _ hc => absurd hc (hempty n c)) h
    exact ⟨hsince.keeps.coherent, hsince.sourced, hv⟩
  | again _ h hv ih =>
    obtain ⟨hc, _, hr⟩ := ih
    have hsince := since_proceeds hc.resubmission (quiet_resubmission hc hr.quiet _ _)
      (sourced_resubmission hc hr.quiet _ _) h
    exact ⟨hsince.keeps.coherent, hsince.sourced, hv⟩

/-- The state that goes on, which is the finished one or is made from it. -/
theorem Finished.goes_on (hw : Finished w)
    (hm : m = w ∨ ∃ o invalidated, m = w.resubmission o invalidated) :
    m.Coherent ∧ m.Quiet ∧ Board.Sourced m.contextOf? ∧
      (∀ x c, w.context? x = some c → m.context? x = some c) ∧
      ∀ n c, m.contextOf? n = some c → ∃ d, w.contextOf? n = some d ∧ d.Sheds c := by
  obtain ⟨hc, hs, hr⟩ := hw.sound
  rcases hm with rfl | ⟨o, invalidated, rfl⟩
  · exact ⟨hc, hr.quiet, hs, fun _ _ h => h, fun n c h => ⟨c, h, .refl c⟩⟩
  · refine ⟨hc.resubmission, quiet_resubmission hc hr.quiet _ _,
      sourced_resubmission hc hr.quiet _ _, ?_, ?_⟩
    · exact fun x c h => (hc.carriedOver o invalidated).stored x.index c h
    · intro n c h
      rw [hc.contextOf?_resubmission] at h
      split at h
      · obtain ⟨d, hd, rfl⟩ := Option.map_eq_some_iff.mp h
        exact ⟨d, hd, d.sheds_pruned _⟩
      · cases h

/-- After complete runs, jobs go on with the state, or with one that is made from it. Contexts that
go over keep all but links; and whatever has been done by any later moment, every context of the
finished state, and every one that has gone over, is saturated and has got nothing but links, which
are from roots that had no context when the jobs began and have one now. -/
theorem finished_is_frozen (hw : Finished w)
    (hm : m = w ∨ ∃ o invalidated, m = w.resubmission o invalidated) (hv : Proceeds m v) :
    (∀ n c, m.contextOf? n = some c → ∃ d, w.contextOf? n = some d ∧ d.Sheds c) ∧
    ∀ n id c, w.Stands n id c ∨ m.Stands n id c → c.saturated = true ∧
      ∃ c', v.context? id = some c' ∧ c'.saturated = true ∧
        c.LinksFrom (fun s => m.contextOf? s = none ∧ ∃ d, v.contextOf? s = some d) c' := by
  obtain ⟨hc, hq, hs, hstored, hcarried⟩ := hw.goes_on hm
  have hmarked := hw.sound.2.2.saturated
  refine ⟨hcarried, fun n id c hst => ?_⟩
  have hcontext : m.context? id = some c := hst.elim (fun h => hstored id c h.2) (·.2)
  have hsat : c.saturated = true := by
    rcases hst with h | h
    · exact hmarked n c ((contextOf?_eq h.1).trans h.2)
    · obtain ⟨d, hd, hsheds⟩ := hcarried n c ((contextOf?_eq h.1).trans h.2)
      exact hsheds.saturated.trans (hmarked n d hd)
  exact ⟨hsat, (since_proceeds hc hq hs hv).linked hcontext hsat⟩

/-- B has been run to completion over A ⊑ ∃r.B, B ⊑ C and ∃r.C ⊑ D; then A is run on a state that is
made from it, which shares the context of B and links A to it. -/
theorem finished_is_frozen_fillerLinked : Finished fillerDone ∧
    Proceeds (fillerDone.resubmission (after throughFiller) []) fillerLinked ∧
    (fillerDone.resubmission (after throughFiller) []).contextOf? ⟨2⟩ = none ∧
    ∃ c c', fillerDone.Stands ⟨3⟩ ⟨0⟩ c ∧ fillerLinked.context? ⟨0⟩ = some c' ∧
      c'.saturated = true ∧ c.facts.backward = [] ∧ c'.facts.backward = [(⟨0⟩, ⟨2⟩)] ∧
      c'.facts.subsumers = c.facts.subsumers ∧ c'.facts.propagations = c.facts.propagations := by
  have hw : Finished fillerDone :=
    .fresh rfl (runs_saturate_start (o := after throughFiller) (n := ⟨3⟩)
      (by decide +kernel)).proceeds rested_fillerDone.sane.2
  have hv := runs_fillerLinked.proceeds
  have hstands : (fillerDone.state.find? ⟨3⟩, (fillerDone.context? ⟨0⟩).map (·.facts.backward))
      = (some ⟨0⟩, some []) := by decide +kernel
  have hlinked : (fillerLinked.context? ⟨0⟩).map (·.facts.backward) = some [(⟨0⟩, ⟨2⟩)] := by
    decide +kernel
  rw [Prod.mk.injEq] at hstands
  obtain ⟨hid, hnone⟩ := hstands
  obtain ⟨c, hc, hback⟩ := Option.map_eq_some_iff.mp hnone
  obtain ⟨c', hc', hback'⟩ := Option.map_eq_some_iff.mp hlinked
  obtain ⟨_, hfrozen⟩ := finished_is_frozen hw (Or.inr ⟨_, _, rfl⟩) hv
  obtain ⟨_, d, hd, hs, hlinks⟩ := hfrozen ⟨3⟩ ⟨0⟩ c (Or.inl ⟨hid, hc⟩)
  cases hc'.symm.trans hd
  obtain ⟨links, hf, _⟩ := hlinks.facts
  exact ⟨hw, hv, by decide +kernel, c, c', ⟨hid, hc⟩, hc', hs, hback, hback', by rw [hf],
    by rw [hf]⟩

end Workspace

end Subsumption
