import Subsumption.Proofs.Firing
import Subsumption.Proofs.Yield

/-! A pass comes to its end. Whatever is processed takes weight from the queues, or room for facts
from the contexts, and what follows from a new fact weighs less than the room that the fact takes.
So the fuel of a pass is bookkeeping: a pass ends when the flag is found set or nothing waits. -/
namespace Subsumption

namespace Workspace

variable {w v w' : Workspace} {id : ContextId} {c : Context} {k : Conclusion} {ks : List Conclusion}
  {root : NodeId} {e m n : Nat} {o : Ontology}

/-! ### Sums over the contexts -/

/-- The sum of a number over all contexts. -/
def sumOf (g : Context → Nat) (w : Workspace) : Nat := (w.store.toList.map g).sum

section
variable {g : Context → Nat} {f : Context → Context}

theorem sum_map_modify {l : List Context} {i : Nat} (h : l[i]? = some c) :
    ((l.modify i f).map g).sum + g c = (l.map g).sum + g (f c) := by
  induction l generalizing i with
  | nil => cases h
  | cons a l ih =>
    cases i with
    | zero =>
      cases h
      simp only [List.modify_zero_cons, List.map_cons, List.sum_cons]
      omega
    | succ i =>
      have := ih h
      simp only [List.modify_succ_cons, List.map_cons, List.sum_cons]
      omega

theorem sumOf_modify (hc : w.context? id = some c) :
    (w.modify id f).sumOf g + g c = w.sumOf g + g (f c) := by
  unfold sumOf modify
  rw [Array.toList_modify]
  exact sum_map_modify ((Array.getElem?_toList).trans hc)

theorem sumOf_modify_le (w : Workspace) (id : ContextId) (hg : ∀ c, g (f c) ≤ g c + n) :
    (w.modify id f).sumOf g ≤ w.sumOf g + n := by
  cases hc : w.context? id with
  | some c =>
    have hsum := sumOf_modify (g := g) (f := f) hc
    have hle := hg c
    omega
  | none =>
    have hsize : w.store.toList.length ≤ id.index := by simpa [context?] using hc
    unfold sumOf modify
    rw [Array.toList_modify, List.modify_eq_self hsize]
    exact Nat.le_add_right _ _

theorem sumOf_insertContext : (w.insertContext root).2.sumOf g = w.sumOf g + g (.fresh root) := by
  simp [sumOf, insertContext]

end

/-! ### Weight and room -/

/-- The weight of what is pending, with two for each context in the queue. -/
def load (w : Workspace) : Nat :=
  w.sumOf (fun c => (c.pending.map Conclusion.weight).sum) + 2 * w.state.active.length

/-- How many roots have no context. -/
def absent (w : Workspace) : Nat :=
  UInt32.size - (w.state.contexts.map Prod.fst).toFinset.card

/-- How many facts can be added, in contexts still to be created too. -/
def room (w : Workspace) : Nat :=
  w.sumOf (fun c => factBound - c.known) + factBound * w.absent

/-- In each context all but `e` of the links and propagations are different. -/
def Distinct (e : Nat) (w : Workspace) : Prop := ∀ id c, w.context? id = some c → c.facts.Distinct e

theorem distinct_modify {f : Context → Context} (h : Distinct e w)
    (hf : ∀ c, w.context? id = some c → (f c).facts.Distinct e) : Distinct e (w.modify id f) := by
  intro x c hc
  rw [context?_modify] at hc
  split at hc
  · rename_i hx
    obtain ⟨d, hd, rfl⟩ := Option.map_eq_some_iff.mp hc
    exact hf d (hx ▸ hd)
  · exact h x c hc

/-- `v` is `w` after effects that charge `n`. -/
structure Charged (e n : Nat) (w v : Workspace) : Prop where
  ontology : v.state.ontology = w.state.ontology
  distinct : Distinct e w → Distinct e v
  room : v.room ≤ w.room
  load : v.load ≤ w.load + n

theorem Charged.trans (h : Charged e n w v) (h' : Charged e m v w') : Charged e (n + m) w w' :=
  ⟨h'.ontology.trans h.ontology, fun hd => h'.distinct (h.distinct hd), h'.room.trans h.room,
    by have := h.load; have := h'.load; omega⟩

theorem Charged.mono (h : Charged e n w v) (hn : n ≤ m) : Charged e m w v :=
  ⟨h.ontology, h.distinct, h.room, h.load.trans (Nat.add_le_add_left hn _)⟩

/-- Events and the like are of no account. -/
theorem Charged.same (hs : v.store = w.store) (ho : v.state.ontology = w.state.ontology)
    (hc : v.state.contexts = w.state.contexts)
    (ha : v.state.active.length ≤ w.state.active.length + n) : Charged e (2 * n) w v := by
  refine ⟨ho, ?_, ?_, ?_⟩
  · intro hd id c h
    exact hd id c (by simpa [context?, hs] using h)
  · simp [Workspace.room, sumOf, absent, hs, hc]
  · simp only [Workspace.load, sumOf, hs]
    omega

/-- A change of one context that leaves its facts alone. -/
theorem charged_modify (id : ContextId) {f : Context → Context}
    (hf : ∀ c, (f c).facts = c.facts ∧ (f c).inconsistent = c.inconsistent)
    (hw : ∀ c, ((f c).pending.map Conclusion.weight).sum
      ≤ (c.pending.map Conclusion.weight).sum + n) : Charged e n w (w.modify id f) := by
  refine ⟨rfl, fun hd => distinct_modify hd fun c hc => (hf c).1 ▸ hd id c hc, ?_, ?_⟩
  · refine Nat.add_le_add_right (sumOf_modify_le w id (n := 0) fun c => ?_) _
    simp only [Context.known, hf c, Nat.add_zero, Nat.le_refl]
  · have hsum := sumOf_modify_le w id (f := f)
      (g := fun c => (c.pending.map Conclusion.weight).sum) hw
    have hstate : (w.modify id f).state = w.state := rfl
    simp only [Workspace.load, hstate]
    omega

theorem charged_produce (id : ContextId) (k : Conclusion) :
    Charged e (k.weight + 2) w (w.produce id k) := by
  have hpush : Charged e k.weight w (w.modify id (·.push k)) :=
    charged_modify id (fun _ => ⟨rfl, rfl⟩) fun c => by simp [Context.push]
  unfold produce
  dsimp only
  split
  · exact hpush.mono (Nat.le_add_right _ _)
  · have htoken : Charged e 0 (w.modify id (·.push k))
        ((w.modify id (·.push k)).setActive id true) :=
      charged_modify id (fun _ => ⟨rfl, rfl⟩) fun _ => Nat.le_refl _
    have hqueue : ∀ v : Workspace, Charged e 2 v (v.enqueue id) := fun v =>
      .same rfl rfl rfl (n := 1) (by simp [enqueue])
    exact hpush.trans (htoken.trans (hqueue _))

theorem charged_insert (hroot : w.state.find? root = none) :
    Charged e 0 w ((w.insertContext root).2.enlist w.nextId) := by
  refine ⟨rfl, ?_, ?_, ?_⟩
  · intro hd x c hc
    have hc : (w.insertContext root).2.context? x = some c := hc
    rw [context?_insertContext] at hc
    split at hc
    · cases hc
      exact ⟨Nat.zero_le _, Nat.zero_le _⟩
    · exact hd x c hc
  · -- The new context has the room that its root had before.
    have hnew : root ∉ w.state.contexts.map Prod.fst := by
      intro hmem
      obtain ⟨x, hx, rfl⟩ := List.mem_map.mp hmem
      have := List.lookup_eq_none_iff.mp hroot x hx
      simp at this
    have hcard :
        (((w.insertContext root).2.enlist w.nextId).state.contexts.map Prod.fst).toFinset.card
        = (w.state.contexts.map Prod.fst).toFinset.card + 1 := by
      rw [← card_toFinset_concat hnew]
      simp [insertContext, enlist]
    have hle := card_le_of_word NodeId.value_injective
      (((w.insertContext root).2.enlist w.nextId).state.contexts.map Prod.fst).toFinset
    have habsent : ((w.insertContext root).2.enlist w.nextId).absent + 1 = w.absent := by
      unfold absent
      omega
    have hsum : ((w.insertContext root).2.enlist w.nextId).sumOf (fun c => factBound - c.known)
        = w.sumOf (fun c => factBound - c.known) + factBound :=
      sumOf_insertContext
    unfold room
    rw [hsum, ← habsent, Nat.mul_succ]
    omega
  · have hsum : ((w.insertContext root).2.enlist w.nextId).sumOf
        (fun c => (c.pending.map Conclusion.weight).sum) = _ := sumOf_insertContext
    unfold load
    rw [hsum]
    exact Nat.le_refl _

/-! ### Effects -/

variable {σ : Type} (obs : RuleObserver σ) (timed : Bool) (r : RuleRun σ)

theorem charged_produceAll (id : ContextId) (ks : List Conclusion) :
    Charged e (6 * ks.length) r.work (r.produceAll id ks).work := by
  induction ks generalizing r with
  | nil => exact ⟨rfl, fun h => h, Nat.le_refl _, Nat.le_refl _⟩
  | cons k rest ih =>
    have hfirst : Charged e 6 r.work (r.produce id k).work :=
      (charged_produce id k).mono (Nat.add_le_add_right k.weight_le 2)
    exact (hfirst.trans (ih (r.produce id k))).mono (by rw [List.length_cons]; omega)

theorem charged_obtain (root : NodeId) : Charged e 12 r.work (r.obtain obs root).2.work := by
  cases hf : r.work.state.find? root with
  | some id =>
    rw [obtain_of_some obs r hf]
    exact ⟨rfl, fun h => h, Nat.le_refl _, Nat.le_add_right _ _⟩
  | none =>
    have hinitial : (RuleRun.initialConclusions r.work.state.ontology root).length ≤ 2 := by
      unfold RuleRun.initialConclusions
      split <;> simp
    rw [obtain_of_none obs r hf, work_notifyCreated]
    exact ((charged_insert hf).trans (charged_produceAll { r with work := _ } _ _)).mono (by omega)

theorem charged_perform (id : ContextId) (eff : Effect) :
    Charged e eff.charge r.work (r.perform obs timed id eff).work := by
  cases eff with
  | own k => exact charged_produce id k
  | send root ks =>
    exact ((charged_obtain obs r root).trans
      (charged_produceAll (r.obtain obs root).2 _ ks)).mono (Nat.le_of_eq (Nat.add_comm _ _))
  | decomposed | applied | refuted => exact .same rfl rfl rfl (n := 0) (Nat.le_refl _)

theorem charged_effects (id : ContextId) (es : List Effect) :
    Charged e (charges es) r.work (es.foldl (RuleRun.perform obs timed id) r).work := by
  induction es generalizing r with
  | nil => exact ⟨rfl, fun h => h, Nat.le_refl _, Nat.le_refl _⟩
  | cons eff rest ih => exact (charged_perform obs timed r id eff).trans (ih _)

/-! ### What is left to do -/

/-- What is left to do at most: what is pending, and what new facts may lead to. -/
def effort (e : Nat) (w : Workspace) : Nat := w.load + 6 * w.state.ontology.yield e * w.room

theorem Charged.effort (h : Charged e n w v) : v.effort e ≤ w.effort e + n := by
  have hpay := Nat.mul_le_mul_left (6 * w.state.ontology.yield e) h.room
  have hload := h.load
  simp only [Workspace.effort, h.ontology]
  omega

theorem effort_take (ht : w.takeActive? = some (id, v)) (hd : Distinct e w) :
    Distinct e v ∧ v.effort e + 2 = w.effort e := by
  obtain ⟨rest, ha, rfl⟩ := active_of_take ht
  refine ⟨hd, ?_⟩
  simp only [effort, load, room, sumOf, absent, ha, List.length_cons]
  omega

/-- What a conclusion is taken from gives its weight, and as much room as it comes to know facts. -/
theorem load_replace {d : Context} {rest : List Conclusion} (hc : w.context? id = some c)
    (hp : c.pending = k :: rest) (hd : d.pending = rest) :
    ((w.modify id (·.popped)).modify id fun _ => d).load + k.weight = w.load ∧
      ((w.modify id (·.popped)).modify id fun _ => d).room + (factBound - c.known)
        = w.room + (factBound - d.known) := by
  have hcv : (w.modify id (·.popped)).context? id = some c.popped := by
    rw [context?_modify, if_pos rfl, hc, Option.map_some]
  have hsum (g : Context → Nat) : ((w.modify id (·.popped)).modify id fun _ => d).sumOf g
      + g c.popped + g c = w.sumOf g + g c.popped + g d := by
    have h₁ := sumOf_modify (g := g) (f := (·.popped)) hc
    have h₂ := sumOf_modify (g := g) (f := fun _ => d) hcv
    omega
  have hstate : ((w.modify id (·.popped)).modify id fun _ => d).state = w.state := rfl
  have hpopped : c.popped.pending = rest := by simp [Context.popped, hp]
  constructor
  · have hload := hsum fun c => (c.pending.map Conclusion.weight).sum
    simp only [hpopped, hp, hd, List.map_cons, List.sum_cons] at hload
    simp only [load, hstate]
    omega
  · have hroom := hsum fun c => factBound - c.known
    have hsame : c.popped.known = c.known := rfl
    simp only [hsame] at hroom
    simp only [room, absent, hstate]
    omega

theorem effort_process (hd : Distinct e w) (hpop : w.pop? id = some (k, v))
    (stats : RuleStatistics) (env : σ) :
    Distinct e (RuleRun.apply obs timed ⟨v, stats, env⟩ id k).work ∧
      (RuleRun.apply obs timed ⟨v, stats, env⟩ id k).work.effort e < w.effort e := by
  obtain ⟨rfl, c, rest, hc, hp⟩ := context?_of_pop hpop
  have hcv : (w.modify id (·.popped)).context? id = some c.popped := by
    rw [context?_modify, if_pos rfl, hc, Option.map_some]
  have hfound : c.popped.facts.Distinct e := hd id c hc
  obtain ⟨hfacts, hcomes⟩ : Context.Comes w.state.ontology e c.popped k
      (c.popped.derive w.state.ontology (w.layout id) k) :=
    Context.comes_derive hfound w.state.ontology k
  have hpending : (c.popped.derive w.state.ontology (w.layout id) k).1.pending = rest := by
    rw [Context.pending_derive]
    simp [Context.popped, hp]
  obtain ⟨hload, hroom⟩ := load_replace hc hp hpending
  have hstate : (w.modify id (·.popped)).state = w.state := rfl
  have hlayout : (w.modify id (·.popped)).layout = w.layout := rfl
  have happly := apply_eq obs timed ⟨w.modify id (·.popped), stats, env⟩ (k := k) hcv
  rw [hstate, hlayout] at happly
  have heffects := charged_effects (e := e) obs timed
    ⟨(w.modify id (·.popped)).modify id fun _ =>
        (c.popped.derive w.state.ontology (w.layout id) k).1,
      stats.countProcessed k.kind, env⟩ id (c.popped.derive w.state.ontology (w.layout id) k).2
  rw [← happly] at heffects
  obtain ⟨hontology, hdistinct, hr, hl⟩ := heffects
  refine ⟨hdistinct (distinct_modify (distinct_modify hd fun c hc => hd id c hc) fun _ _ => hfacts),
    ?_⟩
  have hknown := (c.popped.derive w.state.ontology (w.layout id) k).1.known_le
  have hsame : c.popped.known = c.known := rfl
  unfold effort
  rw [hontology]
  change _ + 6 * w.state.ontology.yield e * _ < _
  generalize 6 * w.state.ontology.yield e = y at hcomes ⊢
  dsimp only at hl hr
  have hpay := Nat.mul_le_mul_left y hr
  rcases hcomes with ⟨hnew, hcharge⟩ | ⟨hold, hcharge⟩
  · -- The new fact takes room, which pays for all that follows.
    have hw : w.room = ((w.modify id (·.popped)).modify id fun _ =>
      (c.popped.derive w.state.ontology (w.layout id) k).1).room + 1 := by omega
    have hweight : 0 < k.weight := by cases k <;> simp [Conclusion.weight]
    rw [hw, Nat.mul_succ]
    omega
  · have hpay' := Nat.mul_le_mul_left y (hr.trans (show _ ≤ w.room by omega))
    omega

/-! ### The fuel of a pass -/

theorem sumOf_le {g : Context → Nat} {b : Nat} (hg : ∀ c, g c ≤ b) (w : Workspace) :
    w.sumOf g ≤ b * w.store.size := by
  rw [Nat.mul_comm]
  refine (List.sum_le_card_nsmul _ b ?_).trans_eq (by simp)
  intro n hn
  obtain ⟨c, _, rfl⟩ := List.mem_map.mp hn
  exact hg c

theorem distinct_factCount (w : Workspace) : Distinct w.factCount w := by
  intro id c hc
  refine c.facts.distinct_size.mono (List.le_sum_of_mem (List.mem_map.mpr ⟨c, ?_, rfl⟩))
  exact Array.mem_toList_iff.mpr (Array.mem_of_getElem? hc)

theorem weight_le_pendingCount (w : Workspace) :
    w.sumOf (fun c => (c.pending.map Conclusion.weight).sum) ≤ 4 * w.pendingCount := by
  have hweight : ∀ ks : List Conclusion, (ks.map Conclusion.weight).sum ≤ 4 * ks.length := by
    intro ks
    rw [Nat.mul_comm]
    refine (List.sum_le_card_nsmul _ 4 ?_).trans_eq (by simp)
    intro n hn
    obtain ⟨k, _, rfl⟩ := List.mem_map.mp hn
    exact k.weight_le
  unfold sumOf pendingCount
  induction w.store.toList with
  | nil => exact Nat.le_refl _
  | cons c rest ih =>
    have hc := hweight c.pending
    simp only [List.map_cons, List.sum_cons, List.foldr_cons]
    omega

theorem effort_lt_passBound (w : Workspace) : w.effort w.factCount < w.passBound := by
  have hpending := w.weight_le_pendingCount
  have hroom : w.room ≤ factBound * (UInt32.size + w.store.size) := by
    have hsum : w.sumOf (fun c => factBound - c.known) ≤ factBound * w.store.size :=
      sumOf_le (fun c => Nat.sub_le _ _) w
    have habsent := Nat.mul_le_mul_left factBound (show w.absent ≤ UInt32.size from Nat.sub_le _ _)
    rw [room, Nat.mul_add]
    omega
  have hyield : w.state.ontology.yield w.factCount = w.yieldBound := rfl
  have hpay := Nat.mul_le_mul_left (6 * w.yieldBound) hroom
  have hcomm : 6 * (factBound * (UInt32.size + w.store.size)) * w.yieldBound
      = 6 * w.yieldBound * (factBound * (UInt32.size + w.store.size)) := Nat.mul_right_comm _ _ _
  rw [effort, hyield, passBound, hcomm, load]
  omega

end Workspace

namespace RuleRun

open Workspace

variable {σ : Type} {obs : RuleObserver σ} {timed : Bool} {hand : Option ContextId}
  {r r' r'' : RuleRun σ} {b b' : Bool} {e : Nat}

/-- A pass from its beginning to its end: with a context in hand or none, it leads from one run to
another, and the flag has stopped it or not. -/
inductive Passes (obs : RuleObserver σ) (timed : Bool) :
    Option ContextId → RuleRun σ → Bool → RuleRun σ → Prop
  | process {r id k work b r'} (h : r.work.pop? id = some (k, work))
    (rest : Passes obs timed (some id) (({ r with work } : RuleRun σ).apply obs timed id k) b r') :
    Passes obs timed (some id) r b r'
  | layDown {r id b r'} (h : r.work.pop? id = none)
    (rest : Passes obs timed none { r with work := r.work.setActive id false } b r') :
    Passes obs timed (some id) r b r'
  | stopped {r env} (h : obs.poll r.env = (true, env)) : Passes obs timed none r true { r with env }
  | drained {r env} (h : obs.poll r.env = (false, env)) (ht : r.work.takeActive? = none) :
    Passes obs timed none r false { r with env }
  | take {r env id work b r'} (h : obs.poll r.env = (false, env))
    (ht : r.work.takeActive? = some (id, work))
    (rest : Passes obs timed (some id) ⟨work, r.stats.countContext, env⟩ b r') :
    Passes obs timed none r b r'

theorem passes_loop (fuel : Nat) (hd : Distinct e r.work)
    (hf : hand.toList.length + r.work.effort e < fuel) :
    Passes obs timed hand r (loop obs timed fuel hand r).1 (loop obs timed fuel hand r).2 := by
  induction fuel generalizing hand r with
  | zero => exact absurd hf (Nat.not_lt_zero _)
  | succ fuel ih =>
    cases hand with
    | some id =>
      rw [loop]
      split
      · rename_i hpop
        obtain ⟨hd', hlt⟩ := effort_process obs timed hd hpop r.stats r.env
        refine .process hpop (ih hd' ?_)
        simp only [Option.toList_some, List.length_singleton] at hf ⊢
        omega
      · rename_i hpop
        have hdown : Charged e 0 r.work (r.work.setActive id false) :=
          charged_modify id (fun _ => ⟨rfl, rfl⟩) fun _ => Nat.le_refl _
        have heffort := hdown.effort
        refine .layDown hpop (ih (hdown.distinct hd) ?_)
        simp only [Option.toList_some, Option.toList_none, List.length_singleton,
          List.length_nil] at hf ⊢
        omega
    | none =>
      rw [loop]
      split
      · exact .stopped ‹_›
      · split
        · exact .drained ‹_› ‹_›
        · rename_i ht
          obtain ⟨hd', heffort⟩ := effort_take ht hd
          refine .take ‹_› ht (ih hd' ?_)
          simp only [Option.toList_some, Option.toList_none, List.length_singleton,
            List.length_nil] at hf ⊢
          omega

/-- A pass always comes to its end: it is never cut short for want of fuel. -/
theorem passes_process (obs : RuleObserver σ) (timed : Bool) (r : RuleRun σ) :
    Passes obs timed none r (r.process obs timed).1 (r.process obs timed).2 := by
  refine passes_loop _ r.work.distinct_factCount ?_
  rw [Option.toList_none, List.length_nil, Nat.zero_add]
  exact r.work.effort_lt_passBound

/-- How a pass goes is determined by where it begins. -/
theorem Passes.unique (h : Passes obs timed hand r b r') (h' : Passes obs timed hand r b' r'') :
    b = b' ∧ r' = r'' := by
  induction h with
  | process hpop _ ih =>
    cases h' with
    | process hpop' rest =>
      cases hpop.symm.trans hpop'
      exact ih rest
    | layDown hpop' => cases hpop.symm.trans hpop'
  | layDown hpop _ ih =>
    cases h' with
    | process hpop' => cases hpop.symm.trans hpop'
    | layDown _ rest => exact ih rest
  | stopped hp =>
    cases h' with
    | stopped hp' =>
      cases hp.symm.trans hp'
      exact ⟨rfl, rfl⟩
    | drained hp' => cases hp.symm.trans hp'
    | take hp' => cases hp.symm.trans hp'
  | drained hp ht =>
    cases h' with
    | stopped hp' => cases hp.symm.trans hp'
    | drained hp' =>
      cases hp.symm.trans hp'
      exact ⟨rfl, rfl⟩
    | take hp' ht' => cases ht.symm.trans ht'
  | take hp ht _ ih =>
    cases h' with
    | stopped hp' => cases hp.symm.trans hp'
    | drained hp' ht' => cases ht.symm.trans ht'
    | take hp' ht' rest =>
      cases hp.symm.trans hp'
      cases ht.symm.trans ht'
      exact ih rest

/-- Where the flag is never found set, nothing stops a pass. -/
theorem Passes.calm (h : Passes obs timed hand r b r') (hc : ∀ e, obs.poll e = (false, e)) :
    b = false := by
  induction h with
  | process _ _ ih => exact ih
  | layDown _ _ ih => exact ih
  | stopped hp => cases (hc _).symm.trans hp
  | drained => rfl
  | take _ _ _ ih => exact ih

/-- A pass that the flag has not stopped leaves no context in the queue. -/
theorem Passes.drains (h : Passes obs timed hand r b r') (hb : b = false) :
    r'.work.state.active = [] := by
  induction h with
  | process _ _ ih => exact ih hb
  | layDown _ _ ih => exact ih hb
  | stopped => cases hb
  | @drained r env _ ht =>
    unfold takeActive? at ht
    split at ht
    · rename_i ha
      exact ha
    · cases ht
  | take _ _ _ ih => exact ih hb

end RuleRun

end Subsumption
