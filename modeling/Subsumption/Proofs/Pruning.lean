import Subsumption.Proofs.Resaturation
import Subsumption.Proofs.Tables

/-! Tables beside the facts of a context. A link stands in the list of its relation and in a set of
all links; the two are filled and pruned each on its own, and say the same all the time. -/
namespace Subsumption

theorem rel_getD {α β : Type} {R : α → β → Prop} {a : α} {b : β} {a' : Option α} {b' : Option β}
    (h : R a b) (h' : Option.Rel R a' b') : R (a'.getD a) (b'.getD b) := by
  cases h' with
  | none => exact h
  | some h' => exact h'

/-! ### Pairs in tables -/

/-- Pairs of a property and a node: the nodes of each property, oldest first, and the set of all
pairs, in which pairs are looked up. -/
structure Pairs where
  nodes : Std.HashMap PropertyId (List NodeId)
  all : Std.HashSet (PropertyId × NodeId)

namespace Pairs

variable {t : Pairs} {l : List (PropertyId × NodeId)} {r : PropertyId} {n : NodeId}
  {keep : NodeId → Bool}

def empty : Pairs := ⟨∅, ∅⟩

/-- The nodes of a property. -/
def of (t : Pairs) (r : PropertyId) : List NodeId := t.nodes[r]?.getD []

/-- Puts a pair into the list of its property and into the set. -/
def put (t : Pairs) (r : PropertyId) (n : NodeId) : Pairs :=
  ⟨t.nodes.alter r fun ns => some (ns.getD [] ++ [n]), t.all.insert (r, n)⟩

/-- A pair that the set has is known. -/
def insert? (t : Pairs) (r : PropertyId) (n : NodeId) : Option Pairs :=
  if t.all.contains (r, n) then none else some (t.put r n)

/-- The pairs with nodes that are kept; a property that is left without nodes is dropped. -/
def retain (t : Pairs) (keep : NodeId → Bool) : Pairs :=
  ⟨(t.nodes.map fun _ ns => ns.filter keep).filter fun _ ns => !ns.isEmpty,
    t.all.filter (keep ·.2)⟩

/-- List and set have the same pairs, none of them twice, and no property has an empty list. -/
structure Agree (t : Pairs) : Prop where
  once : ∀ r, (t.of r).Nodup
  all : ∀ r n, (r, n) ∈ t.all ↔ n ∈ t.of r
  filled : ∀ (r : PropertyId) (ns : List NodeId), t.nodes[r]? = some ns → ns ≠ []

/-- The tables hold the pairs of a list, in the same order for each property. -/
structure Hold (t : Pairs) (l : List (PropertyId × NodeId)) : Prop where
  once : l.Nodup
  of : ∀ r, t.of r = (l.filter (·.1 == r)).map (·.2)
  filled : ∀ (r : PropertyId) (ns : List NodeId), t.nodes[r]? = some ns → ns ≠ []
  all : ∀ x, x ∈ t.all ↔ x ∈ l

theorem hold_empty : Hold empty [] :=
  ⟨List.nodup_nil, by simp [empty, of], by simp [empty], by simp [empty]⟩

theorem Hold.mem_of (h : t.Hold l) : n ∈ t.of r ↔ (r, n) ∈ l := by
  rw [h.of]
  simp

theorem Hold.agree (h : t.Hold l) : t.Agree where
  once r := by
    rw [h.of]
    exact Facts.nodup_at h.once r
  all r n := by rw [h.all, h.mem_of]
  filled := h.filled

theorem of_put {s : PropertyId} : (t.put s n).of r = if s = r then t.of r ++ [n] else t.of r := by
  simp only [of, put, Std.HashMap.getElem?_alter, beq_iff_eq]
  split
  · rename_i he
    rw [he, Option.getD_some]
  · rfl

theorem Hold.put (h : t.Hold l) (hnew : (r, n) ∉ l) : (t.put r n).Hold (l ++ [(r, n)]) where
  once := List.concat_eq_append ▸ h.once.concat hnew
  of s := by
    rw [of_put, h.of]
    by_cases hs : r = s <;> simp [hs]
  filled s ns hns := by
    rw [Pairs.put, Std.HashMap.getElem?_alter] at hns
    split at hns
    · cases hns
      simp
    · exact h.filled s ns hns
  all x := by
    rw [Pairs.put, Std.HashSet.mem_insert, h.all, List.mem_append, List.mem_singleton, beq_iff_eq]
    constructor
    · rintro (rfl | hx)
      · exact Or.inr rfl
      · exact Or.inl hx
    · rintro (hx | rfl)
      · exact Or.inr hx
      · exact Or.inl rfl

/-- A pair is taken as new if it is not in the list. -/
theorem Hold.insert?_eq (h : t.Hold l) (r : PropertyId) (n : NodeId) :
    t.insert? r n = if l.contains (r, n) then none else some (t.put r n) := by
  have hsame : t.all.contains (r, n) = l.contains (r, n) := by
    rw [Bool.eq_iff_iff, Std.HashSet.contains_iff_mem, h.all, List.contains_iff_mem]
  rw [insert?, hsame]

theorem Agree.insert?_eq (h : t.Agree) (r : PropertyId) (n : NodeId) :
    t.insert? r n = if n ∈ t.of r then none else some (t.put r n) := by
  simp only [insert?, Std.HashSet.contains_iff_mem, h.all]

theorem of_retain : (t.retain keep).of r = (t.of r).filter keep := by
  simp only [of, retain, Std.HashMap.getElem?_filter', Std.HashMap.getElem?_map]
  cases t.nodes[r]? with
  | none => rfl
  | some ns => by_cases hns : ns.filter keep = [] <;> simp [Option.filter, hns]

theorem Hold.retain (h : t.Hold l) (keep : NodeId → Bool) :
    (t.retain keep).Hold (l.filter (keep ·.2)) where
  once := h.once.filter _
  of r := by
    rw [of_retain, h.of, List.filter_map, List.filter_filter, List.filter_filter]
    simp only [Function.comp_def, Bool.and_comm]
  filled r ns hns := by
    rw [Pairs.retain, Std.HashMap.getElem?_filter'] at hns
    simpa using (Option.filter_eq_some_iff.mp hns).2
  all x := by simp [Pairs.retain, Std.HashSet.mem_filter, h.all]

/-- To go through the table is to come to the sources in one of the orders that they may have. -/
theorem Hold.flatMap_nodes {f : Facts} (h : t.Hold f.backward) :
    t.nodes.toList.flatMap (·.2) = f.sources t.nodes.keys := by
  have hkeys : ∀ p ∈ f.backward, p.1 ∈ t.nodes.keys := by
    rintro ⟨r, n⟩ hp
    rw [Std.HashMap.mem_keys, ← Std.HashMap.isSome_getElem?_iff_mem]
    have hn : n ∈ t.of r := h.mem_of.mpr hp
    cases hr : t.nodes[r]? with
    | some ns => rfl
    | none => simp [Pairs.of, hr] at hn
  rw [Facts.sources_of_order Std.HashMap.nodup_keys hkeys, ← Std.HashMap.map_fst_toList_eq_keys,
    List.flatMap_map]
  refine List.flatMap_congr fun p hp => ?_
  have hof : t.of p.1 = p.2 := by
    rw [Pairs.of, Std.HashMap.mem_toList_iff_getElem?_eq_some.mp hp, Option.getD_some]
  rw [← hof, h.of, Facts.backwardSources]

theorem all_nodes : (t.nodes.all fun _ ns => ns.all keep) = true ↔
    ∀ r, ∀ n ∈ t.of r, keep n = true := by
  rw [Std.HashMap.all_eq_true_iff_forall_mem_getElem]
  constructor
  · intro h r n hn
    cases hr : t.nodes[r]? with
    | none => simp [Pairs.of, hr] at hn
    | some ns =>
      obtain ⟨hin, hget⟩ := Std.HashMap.getElem?_eq_some_iff.mp hr
      have hns := h r hin
      rw [hget] at hns
      exact List.all_eq_true.mp hns n (by simpa [of, hr] using hn)
  · intro h r hin
    apply List.all_eq_true.mpr
    intro n hn
    exact h r n (by simpa [of, Std.HashMap.getElem?_eq_some_getElem hin] using hn)

end Pairs

/-! ### Facts in tables -/

/-- Records what a conclusion says; a contradiction is a flag and no fact. -/
def Facts.learn (f : Facts) : Conclusion → Facts
  | .subsumer n _ => (f.insertSubsumer? n).getD f
  | .forwardLink r n => f.insertForward r n
  | .backwardLink n r => (f.insertBackward? r n).getD f
  | .propagation r n => (f.insertPropagation? r n).getD f
  | .contradiction => f
  | .disjointSubsumer d n => f.insertDisjoint d n

deriving instance Hashable for DisjointnessId

/-- The facts of a context, in tables in which they are looked up. -/
structure FactTables where
  subsumers : List NodeId
  subsumerSet : Std.HashSet NodeId
  backward : Pairs
  forward : Std.HashSet (PropertyId × NodeId)
  propagations : Pairs
  disjoint : Std.HashMap DisjointnessId (List NodeId)

namespace FactTables

variable {t : FactTables} {f : Facts} {r : PropertyId} {n : NodeId} {d : DisjointnessId}

def empty : FactTables := ⟨[], ∅, .empty, ∅, .empty, ∅⟩

def insertSubsumer? (t : FactTables) (n : NodeId) : Option FactTables :=
  if t.subsumerSet.contains n then none
  else some { t with subsumers := t.subsumers ++ [n], subsumerSet := t.subsumerSet.insert n }

def insertBackward? (t : FactTables) (r : PropertyId) (source : NodeId) : Option FactTables :=
  (t.backward.insert? r source).map fun links => { t with backward := links }

def insertForward (t : FactTables) (r : PropertyId) (target : NodeId) : FactTables :=
  { t with forward := t.forward.insert (r, target) }

def insertPropagation? (t : FactTables) (r : PropertyId) (carry : NodeId) : Option FactTables :=
  (t.propagations.insert? r carry).map fun pairs => { t with propagations := pairs }

/-- The members of an axiom that are known to subsume the root. -/
def members (t : FactTables) (d : DisjointnessId) : List NodeId := t.disjoint[d]?.getD []

def insertDisjoint (t : FactTables) (d : DisjointnessId) (member : NodeId) : FactTables :=
  if (t.members d).contains member then t
  else { t with disjoint := t.disjoint.insert d (t.members d ++ [member]) }

def learn (t : FactTables) : Conclusion → FactTables
  | .subsumer n _ => (t.insertSubsumer? n).getD t
  | .forwardLink r n => t.insertForward r n
  | .backwardLink n r => (t.insertBackward? r n).getD t
  | .propagation r n => (t.insertPropagation? r n).getD t
  | .contradiction => t
  | .disjointSubsumer d n => t.insertDisjoint d n

/-- Lists and sets have the same facts, none of them twice. -/
structure Agree (t : FactTables) : Prop where
  once : t.subsumers.Nodup
  subsumers : ∀ n, n ∈ t.subsumerSet ↔ n ∈ t.subsumers
  backward : t.backward.Agree
  propagations : t.propagations.Agree

/-- The tables hold the facts. -/
structure InStep (t : FactTables) (f : Facts) : Prop where
  once : f.subsumers.Nodup
  subsumers : t.subsumers = f.subsumers
  subsumerSet : ∀ n, n ∈ t.subsumerSet ↔ n ∈ f.subsumers
  backward : t.backward.Hold f.backward
  forward : ∀ x, x ∈ t.forward ↔ x ∈ f.forward
  propagations : t.propagations.Hold f.propagations
  disjoint : ∀ d, t.members d = f.disjointMembers d

theorem InStep.agree (h : t.InStep f) : t.Agree where
  once := h.subsumers ▸ h.once
  subsumers n := by rw [h.subsumerSet, h.subsumers]
  backward := h.backward.agree
  propagations := h.propagations.agree

theorem inStep_empty : InStep empty .empty where
  once := List.nodup_nil
  subsumers := rfl
  subsumerSet n := by simp [empty, Facts.empty]
  backward := Pairs.hold_empty
  forward x := by simp [empty, Facts.empty]
  propagations := Pairs.hold_empty
  disjoint d := by simp [empty, members, Facts.empty, Facts.disjointMembers]

theorem InStep.insertSubsumer? (h : t.InStep f) (n : NodeId) :
    Option.Rel InStep (t.insertSubsumer? n) (f.insertSubsumer? n) := by
  have hsame : t.subsumerSet.contains n = f.hasSubsumer n := by
    rw [Facts.hasSubsumer, Bool.eq_iff_iff, Std.HashSet.contains_iff_mem, h.subsumerSet,
      List.contains_iff_mem]
  rw [FactTables.insertSubsumer?, Facts.insertSubsumer?, hsame]
  split
  · exact .none
  · rename_i hnew
    have hnot : n ∉ f.subsumers := by simpa [Facts.hasSubsumer] using hnew
    refine .some { h with once := ?_, subsumers := ?_, subsumerSet := ?_ }
    · exact List.concat_eq_append ▸ h.once.concat hnot
    · rw [h.subsumers]
    · intro m
      rw [Std.HashSet.mem_insert, h.subsumerSet, List.mem_append, List.mem_singleton, beq_iff_eq,
        or_comm, eq_comm]

theorem InStep.insertBackward? (h : t.InStep f) (r : PropertyId) (n : NodeId) :
    Option.Rel InStep (t.insertBackward? r n) (f.insertBackward? r n) := by
  rw [FactTables.insertBackward?, Facts.insertBackward?, Facts.hasBackward, h.backward.insert?_eq]
  split
  · exact .none
  · rename_i hnew
    exact .some { h with backward := h.backward.put (by simpa using hnew) }

theorem InStep.insertPropagation? (h : t.InStep f) (r : PropertyId) (n : NodeId) :
    Option.Rel InStep (t.insertPropagation? r n) (f.insertPropagation? r n) := by
  rw [FactTables.insertPropagation?, Facts.insertPropagation?, Facts.hasPropagation,
    h.propagations.insert?_eq]
  split
  · exact .none
  · rename_i hnew
    exact .some { h with propagations := h.propagations.put (by simpa using hnew) }

theorem InStep.insertForward (h : t.InStep f) (r : PropertyId) (n : NodeId) :
    (t.insertForward r n).InStep (f.insertForward r n) := by
  rw [Facts.insertForward]
  split
  · rename_i hold
    refine { h with forward := fun x => ?_ }
    rw [FactTables.insertForward, Std.HashSet.mem_insert, h.forward, beq_iff_eq]
    exact ⟨fun hx => hx.elim (fun he => he ▸ by simpa using hold) id, Or.inr⟩
  · refine { h with forward := fun x => ?_ }
    rw [FactTables.insertForward, Std.HashSet.mem_insert, h.forward, List.mem_append,
      List.mem_singleton, beq_iff_eq, or_comm, eq_comm]

theorem InStep.insertDisjoint (h : t.InStep f) (d : DisjointnessId) (n : NodeId) :
    (t.insertDisjoint d n).InStep (f.insertDisjoint d n) := by
  have hsame : (t.members d).contains n = f.disjoint.contains (d, n) := by
    rw [h.disjoint, Bool.eq_iff_iff, List.contains_iff_mem, List.contains_iff_mem,
      Facts.mem_disjointMembers]
  rw [FactTables.insertDisjoint, Facts.insertDisjoint, hsame]
  split
  · exact h
  · refine { h with disjoint := fun e => ?_ }
    have he := h.disjoint e
    simp only [members, Facts.disjointMembers, Std.HashMap.getElem?_insert] at he ⊢
    by_cases hd : d = e
    · subst hd
      simp [he]
    · simp [hd, he]

theorem InStep.learn (h : t.InStep f) (k : Conclusion) : (t.learn k).InStep (f.learn k) := by
  cases k with
  | subsumer n _ => exact rel_getD h (h.insertSubsumer? n)
  | forwardLink r n => exact h.insertForward r n
  | backwardLink n r => exact rel_getD h (h.insertBackward? r n)
  | propagation r n => exact rel_getD h (h.insertPropagation? r n)
  | contradiction => exact h
  | disjointSubsumer d n => exact h.insertDisjoint d n

end FactTables

/-! ### Contexts -/

namespace Context

variable {c : Context} {kept : List NodeId} {order : List PropertyId}

/-- What may happen to a context. -/
inductive Step where
  | learn (k : Conclusion)
  | prune (kept : List NodeId)
  /-- Flags, token and queue change, in whatever way. -/
  | turn (saturated inconsistent active : Bool) (pending : List Conclusion)

def perform (c : Context) : Step → Context
  | .learn k => { c with facts := c.facts.learn k }
  | .prune kept => c.pruned kept
  | .turn saturated inconsistent active pending =>
    { c with saturated, inconsistent, active, pending }

/-- The context that a history of steps leaves, the latest step first. -/
def after (root : NodeId) : List Step → Context
  | [] => .fresh root
  | step :: earlier => (after root earlier).perform step

/-- What a context derives from a conclusion it takes is one of these steps. -/
theorem exists_step_derive (o : Ontology) (c : Context) (k : Conclusion) :
    ∃ step, (c.derive o order k).1 = c.perform step := by
  have hnothing : c = c.perform (.turn c.saturated c.inconsistent c.active c.pending) := rfl
  rw [derive]
  split
  · cases k with
    | backwardLink n r =>
      refine ⟨.learn (.backwardLink n r), ?_⟩
      cases h : c.facts.insertBackward? r n <;> simp [deriveInconsistent, perform, Facts.learn, h]
    | _ => exact ⟨_, hnothing⟩
  · cases k with
    | subsumer n origin =>
      refine ⟨.learn (.subsumer n origin), ?_⟩
      cases h : c.facts.insertSubsumer? n <;> simp [deriveConsistent, perform, Facts.learn, h]
    | forwardLink r n => exact ⟨.learn (.forwardLink r n), rfl⟩
    | backwardLink n r =>
      refine ⟨.learn (.backwardLink n r), ?_⟩
      cases h : c.facts.insertBackward? r n <;> simp [deriveConsistent, perform, Facts.learn, h]
    | propagation r n =>
      refine ⟨.learn (.propagation r n), ?_⟩
      cases h : c.facts.insertPropagation? r n <;> simp [deriveConsistent, perform, Facts.learn, h]
    | contradiction => exact ⟨.turn c.saturated true c.active c.pending, rfl⟩
    | disjointSubsumer d n => exact ⟨.learn (.disjointSubsumer d n), rfl⟩

end Context

/-- A context with its facts in tables. -/
structure TabledContext where
  root : NodeId
  saturated : Bool
  inconsistent : Bool
  active : Bool
  pending : List Conclusion
  facts : FactTables

namespace TabledContext

variable {x y : TabledContext} {c d : Context} {kept : List NodeId}

def fresh (root : NodeId) : TabledContext := ⟨root, false, false, false, [], .empty⟩

/-- Whether every source linked to the root is among the kept ones. -/
def sourcesWithin (x : TabledContext) (kept : Std.HashSet NodeId) : Bool :=
  x.facts.backward.nodes.all fun _ sources => sources.all (kept.contains ·)

/-- A copy without the links from sources outside `kept`, idle and with nothing pending; there is no
need for one if all sources are kept. -/
def withoutSources? (x : TabledContext) (kept : Std.HashSet NodeId) : Option TabledContext :=
  if x.sourcesWithin kept then none
  else some { x with
    active := false
    pending := []
    facts := { x.facts with backward := x.facts.backward.retain (kept.contains ·) } }

def perform (x : TabledContext) : Context.Step → TabledContext
  | .learn k => { x with facts := x.facts.learn k }
  | .prune kept => (x.withoutSources? (.ofList kept)).getD x
  | .turn saturated inconsistent active pending =>
    { x with saturated, inconsistent, active, pending }

def after (root : NodeId) : List Context.Step → TabledContext
  | [] => .fresh root
  | step :: earlier => (after root earlier).perform step

/-- Both contexts are the same, with and without tables. -/
structure InStep (x : TabledContext) (c : Context) : Prop where
  root : x.root = c.root
  saturated : x.saturated = c.saturated
  inconsistent : x.inconsistent = c.inconsistent
  active : x.active = c.active
  pending : x.pending = c.pending
  facts : x.facts.InStep c.facts

theorem sourcesWithin_iff : x.sourcesWithin (.ofList kept) = true ↔
    ∀ r, ∀ n ∈ x.facts.backward.of r, n ∈ kept := by
  rw [sourcesWithin, Pairs.all_nodes]
  simp only [Std.HashSet.contains_ofList, List.contains_iff_mem]

theorem InStep.sourcesWithin (h : x.InStep c) :
    x.sourcesWithin (.ofList kept) = c.sourcesWithin kept := by
  rw [Bool.eq_iff_iff, sourcesWithin_iff, Context.sourcesWithin, List.all_eq_true]
  simp only [h.facts.backward.mem_of, List.contains_iff_mem]
  exact ⟨fun hall p hp => hall p.1 p.2 hp, fun hall r n hn => hall (r, n) hn⟩

theorem InStep.withoutSources? (h : x.InStep c) (kept : List NodeId) :
    Option.Rel InStep (x.withoutSources? (.ofList kept)) (c.withoutSources? kept) := by
  rw [TabledContext.withoutSources?, Context.withoutSources?, h.sourcesWithin]
  split
  · exact .none
  · refine .some { h with active := rfl, pending := rfl, facts := { h.facts with backward := ?_ } }
    simp only [Std.HashSet.contains_ofList]
    exact h.facts.backward.retain (kept.contains ·)

theorem InStep.perform (h : x.InStep c) (step : Context.Step) :
    (x.perform step).InStep (c.perform step) := by
  cases step with
  | learn k => exact { h with facts := h.facts.learn k }
  | prune kept => exact rel_getD h (h.withoutSources? kept)
  | turn => exact { h with saturated := rfl, inconsistent := rfl, active := rfl, pending := rfl }

theorem inStep_after (root : NodeId) (steps : List Context.Step) :
    (after root steps).InStep (.after root steps) := by
  induction steps with
  | nil => exact ⟨rfl, rfl, rfl, rfl, rfl, FactTables.inStep_empty⟩
  | cons step earlier ih => exact ih.perform step

/-- The copy without the links from sources that are not kept: nothing else is left out of it, and
just the dropped links are taken as new by it. -/
structure Prunes (x : TabledContext) (kept : List NodeId) (y : TabledContext) : Prop where
  root : y.root = x.root
  saturated : y.saturated = x.saturated
  inconsistent : y.inconsistent = x.inconsistent
  active : y.active = false
  pending : y.pending = []
  facts : { y.facts with backward := x.facts.backward } = x.facts
  agree : y.facts.Agree
  links : ∀ r, y.facts.backward.of r = (x.facts.backward.of r).filter (kept.contains ·)
  known : ∀ r n, n ∈ x.facts.backward.of r → n ∈ kept → y.facts.insertBackward? r n = none
  dropped : ∀ r n, n ∈ x.facts.backward.of r → n ∉ kept →
    ∃ again, y.facts.insertBackward? r n = some again ∧
      again.backward.of r = y.facts.backward.of r ++ [n]

theorem InStep.prunes (h : x.InStep c) (hy : x.withoutSources? (.ofList kept) = some y) :
    x.Prunes kept y := by
  have hagree : y.facts.Agree := by
    have hrel := h.withoutSources? kept
    rw [hy] at hrel
    generalize c.withoutSources? kept = copy at hrel
    cases hrel with
    | some hcopy => exact hcopy.facts.agree
  rw [TabledContext.withoutSources?] at hy
  split at hy
  · cases hy
  · cases hy
    have hlinks : ∀ r, (x.facts.backward.retain ((Std.HashSet.ofList kept).contains ·)).of r =
        (x.facts.backward.of r).filter (kept.contains ·) := by
      intro r
      rw [Pairs.of_retain]
      simp only [Std.HashSet.contains_ofList]
    refine ⟨rfl, rfl, rfl, rfl, rfl, rfl, hagree, hlinks, ?_, ?_⟩
    · intro r n hn hk
      have hin : n ∈ (x.facts.backward.of r).filter (kept.contains ·) := by simp [hn, hk]
      rw [FactTables.insertBackward?, hagree.backward.insert?_eq, hlinks, if_pos hin]
      rfl
    · intro r n hn hk
      have hout : n ∉ (x.facts.backward.of r).filter (kept.contains ·) := by simp [hk]
      rw [FactTables.insertBackward?, hagree.backward.insert?_eq, hlinks, if_neg hout]
      exact ⟨_, rfl, by rw [Pairs.of_put, if_pos rfl, hlinks]⟩

theorem withoutSources?_eq_none_iff : x.withoutSources? (.ofList kept) = none ↔
    ∀ r, ∀ n ∈ x.facts.backward.of r, n ∈ kept := by
  rw [← sourcesWithin_iff, withoutSources?]
  split <;> simp_all

/-- Whatever has been learnt and pruned before: lists and sets agree, and the tables hold the facts;
a context is copied if some source is not kept; the copy differs from it in the dropped links alone
and takes them as new; and the store has the context as it was. Contexts that learn by deriving are
among these. -/
theorem pruning_is_exact (root : NodeId) (steps : List Context.Step) (kept : List NodeId) :
    (after root steps).facts.Agree ∧
    (after root steps).InStep (.after root steps) ∧
    Option.Rel InStep ((after root steps).withoutSources? (.ofList kept))
      ((Context.after root steps).withoutSources? kept) ∧
    ((after root steps).withoutSources? (.ofList kept) = none ↔
      ∀ r, ∀ n ∈ (after root steps).facts.backward.of r, n ∈ kept) ∧
    (∀ y, (after root steps).withoutSources? (.ofList kept) = some y →
      (after root steps).Prunes kept y) ∧
    (∀ (store : Store) (id : ContextId), store[id.index]? = some (.after root steps) →
      (∀ (i : Nat) d, store[i]? = some d → (Workspace.carry kept store id).2[i]? = some d) ∧
      (Workspace.carry kept store id).2[(Workspace.carry kept store id).1.index]? =
        some ((Context.after root steps).pruned kept)) ∧
    ∀ o order k, ∃ step,
      ((Context.after root steps).derive o order k).1 = .after root (step :: steps) := by
  have h := inStep_after root steps
  refine ⟨h.facts.agree, h, h.withoutSources? kept, withoutSources?_eq_none_iff,
    fun y hy => h.prunes hy, ?_, fun o _ k => Context.exists_step_derive o _ k⟩
  intro store id hstore
  exact Workspace.carry_eq kept hstore

/-- A link that was pruned away has come again when the context is pruned anew. -/
def relinked : List Context.Step :=
  [.turn true false false [], .learn (.propagation ⟨0⟩ ⟨5⟩), .learn (.backwardLink ⟨2⟩ ⟨0⟩),
    .prune [⟨1⟩], .learn (.backwardLink ⟨2⟩ ⟨1⟩), .learn (.backwardLink ⟨2⟩ ⟨0⟩),
    .learn (.backwardLink ⟨1⟩ ⟨0⟩), .learn (.plain ⟨0⟩)]

theorem pruning_is_exact_relinked :
    (after ⟨0⟩ relinked).facts.backward.of ⟨0⟩ = [⟨1⟩, ⟨2⟩] ∧
    ∃ y, (after ⟨0⟩ relinked).withoutSources? (.ofList [⟨2⟩]) = some y ∧ y.saturated = true ∧
      y.facts.backward.of ⟨0⟩ = [⟨2⟩] ∧ y.facts.propagations.of ⟨0⟩ = [⟨5⟩] ∧
      y.facts.insertBackward? ⟨0⟩ ⟨2⟩ = none ∧
      ∃ again, y.facts.insertBackward? ⟨0⟩ ⟨1⟩ = some again ∧
        again.backward.of ⟨0⟩ = [⟨2⟩, ⟨1⟩] := by
  obtain ⟨_, h, _, hnone, hprunes, _⟩ := pruning_is_exact ⟨0⟩ relinked [⟨2⟩]
  have hlinks : (after ⟨0⟩ relinked).facts.backward.of ⟨0⟩ = [⟨1⟩, ⟨2⟩] :=
    (h.facts.backward.of _).trans (by decide)
  have hcarries : (after ⟨0⟩ relinked).facts.propagations.of ⟨0⟩ = [⟨5⟩] :=
    (h.facts.propagations.of _).trans (by decide)
  have hcopied : (after ⟨0⟩ relinked).withoutSources? (.ofList [⟨2⟩]) ≠ none := by
    intro he
    have hkept := hnone.mp he ⟨0⟩ ⟨1⟩ (by simp [hlinks])
    simp at hkept
  obtain ⟨y, hy⟩ := Option.ne_none_iff_exists'.mp hcopied
  have hy' := hprunes y hy
  have hleft : y.facts.backward.of ⟨0⟩ = [⟨2⟩] := by
    rw [hy'.links, hlinks]
    decide
  refine ⟨hlinks, y, hy, hy'.saturated.trans (h.saturated.trans rfl), hleft, ?_, ?_, ?_⟩
  · rw [← hcarries, ← hy'.facts]
  · exact hy'.known _ _ (by simp [hlinks]) (by simp)
  · simpa [hleft] using hy'.dropped ⟨0⟩ ⟨1⟩ (by simp [hlinks]) (by simp)

end TabledContext

end Subsumption
