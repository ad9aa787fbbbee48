import Subsumption.Proofs.LiveAxioms

/-! Tables beside an ontology. Numbers that a search through the nodes and the properties would find
can be read off tables that every call keeps up; call by call, the tables and the search agree. -/
namespace Subsumption

namespace Ontology

variable {o o' : Ontology} {n : NodeId} {p : PropertyId} {e : Expression} {name : String}

/-! ### What is searched -/

/-- The expressions of all nodes, oldest first. -/
def expressions (o : Ontology) : Array Expression := o.nodes.map (·.expression)

/-- The names of all properties, oldest first. -/
def names (o : Ontology) : Array String := o.properties.map (·.name)

/-- The name of a property. -/
def name? (o : Ontology) (p : PropertyId) : Option String := (o.property? p).map (·.name)

@[simp] theorem size_expressions : o.expressions.size = o.size := by
  simp [expressions, size]

@[simp] theorem size_names : o.names.size = o.properties.size := by
  simp [names]

theorem expression?_eq : o.expression? n = o.expressions[n.index]? := by
  simp [expression?, node?, expressions]

theorem name?_eq : o.name? p = o.names[p.index]? := by
  simp [name?, property?, names]

theorem find?_eq : o.find? e = (o.expressions.findIdx? (· == e)).map .ofIndex := by
  simp [find?, expressions, Array.findIdx?_map, Function.comp_def]

theorem findProperty?_eq : o.findProperty? name = (o.names.findIdx? (· == name)).map .ofIndex := by
  simp [findProperty?, names, Array.findIdx?_map, Function.comp_def]

theorem expressions_push : expressions { o with nodes := o.nodes.push (.fresh e) } =
    o.expressions.push e := by
  simp [expressions, Node.fresh]

theorem names_push {q : Property} : names { o with properties := o.properties.push q } =
    o.names.push q.name := by
  simp [names]

/-- A change to a node that leaves its expression alone. -/
theorem expressions_modify (f : Node → Node) (hf : ∀ m, (f m).expression = m.expression)
    (i : Nat) : expressions { o with nodes := o.nodes.modify i f } = o.expressions := by
  refine Array.ext_getElem? fun j => ?_
  simp only [expressions, Array.getElem?_map, Array.getElem?_modify]
  split
  · simp [Function.comp_def, hf]
  · rfl

@[simp] theorem expressions_modifyRules (f : RuleChain → RuleChain) :
    (o.modifyRules n f).expressions = o.expressions :=
  expressions_modify (fun m => { m with rules := f m.rules }) (fun _ => rfl) n.index

@[simp] theorem expressions_modifyNegative (f : UInt32 → UInt32) :
    (o.modifyNegative n f).expressions = o.expressions :=
  expressions_modify (fun m => { m with negative := f m.negative }) (fun _ => rfl) n.index

theorem names_withHierarchy : (withHierarchy o).names = o.names := by
  refine Array.ext_getElem? fun i => ?_
  simp [names, withHierarchy, Function.comp_def]

/-- The same expressions and names are searched in both. -/
structure SameEntries (o o' : Ontology) : Prop where
  expressions : o'.expressions = o.expressions
  names : o'.names = o.names
  toldProperties : o'.toldProperties = o.toldProperties

theorem sameEntries_adjust {u : Ontology} (h : Adjust o o') (hu : SameEntries u o) :
    SameEntries u o' := by
  cases h <;> exact ⟨by simpa using hu.expressions, hu.names, hu.toldProperties⟩

theorem sameEntries_attachMembers (d : DisjointnessId) (members : List NodeId) :
    SameEntries o (o.attachMembers d members) := by
  induction members generalizing o with
  | nil => exact ⟨rfl, rfl, rfl⟩
  | cons m rest ih =>
    have hrest := ih (o := o.modifyRules m (·.addDisjointness d))
    exact ⟨hrest.expressions.trans (expressions_modifyRules _), hrest.names, hrest.toldProperties⟩

/-- The calls that tell subclass or disjointness axioms or take them back: they edit chains and
counts. -/
theorem sameEntries_perform {c : Call} (hi : c.interns = false)
    (hc : ∀ p q, c ≠ .addSubProperty p q) : SameEntries o (o.perform c) := by
  have hsame : SameEntries o o := ⟨rfl, rfl, rfl⟩
  have hsupers (m : NodeId) (f : RuleChain → RuleChain) : SameEntries o (o.modifyRules m f) :=
    ⟨expressions_modifyRules f, rfl, rfl⟩
  cases c with
  | addClass | addIntersection | addExistential | addProperty => cases hi
  | addSubProperty p q => exact absurd rfl (hc p q)
  | addSubclass a b =>
    rcases o.addSubclass_eq a b with ⟨e, he⟩ | ⟨_, he⟩
    · rwa [perform, he]
    · rw [perform, he]
      exact preserved_adjusts (fun _ _ => sameEntries_adjust) (adjusts_register _ _) (hsupers a _)
  | removeSubclass a b =>
    rcases o.removeSubclass_eq a b with ⟨e, he⟩ | ⟨_, he⟩
    · rwa [perform, he]
    · rw [perform, he]
      split
      · exact preserved_adjusts (fun _ _ => sameEntries_adjust) (adjusts_withdraw _ _) (hsupers a _)
      · exact hsupers a (·.eraseSuper b)
  | addDisjointness members =>
    rcases o.addDisjointness_eq members with ⟨e, he⟩ | ⟨_, he⟩
    · rwa [perform, he]
    · have hmembers := sameEntries_attachMembers
        (o := { o with disjointness := o.disjointness.push ⟨members⟩ })
        (.ofIndex o.disjointness.size) members
      rw [perform, he]
      exact ⟨hmembers.expressions, hmembers.names, hmembers.toldProperties⟩

end Ontology

/-! ### Tables -/

deriving instance Hashable for NodeId, PropertyId, Expression

/-- An ontology with tables in which numbers are looked up. -/
structure Indexed where
  ontology : Ontology
  /-- The number of every expression that has one. -/
  numbers : Std.HashMap Expression NodeId
  /-- The number of every name that has one. -/
  propertyNumbers : Std.HashMap String PropertyId
  /-- The properties told to be directly above each property, in the order of the telling. -/
  above : Array (List PropertyId)

namespace Indexed

open Ontology (Call)

variable {x : Indexed}

def empty : Indexed :=
  ⟨.empty, (Std.HashMap.emptyWithCapacity.insert .top Ontology.top).insert .bottom Ontology.bottom,
    ∅, #[]⟩

/-- The node of an expression; the table says whether it is new. -/
def intern (x : Indexed) (e : Expression) : NodeId × Indexed :=
  match x.numbers[e]? with
  | some id => (id, x)
  | none =>
    let id := NodeId.ofIndex x.ontology.size
    (id, { x with
      ontology := { x.ontology with nodes := x.ontology.nodes.push (.fresh e) }
      numbers := x.numbers.insert e id })

def addProperty (x : Indexed) (name : String) : PropertyId × Indexed :=
  match x.propertyNumbers[name]? with
  | some id => (id, x)
  | none =>
    let id := PropertyId.ofIndex x.ontology.properties.size
    (id, { x with
      ontology := { x.ontology with
        properties := x.ontology.properties.push ⟨name, [id], [id]⟩ }
      propertyNumbers := x.propertyNumbers.insert name id
      above := x.above.push [] })

/-- The calls with their tables kept up; the calls about axioms use the numbers they are given. -/
def perform (x : Indexed) : Call → Indexed
  | .addClass name => (x.intern (.named name)).2
  | .addIntersection a b =>
    if a.index < x.ontology.size ∧ b.index < x.ontology.size then (x.intern (.meet a b)).2 else x
  | .addExistential p f =>
    if p.index < x.ontology.properties.size ∧ f.index < x.ontology.size then
      (x.intern (.existential p f)).2
    else x
  | .addProperty name => (x.addProperty name).2
  | .addSubProperty p q =>
    if p.index < x.ontology.properties.size ∧ q.index < x.ontology.properties.size then
      { x with
        ontology := x.ontology.perform (.addSubProperty p q)
        above := x.above.modify p.index (· ++ [q]) }
    else x
  | c => { x with ontology := x.ontology.perform c }

/-- The ontology and the tables that a history of calls leaves, the latest call first. -/
def after : List Call → Indexed
  | [] => empty
  | c :: earlier => (after earlier).perform c

/-- The tables say what a search would find. -/
structure InStep (x : Indexed) : Prop where
  numbers : ∀ e, x.numbers[e]? = x.ontology.find? e
  propertyNumbers : ∀ name, x.propertyNumbers[name]? = x.ontology.findProperty? name
  size_above : x.above.size = x.ontology.properties.size
  above : ∀ p, x.above[p.index]?.getD [] = Ontology.directSupers x.ontology.toldProperties p

/-- A table that agrees with a search does so when a new key is put into both. -/
theorem getElem?_insert_eq_search {α β : Type} [DecidableEq α] [Hashable α]
    {table : Std.HashMap α β} {keys : Array α} {number : Nat → β}
    (h : ∀ a, table[a]? = (keys.findIdx? (· == a)).map number) {k : α} (hk : table[k]? = none)
    (a : α) :
    (table.insert k (number keys.size))[a]? = ((keys.push k).findIdx? (· == a)).map number := by
  rw [Std.HashMap.getElem?_insert, Array.findIdx?_push]
  by_cases hka : k = a
  · subst hka
    have hsearch : keys.findIdx? (· == k) = none := by
      simpa using (h k).symm.trans hk
    simp [hsearch]
  · simp [hka, h]

theorem inStep_empty : InStep empty := by
  refine ⟨fun e => ?_, fun name => ?_, rfl, fun p => ?_⟩
  · have hempty (e : Expression) : (∅ : Std.HashMap Expression NodeId)[e]? =
        (#[].findIdx? (· == e)).map .ofIndex := by
      simp
    have hsearch := getElem?_insert_eq_search hempty (k := .top) (by simp)
    have hexpressions : empty.ontology.expressions = #[.top, .bottom] := by
      simp [empty, Ontology.empty, Ontology.expressions, Node.fresh]
    rw [Ontology.find?_eq, hexpressions]
    exact getElem?_insert_eq_search hsearch (k := .bottom) (by simp) e
  · simp [empty, Ontology.findProperty?, Ontology.empty]
  · simp [empty, Ontology.empty, Ontology.directSupers]

theorem intern_ontology (h : InStep x) (e : Expression) :
    ((x.intern e).1, (x.intern e).2.ontology) = x.ontology.intern e := by
  unfold intern Ontology.intern
  rw [← h.numbers e]
  cases x.numbers[e]? <;> rfl

theorem addProperty_ontology (h : InStep x) (name : String) :
    ((x.addProperty name).1, (x.addProperty name).2.ontology) = x.ontology.addProperty name := by
  unfold addProperty Ontology.addProperty
  rw [← h.propertyNumbers name]
  cases x.propertyNumbers[name]? <;> rfl

theorem InStep.intern (h : InStep x) (e : Expression) : InStep (x.intern e).2 := by
  unfold Indexed.intern
  cases hn : x.numbers[e]? with
  | some id => exact h
  | none =>
    have hnumbers (e' : Expression) : x.numbers[e']? =
        (x.ontology.expressions.findIdx? (· == e')).map .ofIndex :=
      (h.numbers e').trans Ontology.find?_eq
    refine ⟨fun e' => ?_, h.propertyNumbers, h.size_above, h.above⟩
    rw [Ontology.find?_eq, Ontology.expressions_push, ← Ontology.size_expressions]
    exact getElem?_insert_eq_search hnumbers hn e'

/-- Nothing is told of a property that comes new. -/
theorem directSupers_eq_nil (hc : x.ontology.Closed) {p : PropertyId}
    (hp : p.index = x.ontology.properties.size) :
    Ontology.directSupers x.ontology.toldProperties p = [] := by
  refine List.eq_nil_iff_forall_not_mem.mpr fun q hq => ?_
  have hlt := (hc.told _ (Ontology.mem_directSupers.mp hq)).1
  exact absurd hp (Nat.ne_of_lt hlt)

theorem InStep.addProperty (h : InStep x) (hc : x.ontology.Closed) (name : String) :
    InStep (x.addProperty name).2 := by
  unfold Indexed.addProperty
  cases hn : x.propertyNumbers[name]? with
  | some id => exact h
  | none =>
    have hnumbers (name' : String) : x.propertyNumbers[name']? =
        (x.ontology.names.findIdx? (· == name')).map .ofIndex :=
      (h.propertyNumbers name').trans Ontology.findProperty?_eq
    refine ⟨h.numbers, fun name' => ?_, by simp [h.size_above], fun p => ?_⟩
    · rw [Ontology.findProperty?_eq, Ontology.names_push, ← Ontology.size_names]
      exact getElem?_insert_eq_search hnumbers hn name'
    · dsimp only
      rw [Array.getElem?_push]
      split
      · rename_i hp
        exact (directSupers_eq_nil hc (hp.trans h.size_above)).symm
      · exact h.above p

theorem InStep.of_same {o : Ontology} (h : InStep x) (hs : x.ontology.SameEntries o)
    (hp : o.properties.size = x.ontology.properties.size) : InStep { x with ontology := o } := by
  refine ⟨fun e => ?_, fun name => ?_, h.size_above.trans hp.symm, fun p => ?_⟩
  · rw [h.numbers, Ontology.find?_eq, Ontology.find?_eq, hs.expressions]
  · rw [h.propertyNumbers, Ontology.findProperty?_eq, Ontology.findProperty?_eq, hs.names]
  · rw [h.above, hs.toldProperties]

/-- A told pair comes last of those told of its sub-property. -/
theorem InStep.addSubProperty (h : InStep x) {p q : PropertyId}
    (hp : p.index < x.ontology.properties.size) (hq : q.index < x.ontology.properties.size) :
    InStep (x.perform (.addSubProperty p q)) := by
  have hperform : x.ontology.perform (.addSubProperty p q) = Ontology.withHierarchy
      { x.ontology with toldProperties := x.ontology.toldProperties ++ [(p, q)] } := by
    simp [Ontology.perform, Ontology.addSubProperty, Ontology.guarded, Ontology.checkProperty, hp,
      hq]
  simp only [perform, hp, hq, and_self, if_true, hperform]
  refine ⟨h.numbers, fun name => ?_, by simp [h.size_above, Ontology.withHierarchy], fun r => ?_⟩
  · rw [Ontology.findProperty?_eq, Ontology.names_withHierarchy]
    exact (h.propertyNumbers name).trans Ontology.findProperty?_eq
  · have hold := h.above r
    dsimp only [Ontology.withHierarchy]
    rw [Array.getElem?_modify, Ontology.directSupers, List.filter_append, List.map_append]
    change _ = Ontology.directSupers x.ontology.toldProperties r ++ _
    by_cases hr : p = r
    · subst hr
      have hat : p.index < x.above.size := h.size_above ▸ hp
      simp only [Array.getElem?_eq_getElem hat, Option.getD_some] at hold
      simp [hat, hold]
    · have hindex : p.index ≠ r.index := fun he => hr (PropertyId.index_inj.mp he)
      simp [hindex, hold, hr]

/-- Every call keeps the tables in step, and does with them what it does without. -/
theorem InStep.perform (h : InStep x) (hc : x.ontology.Closed) (c : Call) :
    InStep (x.perform c) ∧ (x.perform c).ontology = x.ontology.perform c := by
  have hintern (e : Expression) :
      InStep (x.intern e).2 ∧ (x.intern e).2.ontology = (x.ontology.intern e).2 :=
    ⟨h.intern e, congrArg Prod.snd (intern_ontology h e)⟩
  cases c with
  | addClass name => exact hintern _
  | addIntersection a b =>
    simp only [Indexed.perform, Ontology.perform, Ontology.addIntersection,
      Ontology.guarded_checkNode, ite_and]
    split
    · split
      · exact hintern _
      · exact ⟨h, rfl⟩
    · exact ⟨h, rfl⟩
  | addExistential p f =>
    simp only [Indexed.perform, Ontology.perform, Ontology.addExistential,
      Ontology.guarded_checkNode, Ontology.guarded_checkProperty, ite_and]
    split
    · split
      · exact hintern _
      · exact ⟨h, rfl⟩
    · exact ⟨h, rfl⟩
  | addProperty name =>
    exact ⟨h.addProperty hc name, congrArg Prod.snd (addProperty_ontology h name)⟩
  | addSubProperty p q =>
    by_cases hpq : p.index < x.ontology.properties.size ∧ q.index < x.ontology.properties.size
    · refine ⟨h.addSubProperty hpq.1 hpq.2, ?_⟩
      simp only [Indexed.perform, if_pos hpq]
    · simp only [Indexed.perform, if_neg hpq]
      refine ⟨h, ?_⟩
      rcases x.ontology.addSubProperty_eq p q with ⟨e, he⟩ | ⟨hp, hq, _⟩
      · rw [Ontology.perform, he]
      · exact absurd ⟨hp, hq⟩ hpq
  | addSubclass | removeSubclass | addDisjointness =>
    refine ⟨h.of_same (Ontology.sameEntries_perform rfl (by simp)) ?_, rfl⟩
    rw [← Ontology.size_names, ← Ontology.size_names,
      (Ontology.sameEntries_perform (by rfl) (by simp)).names]

/-- Whatever was called, the tables are in step, and the ontology is the one without tables. -/
theorem inStep_after (calls : List Call) :
    InStep (after calls) ∧ (after calls).ontology = Ontology.after calls := by
  induction calls with
  | nil => exact ⟨inStep_empty, rfl⟩
  | cons c earlier ih =>
    obtain ⟨h, he⟩ := ih
    obtain ⟨hstep, hperform⟩ := h.perform (he ▸ Ontology.closed_after earlier) c
    exact ⟨hstep, hperform.trans (by rw [he, Ontology.after])⟩

end Indexed

end Subsumption
