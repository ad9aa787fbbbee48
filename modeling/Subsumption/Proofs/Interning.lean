import Subsumption.Ontology.Display
import Subsumption.Proofs.Registration
import Subsumption.Proofs.Tables

/-! Interning: an expression has one number and a number one expression, for good, and the parts of
a node have smaller numbers, so that what descends from nodes to their parts comes to an end. -/
namespace Subsumption

/-- The conjuncts of an intersection stand in the order of their numbers. -/
def Expression.Ordered : Expression → Prop
  | .intersection a b => a.index ≤ b.index
  | _ => True

theorem Expression.ordered_meet (a b : NodeId) : (Expression.meet a b).Ordered := by
  unfold Expression.meet
  split
  · exact UInt32.le_iff_toNat_le.mp ‹_›
  · exact UInt32.le_iff_toNat_le.mp (UInt32.le_of_lt (UInt32.not_le.mp ‹_›))

namespace Ontology

variable {o o' : Ontology} {n m : NodeId} {p q : PropertyId} {e : Expression} {name : String}

/-! ### What a call adds -/

/-- A call adds one node or one property at most, and only with an entry that is new. -/
inductive Grown : Ontology → Ontology → Prop
  | same {o o' : Ontology} (hx : o'.expressions = o.expressions) (hn : o'.names = o.names) :
    Grown o o'
  | node {o o' : Ontology} {e : Expression} (he : e.Ordered) (hf : o.find? e = none)
    (hx : o'.expressions = o.expressions.push e) (hn : o'.names = o.names) : Grown o o'
  | property {o o' : Ontology} {name : String} (hf : o.findProperty? name = none)
    (hx : o'.expressions = o.expressions) (hn : o'.names = o.names.push name) : Grown o o'

theorem grown_intern (he : e.Ordered) : Grown o (o.intern e).2 := by
  unfold intern
  split
  · exact .same rfl rfl
  · exact .node he ‹_› expressions_push rfl

theorem grown_perform (o : Ontology) (c : Call) : Grown o (o.perform c) := by
  cases c with
  | addClass name => exact grown_intern (e := .named name) trivial
  | addIntersection a b =>
    simp only [perform, addIntersection, guarded_checkNode]
    split
    · split
      · exact grown_intern (Expression.ordered_meet a b)
      · exact .same rfl rfl
    · exact .same rfl rfl
  | addExistential p f =>
    simp only [perform, addExistential, guarded_checkNode, guarded_checkProperty]
    split
    · split
      · exact grown_intern (e := .existential p f) trivial
      · exact .same rfl rfl
    · exact .same rfl rfl
  | addProperty name =>
    simp only [perform, addProperty]
    split
    · exact .same rfl rfl
    · exact .property ‹_› rfl names_push
  | addSubProperty r s =>
    rcases o.addSubProperty_eq r s with ⟨e, he⟩ | ⟨_, _, he⟩
    · rw [perform, he]
      exact .same rfl rfl
    · rw [perform, he]
      exact .same rfl names_withHierarchy
  | addSubclass | removeSubclass | addDisjointness =>
    exact .same (sameEntries_perform rfl (by simp)).expressions
      (sameEntries_perform rfl (by simp)).names

/-- What is known of an expression or a name stays known. -/
theorem Grown.kept (h : Grown o o') :
    (∀ n, n.index < o.size → o'.expression? n = o.expression? n) ∧
    ∀ p, p.index < o.properties.size → o'.name? p = o.name? p := by
  have hpush {α : Type} (xs : Array α) (x : α) {i : Nat} (hi : i < xs.size) :
      (xs.push x)[i]? = xs[i]? := by
    rw [Array.getElem?_push, if_neg (Nat.ne_of_lt hi)]
  simp only [expression?_eq, name?_eq, ← size_expressions, ← size_names]
  cases h with
  | same hx hn => exact ⟨fun _ _ => by rw [hx], fun _ _ => by rw [hn]⟩
  | node _ _ hx hn => exact ⟨fun _ hi => by rw [hx, hpush _ _ hi], fun _ _ => by rw [hn]⟩
  | property _ hx hn => exact ⟨fun _ _ => by rw [hx], fun _ hi => by rw [hn, hpush _ _ hi]⟩

theorem Grown.size_le (h : Grown o o') :
    o.size ≤ o'.size ∧ o.properties.size ≤ o'.properties.size := by
  simp only [← size_expressions, ← size_names]
  cases h with
  | same hx hn => rw [hx, hn]; exact ⟨Nat.le_refl _, Nat.le_refl _⟩
  | node _ _ hx hn => rw [hx, hn, Array.size_push]; exact ⟨Nat.le_succ _, Nat.le_refl _⟩
  | property _ hx hn => rw [hx, hn, Array.size_push]; exact ⟨Nat.le_refl _, Nat.le_succ _⟩

/-- However many calls are still made. -/
theorem kept_after (later calls : List Call) :
    (∀ n, n.index < (after calls).size →
      (after (later ++ calls)).expression? n = (after calls).expression? n) ∧
    ∀ p, p.index < (after calls).properties.size →
      (after (later ++ calls)).name? p = (after calls).name? p := by
  suffices h : ((after calls).size ≤ (after (later ++ calls)).size ∧
      (after calls).properties.size ≤ (after (later ++ calls)).properties.size) ∧ _ from h.2
  induction later with
  | nil => exact ⟨⟨Nat.le_refl _, Nat.le_refl _⟩, fun _ _ => rfl, fun _ _ => rfl⟩
  | cons c later ih =>
    obtain ⟨⟨hsize, hproperties⟩, hexpressions, hnames⟩ := ih
    have hgrown : Grown (after (later ++ calls)) (after (c :: later ++ calls)) := grown_perform _ c
    refine ⟨⟨Nat.le_trans hsize hgrown.size_le.1, Nat.le_trans hproperties hgrown.size_le.2⟩,
      fun n hn => ?_, fun p hp => ?_⟩
    · rw [hgrown.kept.1 n (Nat.lt_of_lt_of_le hn hsize), hexpressions n hn]
    · rw [hgrown.kept.2 p (Nat.lt_of_lt_of_le hp hproperties), hnames p hp]

/-! ### One number for each entry -/

/-- No expression and no name is entered twice, and conjuncts are entered in order. -/
structure Canonical (o : Ontology) : Prop where
  expressions : o.expressions.toList.Nodup
  names : o.names.toList.Nodup
  ordered : ∀ e ∈ o.expressions, e.Ordered

theorem nodup_push {α : Type} [DecidableEq α] {xs : Array α} {x : α} (h : xs.toList.Nodup)
    (hx : xs.findIdx? (· == x) = none) : (xs.push x).toList.Nodup := by
  have hnew : ∀ y ∈ xs, y ≠ x := by simpa using Array.findIdx?_eq_none_iff.mp hx
  rw [Array.toList_push, ← List.concat_eq_append]
  exact h.concat fun hx => hnew x (Array.mem_toList_iff.mp hx) rfl

theorem canonical_grown (h : Grown o o') (ho : Canonical o) : Canonical o' := by
  cases h with
  | same hx hn => exact ⟨hx ▸ ho.expressions, hn ▸ ho.names, hx ▸ ho.ordered⟩
  | node he hf hx hn =>
    have hnew := Option.map_eq_none_iff.mp (find?_eq.symm.trans hf)
    refine ⟨hx ▸ nodup_push ho.expressions hnew, hn ▸ ho.names, ?_⟩
    intro e' he'
    rcases Array.mem_push.mp (hx ▸ he') with he' | rfl
    · exact ho.ordered e' he'
    · exact he
  | property hf hx hn =>
    have hnew := Option.map_eq_none_iff.mp (findProperty?_eq.symm.trans hf)
    exact ⟨hx ▸ ho.expressions, hn ▸ nodup_push ho.names hnew, hx ▸ ho.ordered⟩

theorem canonical_empty : Canonical empty := by
  have hexpressions : empty.expressions = #[.top, .bottom] := by
    simp [empty, expressions, Node.fresh]
  have hnames : empty.names = #[] := by simp [empty, names]
  refine ⟨?_, ?_, ?_⟩
  · simp [hexpressions]
  · simp [hnames]
  · simp [hexpressions, Expression.Ordered]

theorem canonical_after (calls : List Call) : Canonical (after calls) := by
  induction calls with
  | nil => exact canonical_empty
  | cons c earlier ih => exact canonical_grown (grown_perform _ c) ih

/-- Where nothing is entered twice, a search finds what stands at a place, and at no other. -/
theorem findIdx?_eq_some_iff {α : Type} [DecidableEq α] {xs : Array α} {x : α} {i : Nat}
    (h : xs.toList.Nodup) : xs.findIdx? (· == x) = some i ↔ xs[i]? = some x := by
  rw [Array.findIdx?_eq_some_iff_getElem, Array.getElem?_eq_some_iff]
  constructor
  · rintro ⟨hi, hx, _⟩
    exact ⟨hi, by simpa using hx⟩
  · rintro ⟨hi, rfl⟩
    refine ⟨hi, by simp, fun j hj he => ?_⟩
    have hin : i < xs.toList.length := hi
    have hjn : j < xs.toList.length := Nat.lt_trans hj hin
    have hsame : xs.toList[j] = xs.toList[i] := by
      simpa using he
    exact Nat.ne_of_lt hj (h.getElem_inj_iff.mp hsame)

/-- The number of what is found, where places and numbers are told from each other. -/
theorem search_eq_some_iff {α ι : Type} [DecidableEq α] {xs : Array α} {x : α} {number : Nat → ι}
    {place : ι → Nat} {k : ι} (h : xs.toList.Nodup) (hplace : ∀ i < xs.size, place (number i) = i)
    (hnumber : ∀ k, number (place k) = k) :
    (xs.findIdx? (· == x)).map number = some k ↔ xs[place k]? = some x := by
  rw [Option.map_eq_some_iff]
  simp only [findIdx?_eq_some_iff h]
  constructor
  · rintro ⟨i, hi, rfl⟩
    rwa [hplace i (Array.getElem?_eq_some_iff.mp hi).1]
  · intro hk
    exact ⟨place k, hk, hnumber k⟩

theorem find?_eq_some_iff (ho : Canonical o) (hb : o.size ≤ UInt32.size) :
    o.find? e = some n ↔ o.expression? n = some e := by
  rw [find?_eq, expression?_eq]
  refine search_eq_some_iff ho.expressions (fun i hi => ?_) NodeId.ofIndex_index
  exact NodeId.index_ofIndex (Nat.lt_of_lt_of_le hi (size_expressions ▸ hb))

theorem findProperty?_eq_some_iff (ho : Canonical o) (hb : o.properties.size ≤ UInt32.size) :
    o.findProperty? name = some p ↔ o.name? p = some name := by
  rw [findProperty?_eq, name?_eq]
  refine search_eq_some_iff ho.names (fun i hi => ?_) PropertyId.ofIndex_index
  exact PropertyId.index_ofIndex (Nat.lt_of_lt_of_le hi (size_names ▸ hb))

/-! ### From nodes to their parts -/

/-- What is done to a node and then to its parts: the node is counted, and if the count was not
enough to stop, its parts are told of it and are gone to in turn. -/
structure Traversal where
  count : UInt32 → UInt32
  stops : UInt32 → Prop
  tell : Ontology → NodeId → Ontology

def registering : Traversal := ⟨(· + 1), (1 < ·), attach⟩

def withdrawing : Traversal := ⟨decrement, (0 < ·), detach⟩

/-- `t.Done o ns o'`: going to the nodes `ns` comes to an end with `o'`. Nothing bounds the way
down, and only nodes of the ontology may be gone to. -/
inductive Traversal.Done (t : Traversal) : Ontology → List NodeId → Ontology → Prop
  | nil {o : Ontology} : Done t o [] o
  | stop {o o' : Ontology} {n : NodeId} {ns : List NodeId} (hn : n.index < o.size)
    (hs : t.stops ((o.modifyNegative n t.count).negative n))
    (hrest : Done t (o.modifyNegative n t.count) ns o') : Done t o (n :: ns) o'
  | parts {o v o' : Ontology} {n : NodeId} {ns : List NodeId} (hn : n.index < o.size)
    (hs : ¬ t.stops ((o.modifyNegative n t.count).negative n))
    (hparts : ∀ m ∈ o.parts n, m.index < o.size)
    (hdown : Done t (t.tell (o.modifyNegative n t.count) n) (o.parts n) v)
    (hrest : Done t v ns o') : Done t o (n :: ns) o'

/-- There is one end at most. -/
theorem Traversal.Done.unique {t : Traversal} {ns : List NodeId} {v : Ontology}
    (h : t.Done o ns o') (hv : t.Done o ns v) : o' = v := by
  induction h generalizing v with
  | nil =>
    cases hv
    rfl
  | stop _ hs _ ih =>
    cases hv with
    | stop _ _ hrest => exact ih hrest
    | parts _ hs' => exact absurd hs hs'
  | parts _ hs _ _ _ ihdown ihrest =>
    cases hv with
    | stop _ hs' => exact absurd hs' hs
    | parts _ _ _ hdown hrest =>
      cases ihdown hdown
      exact ihrest hrest

theorem Traversal.Done.cons {t : Traversal} {ns : List NodeId} {v : Ontology}
    (h : t.Done o [n] v) (hrest : t.Done v ns o') : t.Done o (n :: ns) o' := by
  cases h with
  | stop hn hs hnil =>
    cases hnil
    exact .stop hn hs hrest
  | parts hn hs hparts hdown hnil =>
    cases hnil
    exact .parts hn hs hparts hdown hrest

theorem interned_adjusts (h : Relation.ReflTransGen Adjust o o') (hi : o.Interned) :
    o'.Interned ∧ o'.size = o.size := by
  refine preserved_adjusts (P := fun v => v.Interned ∧ v.size = o.size) ?_ h ⟨hi, rfl⟩
  rintro u v huv ⟨hu, hsize⟩
  refine ⟨interned_change (.adjust huv) hu, ?_⟩
  cases huv <;> simpa using hsize

/-- What goes down from a list of nodes comes to an end if it does so from each node by itself. -/
theorem Traversal.done_foldl {t : Traversal} {step : Ontology → NodeId → Ontology} {i : Nat}
    (hkeep : ∀ o n, Relation.ReflTransGen Adjust o (step o n))
    (hstep : ∀ o : Ontology, o.Interned → ∀ n, n.index < i → n.index < o.size →
      t.Done o [n] (step o n)) {ns : List NodeId} (hi : o.Interned)
    (hns : ∀ n ∈ ns, n.index < i ∧ n.index < o.size) : t.Done o ns (ns.foldl step o) := by
  induction ns generalizing o with
  | nil => exact .nil
  | cons n rest ih =>
    obtain ⟨hn, hrest⟩ := List.forall_mem_cons.mp hns
    obtain ⟨hinterned, hsize⟩ := interned_adjusts (hkeep o n) hi
    exact (hstep o hi n hn.1 hn.2).cons (ih hinterned (by simpa only [hsize] using hrest))

/-- The numbers of the parts lead down to nodes without parts. -/
theorem Traversal.done_of_parts {t : Traversal} {step : Ontology → NodeId → Ontology}
    (hkeep : ∀ o n, Relation.ReflTransGen Adjust o (step o n))
    (htell : ∀ o n, Relation.ReflTransGen Adjust o (t.tell o n))
    (hstep : ∀ o : Ontology, o.Interned → ∀ n,
      (t.stops ((o.modifyNegative n t.count).negative n) ∧ step o n = o.modifyNegative n t.count) ∨
      (¬ t.stops ((o.modifyNegative n t.count).negative n) ∧
        step o n = (o.parts n).foldl step (t.tell (o.modifyNegative n t.count) n)))
    (hi : o.Interned) (hn : n.index < o.size) : t.Done o [n] (step o n) := by
  induction h : n.index using Nat.strongRecOn generalizing o n with
  | _ i ih =>
    subst h
    rcases hstep o hi n with ⟨hs, he⟩ | ⟨hs, he⟩
    · rw [he]
      exact .stop hn hs .nil
    · have hparts : ∀ m ∈ o.parts n, m.index < n.index := fun m hm => part_lt hi hm
      have hcounted : Relation.ReflTransGen Adjust o (t.tell (o.modifyNegative n t.count) n) :=
        .trans (.single .count) (htell _ _)
      obtain ⟨hinterned, hsize⟩ := interned_adjusts hcounted hi
      have hlt : ∀ m ∈ o.parts n, m.index < o.size := fun m hm => Nat.lt_trans (hparts m hm) hn
      rw [he]
      refine .parts hn hs hlt (done_foldl hkeep (fun o' hi' m hm hm' => ih _ hm hi' hm' rfl)
        hinterned fun m hm => ⟨hparts m hm, ?_⟩) .nil
      rw [hsize]
      exact hlt m hm

theorem register_done (hi : o.Interned) (hn : n.index < o.size) :
    registering.Done o [n] (o.register n) := by
  refine Traversal.done_of_parts adjusts_register (fun _ _ => adjusts_attach) ?_ hi hn
  intro o hi n
  rw [register_eq hi]
  split
  · exact Or.inl ⟨‹_›, rfl⟩
  · exact Or.inr ⟨‹_›, rfl⟩

theorem withdraw_done (hi : o.Interned) (hn : n.index < o.size) :
    withdrawing.Done o [n] (o.withdraw n) := by
  refine Traversal.done_of_parts adjusts_withdraw (fun _ _ => adjusts_detach) ?_ hi hn
  intro o hi n
  rw [withdraw_eq hi]
  split
  · exact Or.inl ⟨‹_›, rfl⟩
  · exact Or.inr ⟨‹_›, rfl⟩

/-- The text of a node whose parts have texts and whose property has a name, all the way down. -/
inductive SpelledOut (o : Ontology) : NodeId → String → Prop
  | named {n : NodeId} {name : String} (h : o.expression? n = some (.named name)) :
    SpelledOut o n name
  | top {n : NodeId} (h : o.expression? n = some .top) : SpelledOut o n "owl:Thing"
  | bottom {n : NodeId} (h : o.expression? n = some .bottom) : SpelledOut o n "owl:Nothing"
  | intersection {n a b : NodeId} {s t : String} (h : o.expression? n = some (.intersection a b))
    (ha : SpelledOut o a s) (hb : SpelledOut o b t) :
    SpelledOut o n ("ObjectIntersectionOf(" ++ s ++ " " ++ t ++ ")")
  | existential {n f : NodeId} {p : PropertyId} {r s : String}
    (h : o.expression? n = some (.existential p f)) (hp : o.name? p = some r)
    (hf : SpelledOut o f s) : SpelledOut o n ("ObjectSomeValuesFrom(" ++ r ++ " " ++ s ++ ")")

theorem isSome_name? : (o.name? p).isSome = true ↔ p.index < o.properties.size := by
  simp [name?, property?]

theorem propertyText_eq (h : o.name? p = some name) : o.propertyText p = name := by
  rw [propertyText, ← name?, h, Option.getD_some]

theorem spelledOut_display (hi : o.Interned) (hn : n.index < o.size) :
    o.SpelledOut n (o.display n) := by
  induction h : n.index using Nat.strongRecOn generalizing n with
  | _ i ih =>
    subst h
    obtain ⟨e, he⟩ := Option.isSome_iff_exists.mp (o.isSome_expression?.mpr hn)
    rw [display, he]
    cases e with
    | named name => exact .named he
    | top => exact .top he
    | bottom => exact .bottom he
    | intersection a b =>
      obtain ⟨ha, hb⟩ := hi.conjuncts n a b he
      simp only [ha, hb, dif_pos]
      exact .intersection he (ih _ ha (Nat.lt_trans ha hn) rfl) (ih _ hb (Nat.lt_trans hb hn) rfl)
    | existential p f =>
      obtain ⟨hp, hf⟩ := hi.filler n p f he
      obtain ⟨r, hr⟩ := Option.isSome_iff_exists.mp (isSome_name?.mpr hp)
      simp only [hf, dif_pos, propertyText_eq hr]
      exact .existential he hr (ih _ hf (Nat.lt_trans hf hn) rfl)

theorem SpelledOut.eq_display {s : String} (hi : o.Interned) (h : o.SpelledOut n s) :
    s = o.display n := by
  induction h with
  | named h | top h | bottom h => rw [display, h]
  | intersection h _ _ iha ihb =>
    obtain ⟨ha, hb⟩ := hi.conjuncts _ _ _ h
    rw [display, h]
    simp only [ha, hb, dif_pos, ← iha, ← ihb]
  | existential h hp _ ih =>
    have hf := (hi.filler _ _ _ h).2
    rw [display, h]
    simp only [hf, dif_pos, ← ih, propertyText_eq hp]

/-! ### Numbers and entries -/

/-- Numbers and entries belong together one to one, as far as they are looked up or met again, and
parts are known before their wholes. -/
structure OneToOne (o : Ontology) : Prop where
  distinct : ∀ n m e, o.expression? n = some e → o.expression? m = some e → n = m
  found : ∀ n e, o.find? e = some n ↔ o.expression? n = some e
  foundClass : ∀ n name, o.findClass? name = some n ↔ o.expression? n = some (.named name)
  again : ∀ n e, o.expression? n = some e → o.intern e = (n, o)
  ordered : ∀ n a b, o.expression? n = some (.intersection a b) → a.index ≤ b.index
  conjuncts : ∀ n a b, o.expression? n = some (.intersection a b) →
    a.index < n.index ∧ b.index < n.index
  filler : ∀ n p f, o.expression? n = some (.existential p f) →
    p.index < o.properties.size ∧ f.index < n.index
  distinctNames : ∀ p q name, o.name? p = some name → o.name? q = some name → p = q
  foundProperty : ∀ p name, o.findProperty? name = some p ↔ o.name? p = some name
  againProperty : ∀ p name, o.name? p = some name → o.addProperty name = (p, o)

theorem oneToOne (hi : o.Interned) (hc : o.Canonical) (hn : o.size ≤ UInt32.size)
    (hp : o.properties.size ≤ UInt32.size) : OneToOne o where
  distinct := hi.distinct
  found _ _ := find?_eq_some_iff hc hn
  foundClass _ _ := find?_eq_some_iff hc hn
  again _ _ h := by rw [intern, (find?_eq_some_iff hc hn).mpr h]
  ordered n a b h := by
    rw [expression?_eq] at h
    exact hc.ordered _ (Array.mem_of_getElem? h)
  conjuncts := hi.conjuncts
  filler := hi.filler
  distinctNames p q name h h' := by
    have hfound := (findProperty?_eq_some_iff hc hp).mpr h
    exact Option.some.inj (hfound.symm.trans ((findProperty?_eq_some_iff hc hp).mpr h'))
  foundProperty _ _ := findProperty?_eq_some_iff hc hp
  againProperty _ _ h := by rw [addProperty, (findProperty?_eq_some_iff hc hp).mpr h]

theorem addIntersection_comm {a b : NodeId} (ha : a.index < o.size) (hb : b.index < o.size) :
    o.addIntersection a b = o.addIntersection b a := by
  simp only [addIntersection, guarded, checkNode, ha, hb, if_true, Expression.meet_comm a b]

/-- As long as there are numbers for all nodes and all properties, whatever was called: numbers and
entries belong together one to one, also in the tables that are kept for them; both ways of writing
an intersection are one call; no later call changes an entry; and what goes down from a node to its
parts, and to theirs, meets only nodes and comes to an end. -/
theorem interning_is_stable {calls : List Call} (hn : (after calls).size ≤ UInt32.size)
    (hp : (after calls).properties.size ≤ UInt32.size) :
    OneToOne (after calls) ∧
    (∀ n e, (Indexed.after calls).numbers[e]? = some n ↔ (after calls).expression? n = some e) ∧
    (∀ p name, (Indexed.after calls).propertyNumbers[name]? = some p ↔
      (after calls).name? p = some name) ∧
    (∀ a b, a.index < (after calls).size → b.index < (after calls).size →
      (after calls).addIntersection a b = (after calls).addIntersection b a) ∧
    (∀ later n, n.index < (after calls).size →
      (after (later ++ calls)).expression? n = (after calls).expression? n) ∧
    (∀ later p, p.index < (after calls).properties.size →
      (after (later ++ calls)).name? p = (after calls).name? p) ∧
    ∀ n, n.index < (after calls).size →
      (∀ s, (after calls).SpelledOut n s ↔ s = (after calls).display n) ∧
      (∀ o, registering.Done (after calls) [n] o ↔ o = (after calls).register n) ∧
      ∀ o, withdrawing.Done (after calls) [n] o ↔ o = (after calls).withdraw n := by
  have hi := interned_after calls
  have hone := oneToOne hi (canonical_after calls) hn hp
  obtain ⟨hstep, hontology⟩ := Indexed.inStep_after calls
  refine ⟨hone, fun n e => ?_, fun p name => ?_, fun a b => addIntersection_comm,
    fun later => (kept_after later calls).1, fun later => (kept_after later calls).2,
    fun n hlt => ⟨fun s => ⟨SpelledOut.eq_display hi, ?_⟩, fun o => ⟨fun h => ?_, ?_⟩,
      fun o => ⟨fun h => ?_, ?_⟩⟩⟩
  · rw [hstep.numbers, hontology, hone.found]
  · rw [hstep.propertyNumbers, hontology, hone.foundProperty]
  · rintro rfl
    exact spelledOut_display hi hlt
  · exact h.unique (register_done hi hlt)
  · rintro rfl
    exact register_done hi hlt
  · exact h.unique (withdraw_done hi hlt)
  · rintro rfl
    exact withdraw_done hi hlt

/-- ∃r.(B ⊓ A) ⊑ A, where everything is asked for twice and some calls are refused. -/
def askedTwice : List Call :=
  [.addSubclass ⟨5⟩ ⟨2⟩, .addExistential ⟨0⟩ ⟨4⟩, .addExistential ⟨1⟩ ⟨4⟩, .addProperty "r",
    .addClass "A", .addExistential ⟨0⟩ ⟨4⟩, .addIntersection ⟨2⟩ ⟨3⟩, .addIntersection ⟨3⟩ ⟨2⟩,
    .addIntersection ⟨3⟩ ⟨7⟩, .addClass "B", .addClass "A", .addProperty "r"]

theorem interning_is_stable_askedTwice :
    (after askedTwice).size ≤ UInt32.size ∧ (after askedTwice).properties.size ≤ UInt32.size ∧
    (after askedTwice).find? (.intersection ⟨2⟩ ⟨3⟩) = some ⟨4⟩ ∧
    (Indexed.after askedTwice).numbers[Expression.existential ⟨0⟩ ⟨4⟩]? = some ⟨5⟩ ∧
    (after askedTwice).addIntersection ⟨5⟩ ⟨3⟩ = (after askedTwice).addIntersection ⟨3⟩ ⟨5⟩ ∧
    (after (.addClass "C" :: askedTwice)).expression? ⟨3⟩ = (after askedTwice).expression? ⟨3⟩ ∧
    (after askedTwice).display ⟨5⟩ = "ObjectSomeValuesFrom(r ObjectIntersectionOf(A B))" ∧
    withdrawing.Done (after askedTwice) [⟨5⟩] ((after askedTwice).withdraw ⟨5⟩) := by
  have hn : (after askedTwice).size ≤ UInt32.size := by decide +kernel
  have hp : (after askedTwice).properties.size ≤ UInt32.size := by decide +kernel
  have hexpressions : (after askedTwice).expression? ⟨2⟩ = some (.named "A") ∧
      (after askedTwice).expression? ⟨3⟩ = some (.named "B") ∧
      (after askedTwice).expression? ⟨4⟩ = some (.intersection ⟨2⟩ ⟨3⟩) ∧
      (after askedTwice).expression? ⟨5⟩ = some (.existential ⟨0⟩ ⟨4⟩) := by
    decide +kernel
  have hname : (after askedTwice).name? ⟨0⟩ = some "r" := by decide +kernel
  obtain ⟨hA, hB, hboth, hhaving⟩ := hexpressions
  have hlt {n : NodeId} {e : Expression} (h : (after askedTwice).expression? n = some e) :
      n.index < (after askedTwice).size := expression?_lt h
  obtain ⟨hone, hnumbers, _, hcomm, hkept, _, hdown⟩ := interning_is_stable hn hp
  obtain ⟨htext, _, hwithdraw⟩ := hdown ⟨5⟩ (hlt hhaving)
  refine ⟨hn, hp, (hone.found _ _).mpr hboth, (hnumbers _ _).mpr hhaving,
    hcomm _ _ (hlt hhaving) (hlt hB), hkept [.addClass "C"] _ (hlt hB), ?_, (hwithdraw _).mpr rfl⟩
  exact ((htext _).mp (.existential hhaving hname
    (.intersection hboth (.named hA) (.named hB)))).symm

end Ontology

end Subsumption
