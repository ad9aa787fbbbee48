import Subsumption.RuleChain
import Mathlib.Data.List.Nodup

/-! What a chain holds, kind by kind. Each edit changes the entries of one kind and nothing else. -/
namespace Subsumption

namespace Rule

variable (r : Rule)

def supers : Rule → List NodeId
  | .told supers => supers
  | _ => []

def partners : Rule → List Partner
  | .conjunction partners => partners
  | _ => []

def existentials : Rule → List NodeId
  | .propagation existentials => existentials
  | _ => []

def axioms : Rule → List DisjointnessId
  | .disjointness axioms => axioms
  | _ => []

@[simp] theorem kind_addSuper (s : NodeId) : (r.addSuper s).kind = r.kind := by
  cases r <;> rfl

@[simp] theorem kind_eraseSuper (s : NodeId) : (r.eraseSuper s).kind = r.kind := by
  cases r <;> rfl

@[simp] theorem kind_addPartner (e : Partner) : (r.addPartner e).kind = r.kind := by
  cases r <;> rfl

@[simp] theorem kind_erasePartner (e : Partner) : (r.erasePartner e).kind = r.kind := by
  cases r <;> rfl

@[simp] theorem kind_addExistential (n : NodeId) : (r.addExistential n).kind = r.kind := by
  cases r <;> rfl

@[simp] theorem kind_eraseExistential (n : NodeId) : (r.eraseExistential n).kind = r.kind := by
  cases r <;> rfl

@[simp] theorem kind_addDisjointness (d : DisjointnessId) :
    (r.addDisjointness d).kind = r.kind := by
  cases r <;> rfl

theorem eq_empty_of_isEmpty (h : r.isEmpty = true) : r = .empty r.kind := by
  cases r <;> simp_all [isEmpty, empty, kind]

variable {r}

theorem supers_addSuper (h : r.kind = .told) (s : NodeId) :
    (r.addSuper s).supers = r.supers ++ [s] := by
  cases r <;> simp_all [kind, addSuper, supers]

theorem supers_eraseSuper (s : NodeId) : (r.eraseSuper s).supers = r.supers.erase s := by
  cases r <;> simp [eraseSuper, supers]

theorem hasSuper_iff (s : NodeId) : r.hasSuper s = true ↔ s ∈ r.supers := by
  cases r <;> simp [hasSuper, supers]

theorem partners_addPartner (h : r.kind = .conjunction) (e : Partner) :
    (r.addPartner e).partners = if e ∈ r.partners then r.partners else r.partners ++ [e] := by
  cases r with
  | conjunction es => by_cases he : e ∈ es <;> simp [addPartner, partners, he]
  | _ => cases h

theorem partners_erasePartner (e : Partner) :
    (r.erasePartner e).partners = r.partners.filter (· != e) := by
  cases r <;> rfl

theorem existentials_addExistential (h : r.kind = .propagation) (n : NodeId) :
    (r.addExistential n).existentials =
      if n ∈ r.existentials then r.existentials else r.existentials ++ [n] := by
  cases r with
  | propagation ns => by_cases hn : n ∈ ns <;> simp [addExistential, existentials, hn]
  | _ => cases h

theorem existentials_eraseExistential (n : NodeId) :
    (r.eraseExistential n).existentials = r.existentials.filter (· != n) := by
  cases r <;> rfl

theorem axioms_addDisjointness (h : r.kind = .disjointness) (d : DisjointnessId) :
    (r.addDisjointness d).axioms = if d ∈ r.axioms then r.axioms else r.axioms ++ [d] := by
  cases r with
  | disjointness ds => by_cases hd : d ∈ ds <;> simp [addDisjointness, axioms, hd]
  | _ => cases h

theorem mem_append_new {α : Type} [DecidableEq α] {l : List α} {a b : α} :
    b ∈ (if a ∈ l then l else l ++ [a]) ↔ b = a ∨ b ∈ l := by
  split
  · rename_i ha
    exact ⟨Or.inr, fun h => h.elim (fun he => he ▸ ha) id⟩
  · simp [or_comm]

theorem mem_partners_addPartner (h : r.kind = .conjunction) {e e' : Partner} :
    e' ∈ (r.addPartner e).partners ↔ e' = e ∨ e' ∈ r.partners := by
  rw [partners_addPartner h, mem_append_new]

theorem mem_partners_erasePartner {e e' : Partner} :
    e' ∈ (r.erasePartner e).partners ↔ e' ∈ r.partners ∧ e' ≠ e := by
  simp [partners_erasePartner]

theorem mem_existentials_addExistential (h : r.kind = .propagation) {n n' : NodeId} :
    n' ∈ (r.addExistential n).existentials ↔ n' = n ∨ n' ∈ r.existentials := by
  rw [existentials_addExistential h, mem_append_new]

theorem mem_existentials_eraseExistential {n n' : NodeId} :
    n' ∈ (r.eraseExistential n).existentials ↔ n' ∈ r.existentials ∧ n' ≠ n := by
  simp [existentials_eraseExistential]

theorem mem_axioms_addDisjointness (h : r.kind = .disjointness) {d d' : DisjointnessId} :
    d' ∈ (r.addDisjointness d).axioms ↔ d' = d ∨ d' ∈ r.axioms := by
  rw [axioms_addDisjointness h, mem_append_new]

theorem isEmpty_iff_supers (h : r.kind = .told) : r.isEmpty = true ↔ r.supers = [] := by
  cases r <;> simp_all [kind, isEmpty, supers]

theorem isEmpty_iff_partners (h : r.kind = .conjunction) : r.isEmpty = true ↔ r.partners = [] := by
  cases r <;> simp_all [kind, isEmpty, partners]

theorem isEmpty_iff_existentials (h : r.kind = .propagation) :
    r.isEmpty = true ↔ r.existentials = [] := by
  cases r <;> simp_all [kind, isEmpty, existentials]

theorem isEmpty_iff_axioms (h : r.kind = .disjointness) : r.isEmpty = true ↔ r.axioms = [] := by
  cases r <;> simp_all [kind, isEmpty, axioms]

end Rule

namespace RuleChain

variable (c : RuleChain) {k l : RuleKind} {f : Rule → Rule} {r : Rule}

/-- The rule of a kind; a chain without one behaves like one whose rule has no entries. -/
def rule (k : RuleKind) : Rule := (c.find? k).getD (.empty k)

/-- The told superclasses, one for each registration. -/
def supers : List NodeId := (c.rule .told).supers

def partners : List Partner := (c.rule .conjunction).partners

def existentials : List NodeId := (c.rule .propagation).existentials

def axioms : List DisjointnessId := (c.rule .disjointness).axioms

/-- Whether deriving the node is a contradiction. -/
def contradicts : Bool := (c.find? .bottom).isSome

/-- One rule of a kind at most, and none without entries. -/
structure Proper : Prop where
  distinct : (c.rules.map Rule.kind).Nodup
  filled : ∀ r ∈ c.rules, r.isEmpty = false

/-! ### Looking up after an edit -/

theorem kind_of_find? (h : c.find? k = some r) : r.kind = k := by
  simpa using List.find?_some h

theorem find?_ensure :
    (c.ensure k).find? l = if l = k then some ((c.find? k).getD (.empty k)) else c.find? l := by
  unfold ensure
  cases h : c.find? k with
  | some r =>
    by_cases hl : l = k
    · subst hl
      simp [h]
    · simp [hl]
  | none =>
    by_cases hl : l = k
    · subst hl
      have h' : List.find? (fun r => r.kind == l) c.rules = none := h
      simp [find?, List.find?_append, h']
    · simp [find?, List.find?_append, hl, Ne.symm hl]

theorem find?_modify (hf : ∀ r, (f r).kind = r.kind) :
    (c.modify k f).find? l = if l = k then (c.find? k).map f else c.find? l := by
  obtain ⟨rules⟩ := c
  simp only [modify, find?]
  induction rules with
  | nil => simp [modify.go]
  | cons r rs ih =>
    by_cases hr : r.kind = k
    · by_cases hl : l = k
      · simp [modify.go, hr, hl, hf]
      · have hne : ¬ k = l := fun h => hl h.symm
        simp [modify.go, hr, hl, hne, hf]
    · by_cases hl : l = k
      · subst hl
        simpa [modify.go, hr, List.find?_cons] using ih
      · simp only [modify.go, hr, beq_iff_eq, if_false, List.find?_cons]
        rw [ih]
        simp [hl]

theorem modify_eq_self (h : ∀ r, c.find? k = some r → f r = r) : c.modify k f = c := by
  obtain ⟨rules⟩ := c
  refine congrArg RuleChain.mk ?_
  simp only [find?] at h
  induction rules with
  | nil => rfl
  | cons r rest ih =>
    by_cases hr : r.kind = k
    · have hsame : f r = r := h r (by simp [hr])
      simp [modify.go, hr, hsame]
    · have hrest : modify.go k f rest = rest := ih fun a ha => h a (by simpa [hr] using ha)
      simp [modify.go, hr, hrest]

theorem find?_eq_some (hd : (c.rules.map Rule.kind).Nodup) :
    c.find? k = some r ↔ r ∈ c.rules ∧ r.kind = k := by
  obtain ⟨rules⟩ := c
  simp only [find?] at hd ⊢
  induction rules with
  | nil => simp
  | cons a rs ih =>
    simp only [List.map_cons, List.nodup_cons, List.mem_map, not_exists, not_and] at hd
    by_cases ha : a.kind = k
    · have hout : ∀ x ∈ rs, x.kind ≠ k := fun x hx he => hd.1 x hx (he.trans ha.symm)
      constructor
      · intro h
        have : a = r := by simpa [ha] using h
        subst this
        simp [ha]
      · rintro ⟨hm, hk⟩
        rcases List.mem_cons.mp hm with rfl | hm
        · simp [ha]
        · exact absurd hk (hout r hm)
    · have hi : List.find? (fun x => x.kind == k) (a :: rs) =
          List.find? (fun x => x.kind == k) rs := List.find?_cons_of_neg (by simpa using ha)
      rw [hi]
      refine (ih hd.2).trans ⟨?_, ?_⟩
      · rintro ⟨hm, hk⟩
        exact ⟨List.mem_cons_of_mem _ hm, hk⟩
      · rintro ⟨hm, hk⟩
        rcases List.mem_cons.mp hm with rfl | hm
        · exact absurd hk ha
        · exact ⟨hm, hk⟩

theorem find?_erase (hd : (c.rules.map Rule.kind).Nodup) :
    (c.erase k).find? l = if l = k then none else c.find? l := by
  obtain ⟨rules⟩ := c
  simp only [erase, find?] at hd ⊢
  induction rules with
  | nil => simp
  | cons a rs ih =>
    simp only [List.map_cons, List.nodup_cons, List.mem_map, not_exists, not_and] at hd
    by_cases ha : a.kind = k
    · by_cases hl : l = k
      · subst hl
        simp only [List.eraseP_cons, ha, beq_self_eq_true, if_true, cond_true,
          List.find?_eq_none, beq_iff_eq]
        intro x hx he
        exact hd.1 x hx (he.trans ha.symm)
      · have hne : ¬ k = l := fun h => hl h.symm
        simp [ha, hl, hne]
    · have hi := ih hd.2
      by_cases hl : l = k
      · subst hl
        simpa [List.eraseP_cons, ha, List.find?_cons] using hi
      · simp only [hl, if_false] at hi ⊢
        simp [ha, List.find?_cons, hi]

theorem find?_prune (hd : (c.rules.map Rule.kind).Nodup) :
    (c.prune k).find? l = if l = k then (c.find? k).filter (!·.isEmpty) else c.find? l := by
  unfold prune
  cases h : c.find? k with
  | none =>
    by_cases hl : l = k
    · subst hl
      simp [h]
    · simp [hl]
  | some r =>
    by_cases he : r.isEmpty = true
    · simp [he, find?_erase c hd, Option.filter]
    · by_cases hl : l = k
      · subst hl
        simp [he, h, Option.filter]
      · simp [he, hl]

/-! ### Chains stay proper -/

theorem Proper.empty : RuleChain.empty.Proper :=
  ⟨List.nodup_nil, by simp [RuleChain.empty]⟩

theorem kinds_modify (hf : ∀ r, (f r).kind = r.kind) :
    (c.modify k f).rules.map Rule.kind = c.rules.map Rule.kind := by
  obtain ⟨rules⟩ := c
  simp only [modify]
  induction rules with
  | nil => rfl
  | cons r rs ih =>
    by_cases hr : r.kind = k
    · simp [modify.go, hr, hf]
    · simp [modify.go, hr, ih]

theorem ensure_cases : k ∈ c.rules.map Rule.kind ∧ c.ensure k = c ∨
    k ∉ c.rules.map Rule.kind ∧ (c.ensure k).rules = c.rules ++ [.empty k] := by
  unfold ensure
  cases h : c.find? k with
  | some r =>
    exact Or.inl ⟨List.mem_map.mpr ⟨r, List.mem_of_find?_eq_some h, c.kind_of_find? h⟩, rfl⟩
  | none =>
    refine Or.inr ⟨?_, rfl⟩
    simpa [find?] using h

theorem distinct_ensure (hd : (c.rules.map Rule.kind).Nodup) :
    ((c.ensure k).rules.map Rule.kind).Nodup := by
  rcases c.ensure_cases (k := k) with ⟨_, he⟩ | ⟨hnew, he⟩
  · rwa [he]
  · rw [he, List.map_append, List.map_singleton, Rule.kind_empty, ← List.concat_eq_append]
    exact hd.concat hnew

theorem prune_cases : c.prune k = c ∨ c.prune k = c.erase k := by
  unfold prune
  split
  · split
    · exact Or.inr rfl
    · exact Or.inl rfl
  · exact Or.inl rfl

theorem distinct_prune (hd : (c.rules.map Rule.kind).Nodup) :
    ((c.prune k).rules.map Rule.kind).Nodup := by
  rcases c.prune_cases (k := k) with he | he
  · rwa [he]
  · rw [he]
    exact hd.sublist (List.eraseP_sublist.map _)

/-- A chain is filled if looking up never finds a rule without entries. -/
theorem Proper.of_find? (hd : (c.rules.map Rule.kind).Nodup)
    (hf : ∀ k r, c.find? k = some r → r.isEmpty = false) : c.Proper := by
  refine ⟨hd, ?_⟩
  intro r hr
  apply hf r.kind r
  obtain ⟨a, ha⟩ : ∃ a, c.find? r.kind = some a := by
    cases h : c.find? r.kind with
    | some a => exact ⟨a, rfl⟩
    | none =>
      simp only [find?, List.find?_eq_none, beq_iff_eq] at h
      exact absurd rfl (h r hr)
  have hm : a ∈ c.rules := List.mem_of_find?_eq_some ha
  have hk : a.kind = r.kind := by simpa using List.find?_some ha
  have : a = r := List.inj_on_of_nodup_map hd hm hr hk
  rw [ha, this]

/-- Extending the rule of a kind, which is added if there is none. -/
theorem Proper.extend (hc : c.Proper) (hf : ∀ r, (f r).kind = r.kind)
    (hn : ∀ r, r.kind = k → (f r).isEmpty = false) : ((c.ensure k).modify k f).Proper := by
  apply Proper.of_find?
  · rw [kinds_modify _ hf]
    exact distinct_ensure c hc.distinct
  · intro l r h
    rw [find?_modify _ hf, find?_ensure, find?_ensure] at h
    by_cases hl : l = k
    · subst hl
      simp only [if_true, Option.map_some, Option.some.injEq] at h
      subst h
      have hk : ((c.find? l).getD (.empty l)).kind = l := by
        cases hr : c.find? l with
        | none => simp
        | some r => simpa using ((find?_eq_some c hc.distinct).mp hr).2
      exact hn _ hk
    · simp only [hl, if_false] at h
      exact hc.filled r ((find?_eq_some c hc.distinct).mp h).1

/-- Reducing the rule of a kind, which is dropped if nothing is left of it. -/
theorem Proper.reduce (hc : c.Proper) (hf : ∀ r, (f r).kind = r.kind) :
    ((c.modify k f).prune k).Proper := by
  have hd : ((c.modify k f).rules.map Rule.kind).Nodup := by
    rw [kinds_modify _ hf]
    exact hc.distinct
  apply Proper.of_find? _ (distinct_prune _ hd)
  intro l r h
  rw [find?_prune _ hd] at h
  by_cases hl : l = k
  · subst hl
    simp only [if_true] at h
    simpa using (Option.filter_eq_some_iff.mp h).2
  · simp only [hl, if_false, find?_modify c hf] at h
    exact hc.filled r ((find?_eq_some c hc.distinct).mp h).1

/-! ### Contents after an edit -/

@[simp] theorem kind_rule : (c.rule k).kind = k := by
  unfold rule
  cases h : c.find? k with
  | none => simp
  | some r => exact c.kind_of_find? h

theorem find?_extend (hf : ∀ r, (f r).kind = r.kind) :
    ((c.ensure k).modify k f).find? l = if l = k then some (f (c.rule k)) else c.find? l := by
  rw [find?_modify _ hf, find?_ensure, find?_ensure]
  by_cases hl : l = k <;> simp [hl, rule]

theorem find?_reduce (hd : (c.rules.map Rule.kind).Nodup) (hf : ∀ r, (f r).kind = r.kind) :
    ((c.modify k f).prune k).find? l =
      if l = k then ((c.find? k).map f).filter (!·.isEmpty) else c.find? l := by
  rw [find?_prune _ (by rwa [kinds_modify _ hf]), find?_modify _ hf, find?_modify _ hf]
  by_cases hl : l = k <;> simp [hl]

theorem rule_extend (hf : ∀ r, (f r).kind = r.kind) :
    ((c.ensure k).modify k f).rule l = if l = k then f (c.rule k) else c.rule l := by
  unfold rule
  rw [find?_extend c hf]
  by_cases hl : l = k <;> simp [hl, rule]

/-- Dropping a rule without entries takes no entry away. -/
theorem rule_reduce (hd : (c.rules.map Rule.kind).Nodup) (hf : ∀ r, (f r).kind = r.kind)
    (he : f (.empty k) = .empty k) :
    ((c.modify k f).prune k).rule l = if l = k then f (c.rule k) else c.rule l := by
  by_cases hl : l = k
  · subst hl
    simp only [rule, find?_reduce c hd hf, if_true]
    cases h : c.find? l with
    | none => simp [he]
    | some r =>
      by_cases hr : (f r).isEmpty = true
      · have hempty := (f r).eq_empty_of_isEmpty hr
        rw [hf r, c.kind_of_find? h] at hempty
        simp only [Option.map_some, Option.getD_some, hempty, Option.filter]
        split <;> rfl
      · simp [hr, Option.filter]
  · simp [rule, find?_reduce c hd hf, hl]

/-- An edit of a chain that changes the entries of one kind and nothing else. -/
structure Edits (f : RuleChain → RuleChain) (k : RuleKind) (g : Rule → Rule) : Prop where
  proper : ∀ c : RuleChain, c.Proper → (f c).Proper
  contradicts : ∀ c : RuleChain, c.Proper → (f c).contradicts = c.contradicts
  rule : ∀ c : RuleChain, c.Proper → ∀ l, (f c).rule l = if l = k then g (c.rule k) else c.rule l

theorem Edits.extend {g : Rule → Rule} (hg : ∀ r, (g r).kind = r.kind)
    (hn : ∀ r, r.kind = k → (g r).isEmpty = false) (hk : k ≠ .bottom) :
    Edits (fun c => (c.ensure k).modify k g) k g where
  proper c hc := hc.extend c hg hn
  contradicts c _ := by simp [RuleChain.contradicts, find?_extend c hg, Ne.symm hk]
  rule c _ _ := rule_extend c hg

theorem Edits.reduce {g : Rule → Rule} (hg : ∀ r, (g r).kind = r.kind)
    (he : g (.empty k) = .empty k) (hk : k ≠ .bottom) :
    Edits (fun c => (c.modify k g).prune k) k g where
  proper c hc := hc.reduce c hg
  contradicts c hc := by simp [RuleChain.contradicts, find?_reduce c hc.distinct hg, Ne.symm hk]
  rule c hc _ := rule_reduce c hc.distinct hg he

theorem edits_addSuper (s : NodeId) : Edits (·.addSuper s) .told (·.addSuper s) :=
  .extend (fun r => r.kind_addSuper s) (fun r h => by
    cases r <;> simp_all [Rule.kind, Rule.addSuper, Rule.isEmpty]) (by decide)

theorem edits_eraseSuper (s : NodeId) : Edits (·.eraseSuper s) .told (·.eraseSuper s) :=
  .reduce (fun r => r.kind_eraseSuper s) rfl (by decide)

theorem edits_addPartner (e : Partner) : Edits (·.addPartner e) .conjunction (·.addPartner e) :=
  .extend (fun r => r.kind_addPartner e) (fun r h => by
    cases r with
    | conjunction es =>
      by_cases he : e ∈ es
      · simp [Rule.addPartner, Rule.isEmpty, he, List.ne_nil_of_mem he]
      · simp [Rule.addPartner, Rule.isEmpty, he]
    | _ => simp [Rule.kind] at h) (by decide)

theorem edits_erasePartner (e : Partner) :
    Edits (·.erasePartner e) .conjunction (·.erasePartner e) :=
  .reduce (fun r => r.kind_erasePartner e) rfl (by decide)

theorem edits_addExistential (n : NodeId) :
    Edits (·.addExistential n) .propagation (·.addExistential n) :=
  .extend (fun r => r.kind_addExistential n) (fun r h => by
    cases r with
    | propagation ns =>
      by_cases hn : n ∈ ns
      · simp [Rule.addExistential, Rule.isEmpty, hn, List.ne_nil_of_mem hn]
      · simp [Rule.addExistential, Rule.isEmpty, hn]
    | _ => simp [Rule.kind] at h) (by decide)

theorem edits_eraseExistential (n : NodeId) :
    Edits (·.eraseExistential n) .propagation (·.eraseExistential n) :=
  .reduce (fun r => r.kind_eraseExistential n) rfl (by decide)

theorem edits_addDisjointness (d : DisjointnessId) :
    Edits (·.addDisjointness d) .disjointness (·.addDisjointness d) :=
  .extend (fun r => r.kind_addDisjointness d) (fun r h => by
    cases r with
    | disjointness ds =>
      by_cases hd : d ∈ ds
      · simp [Rule.addDisjointness, Rule.isEmpty, hd, List.ne_nil_of_mem hd]
      · simp [Rule.addDisjointness, Rule.isEmpty, hd]
    | _ => simp [Rule.kind] at h) (by decide)

/-! ### Rules and entries -/

/-- Each rule is the one that is found for its kind. -/
theorem mem_rules_iff (hd : (c.rules.map Rule.kind).Nodup) :
    r ∈ c.rules ↔ c.find? r.kind = some r := by
  rw [find?_eq_some c hd]
  simp

theorem rule_eq (hd : (c.rules.map Rule.kind).Nodup) (hr : r ∈ c.rules) : c.rule r.kind = r := by
  rw [rule, (mem_rules_iff c hd).mp hr, Option.getD_some]

theorem rule_mem (hd : (c.rules.map Rule.kind).Nodup) (h : c.rule k ≠ .empty k) :
    c.rule k ∈ c.rules := by
  unfold rule at h ⊢
  cases hf : c.find? k with
  | none => simp [hf] at h
  | some r => exact ((find?_eq_some c hd).mp hf).1

theorem hasSuper_iff (s : NodeId) : c.hasSuper s = true ↔ s ∈ c.supers := by
  unfold hasSuper supers rule
  cases h : c.find? .told with
  | none => simp [Rule.empty, Rule.supers]
  | some r => simpa using r.hasSuper_iff s

/-- A chain without rules is one without entries. -/
theorem isEmpty_iff (hc : c.Proper) : c.isEmpty = true ↔
    c.contradicts = false ∧ c.supers = [] ∧ c.partners = [] ∧ c.existentials = [] ∧
      c.axioms = [] := by
  have hnone : c.isEmpty = true ↔ ∀ k, c.find? k = none := by
    constructor
    · intro h k
      simp [find?, List.isEmpty_iff.mp h]
    · intro h
      apply List.isEmpty_iff.mpr
      apply List.eq_nil_iff_forall_not_mem.mpr
      intro r hr
      have := (mem_rules_iff c hc.distinct).mp hr
      simp [h] at this
  have hentry : ∀ k, k ≠ .bottom → (c.find? k = none ↔ (c.rule k).isEmpty = true) := by
    intro k hk
    unfold rule
    cases h : c.find? k with
    | none => cases k <;> simp_all [Rule.empty, Rule.isEmpty]
    | some r => simp [hc.filled r ((find?_eq_some c hc.distinct).mp h).1]
  have htold := Rule.isEmpty_iff_supers c.kind_rule (r := c.rule .told)
  have hconj := Rule.isEmpty_iff_partners c.kind_rule (r := c.rule .conjunction)
  have hprop := Rule.isEmpty_iff_existentials c.kind_rule (r := c.rule .propagation)
  have hdisj := Rule.isEmpty_iff_axioms c.kind_rule (r := c.rule .disjointness)
  unfold supers partners existentials axioms
  rw [hnone, ← htold, ← hconj, ← hprop, ← hdisj, ← hentry _ (by decide), ← hentry _ (by decide),
    ← hentry _ (by decide), ← hentry _ (by decide)]
  constructor
  · intro h
    simp [contradicts, h]
  · rintro ⟨h₀, h₁, h₂, h₃, h₄⟩ k
    cases k with
    | bottom => simpa [contradicts] using h₀
    | told => exact h₁
    | conjunction => exact h₂
    | propagation => exact h₃
    | disjointness => exact h₄

end RuleChain

end Subsumption
