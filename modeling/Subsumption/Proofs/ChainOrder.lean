import Subsumption.Proofs.ChainContents

/-! Chains after any calls. The calls alone say which kinds there are, in which order, and what the
rule of each kind holds; what is called for one kind is of no matter to the others. -/
namespace Subsumption

/-! ### The order of insertion -/

section

variable {α β : Type} {entries : List β → List α} {history earlier s t : List β} {step : β}
  {a : α} {l : List α}

/-- The entry has been listed ever since the step that came after `earlier`, and was not before.
Histories have their latest step first. -/
structure ListedSince (entries : List β → List α) (history earlier : List β) (a : α) : Prop where
  past : earlier <:+ history
  new : a ∉ entries earlier
  since : ∀ past, past <:+ history → earlier.length < past.length → a ∈ entries past

/-- Nothing is listed twice, and what is listed stands in the order in which it was last inserted. -/
structure Chronological (entries : List β → List α) (history : List β) : Prop where
  once : (entries history).Nodup
  inserted : ∀ a ∈ entries history, ∃ earlier, ListedSince entries history earlier a
  ordered : (entries history).Pairwise fun a b => ∀ s t,
    ListedSince entries history s a → ListedSince entries history t b → s.length < t.length

/-- A step puts one new entry behind the others, or takes entries away. -/
structure Queues (entries : List β → List α) : Prop where
  start : entries [] = []
  step : ∀ x past, (∃ a, a ∉ entries past ∧ entries (x :: past) = entries past ++ [a]) ∨
    (entries (x :: past)).Sublist (entries past)

theorem ListedSince.length_lt (h : ListedSince entries history earlier a)
    (ha : a ∈ entries history) : earlier.length < history.length := by
  apply Nat.lt_of_le_of_ne h.past.length_le
  intro he
  exact h.new (h.past.eq_of_length he ▸ ha)

theorem ListedSince.now (hnew : a ∉ entries history) (ha : a ∈ entries (step :: history)) :
    ListedSince entries (step :: history) history a := by
  refine ⟨List.suffix_cons _ _, hnew, ?_⟩
  intro past hpast hlt
  rcases List.suffix_cons_iff.mp hpast with rfl | hpast
  · exact ha
  · have := hpast.length_le
    omega

theorem ListedSince.later (h : ListedSince entries history earlier a)
    (ha : a ∈ entries (step :: history)) : ListedSince entries (step :: history) earlier a := by
  refine ⟨h.past.trans (List.suffix_cons _ _), h.new, ?_⟩
  intro past hpast hlt
  rcases List.suffix_cons_iff.mp hpast with rfl | hpast
  · exact ha
  · exact h.since past hpast hlt

theorem ListedSince.length_le (h : ListedSince entries history s a)
    (h' : ListedSince entries history t a) : t.length ≤ s.length := by
  by_contra hlt
  exact h'.new (h.since t h'.past (by omega))

theorem ListedSince.length_eq (h : ListedSince entries history s a)
    (h' : ListedSince entries history t a) : s.length = t.length :=
  Nat.le_antisymm (h'.length_le h) (h.length_le h')

/-- A step that leaves an entry in place does not change since when it is listed. -/
theorem Chronological.since (h : Chronological entries history) (ha : a ∈ entries history)
    (ha' : a ∈ entries (step :: history)) (hs : ListedSince entries (step :: history) s a) :
    ∃ t, ListedSince entries history t a ∧ t.length = s.length := by
  obtain ⟨t, ht⟩ := h.inserted a ha
  exact ⟨t, ht, (ht.later ha').length_eq hs⟩

theorem Chronological.ordered_later (h : Chronological entries history)
    (hsub : l.Sublist (entries history)) (hl : ∀ a ∈ l, a ∈ entries (step :: history)) :
    l.Pairwise fun a b => ∀ s t, ListedSince entries (step :: history) s a →
      ListedSince entries (step :: history) t b → s.length < t.length := by
  apply (h.ordered.sublist hsub).imp_of_mem
  intro a b ha hb hab s t hs ht
  obtain ⟨s', hs', hse⟩ := h.since (hsub.subset ha) (hl a ha) hs
  obtain ⟨t', ht', hte⟩ := h.since (hsub.subset hb) (hl b hb) ht
  have hlt := hab s' t' hs' ht'
  omega

theorem Chronological.remove (h : Chronological entries history)
    (hsub : (entries (step :: history)).Sublist (entries history)) :
    Chronological entries (step :: history) where
  once := h.once.sublist hsub
  inserted a ha := by
    obtain ⟨s, hs⟩ := h.inserted a (hsub.subset ha)
    exact ⟨s, hs.later ha⟩
  ordered := h.ordered_later hsub fun _ ha => ha

theorem Chronological.append (h : Chronological entries history) (hnew : a ∉ entries history)
    (he : entries (step :: history) = entries history ++ [a]) :
    Chronological entries (step :: history) := by
  have hold : ∀ b ∈ entries history, b ∈ entries (step :: history) := by
    intro b hb
    simp [he, hb]
  have hnow : ListedSince entries (step :: history) history a := .now hnew (by simp [he])
  refine ⟨?_, ?_, ?_⟩
  · rw [he, ← List.concat_eq_append]
    exact h.once.concat hnew
  · intro b hb
    rw [he, List.mem_append, List.mem_singleton] at hb
    rcases hb with hb | rfl
    · obtain ⟨s, hs⟩ := h.inserted b hb
      exact ⟨s, hs.later (hold b hb)⟩
    · exact ⟨history, hnow⟩
  · rw [he, List.pairwise_append]
    refine ⟨h.ordered_later (List.Sublist.refl _) hold, List.pairwise_singleton _ a, ?_⟩
    -- The new entry is listed since now, and all others since an earlier step.
    intro b hb c hc s t hs ht
    cases List.mem_singleton.mp hc
    obtain ⟨s', hs', hse⟩ := h.since hb (hold b hb) hs
    have hlt := hs'.length_lt hb
    have hte := ht.length_eq hnow
    omega

theorem chronological (h : Queues entries) (history : List β) : Chronological entries history := by
  induction history with
  | nil => exact ⟨by simp [h.start], by simp [h.start], by simp [h.start]⟩
  | cons step past ih =>
    rcases h.step step past with ⟨a, hnew, he⟩ | hsub
    · exact ih.append hnew he
    · exact ih.remove hsub

end

/-! ### Entries of one rule -/

/-- What a call does to the entries of one rule. -/
inductive EntryEdit (α : Type) where
  | add (entry : α)
  | remove (entry : α)
  | clear
  | keep

namespace EntryEdit

variable {α : Type} [DecidableEq α]

/-- A list that may hold an entry several times; removal takes the first occurrence. -/
def onBag : EntryEdit α → List α → List α
  | add a, l => l ++ [a]
  | remove a, l => l.erase a
  | clear, _ => []
  | keep, l => l

/-- A list without repetitions; an entry that is there stays in its place when it is added. -/
def onSet : EntryEdit α → List α → List α
  | add a, l => if a ∈ l then l else l ++ [a]
  | remove a, l => l.filter (· != a)
  | clear, _ => []
  | keep, l => l

theorem onSet_cases (e : EntryEdit α) (l : List α) :
    (∃ a, a ∉ l ∧ e.onSet l = l ++ [a]) ∨ (e.onSet l).Sublist l := by
  cases e with
  | add a =>
    by_cases ha : a ∈ l
    · exact Or.inr (by simp [onSet, ha])
    · exact Or.inl ⟨a, ha, by simp [onSet, ha]⟩
  | remove a => exact Or.inr List.filter_sublist
  | clear => exact Or.inr (List.nil_sublist l)
  | keep => exact Or.inr (List.Sublist.refl l)

end EntryEdit

/-- An entry that was not there is all that taking it away takes away. -/
theorem filter_append_self {α : Type} [DecidableEq α] {l : List α} {a : α} (h : a ∉ l) :
    (l ++ [a]).filter (· != a) = l := by
  have hkeep : ∀ x ∈ l, (x != a) = true := by
    intro x hx
    rw [bne_iff_ne]
    rintro rfl
    exact h hx
  rw [List.filter_append, List.filter_eq_self.mpr hkeep]
  simp

namespace Rule

variable {r : Rule}

/-- A rule is what its kind and its entries say. -/
theorem eq_entries (r : Rule) : r =
    match r.kind with
    | .bottom => .contradiction
    | .told => .told r.supers
    | .conjunction => .conjunction r.partners
    | .propagation => .propagation r.existentials
    | .disjointness => .disjointness r.axioms := by
  cases r <;> rfl

theorem erasePartner_addPartner {e : Partner} (h : e ∉ r.partners) :
    (r.addPartner e).erasePartner e = r := by
  cases r with
  | conjunction es =>
    have hnew : e ∉ es := h
    simp only [addPartner, erasePartner, List.contains_iff_mem, hnew, if_false,
      filter_append_self hnew]
  | _ => rfl

theorem eraseExistential_addExistential {n : NodeId} (h : n ∉ r.existentials) :
    (r.addExistential n).eraseExistential n = r := by
  cases r with
  | propagation ns =>
    have hnew : n ∉ ns := h
    simp only [addExistential, eraseExistential, List.contains_iff_mem, hnew, if_false,
      filter_append_self hnew]
  | _ => rfl

end Rule

namespace RuleChain

/-! ### Calls -/

inductive Call where
  | addSuper (sup : NodeId)
  | eraseSuper (sup : NodeId)
  | addPartner (entry : Partner)
  | erasePartner (entry : Partner)
  | addExistential (node : NodeId)
  | eraseExistential (node : NodeId)
  | addDisjointness (id : DisjointnessId)
  | ensure (kind : RuleKind)
  | erase (kind : RuleKind)
deriving DecidableEq, Repr

variable (c : RuleChain) {k l : RuleKind} {f g : Rule → Rule} {r : Rule} {call : Call}
  {calls : List Call}

def perform : Call → RuleChain
  | .addSuper s => c.addSuper s
  | .eraseSuper s => c.eraseSuper s
  | .addPartner e => c.addPartner e
  | .erasePartner e => c.erasePartner e
  | .addExistential n => c.addExistential n
  | .eraseExistential n => c.eraseExistential n
  | .addDisjointness d => c.addDisjointness d
  | .ensure k => c.ensure k
  | .erase k => c.erase k

/-- The chain that a history of calls leaves, the latest call first. -/
def after : List Call → RuleChain
  | [] => empty
  | call :: earlier => (after earlier).perform call

/-- What a call may do to the rule of its kind: add it if there is none, drop it if nothing is left
of it, or take it away. -/
inductive Mode where
  | extend
  | reduce
  | drop
deriving DecidableEq, Repr

namespace Call

/-- The kind that a call is about. -/
def kind : Call → RuleKind
  | addSuper _ | eraseSuper _ => .told
  | addPartner _ | erasePartner _ => .conjunction
  | addExistential _ | eraseExistential _ => .propagation
  | addDisjointness _ => .disjointness
  | ensure k | erase k => k

def mode : Call → Mode
  | addSuper _ | addPartner _ | addExistential _ | addDisjointness _ | ensure _ => .extend
  | eraseSuper _ | erasePartner _ | eraseExistential _ => .reduce
  | erase _ => .drop

/-- What becomes of the rule of the kind. -/
def edit : Call → Rule → Rule
  | addSuper s => (·.addSuper s)
  | eraseSuper s => (·.eraseSuper s)
  | addPartner e => (·.addPartner e)
  | erasePartner e => (·.erasePartner e)
  | addExistential n => (·.addExistential n)
  | eraseExistential n => (·.eraseExistential n)
  | addDisjointness d => (·.addDisjointness d)
  | ensure _ => id
  | erase k => fun _ => .empty k

def onSupers : Call → EntryEdit NodeId
  | addSuper s => .add s
  | eraseSuper s => .remove s
  | erase .told => .clear
  | _ => .keep

def onPartners : Call → EntryEdit Partner
  | addPartner e => .add e
  | erasePartner e => .remove e
  | erase .conjunction => .clear
  | _ => .keep

def onExistentials : Call → EntryEdit NodeId
  | addExistential n => .add n
  | eraseExistential n => .remove n
  | erase .propagation => .clear
  | _ => .keep

def onAxioms : Call → EntryEdit DisjointnessId
  | addDisjointness d => .add d
  | erase .disjointness => .clear
  | _ => .keep

theorem kind_edit (h : call.mode ≠ .drop) (r : Rule) : (call.edit r).kind = r.kind := by
  cases call with
  | erase => exact absurd rfl h
  | ensure => rfl
  | _ => cases r <;> rfl

/-- Nothing is taken from an empty rule. -/
theorem edit_empty (h : call.mode = .reduce) : call.edit (.empty call.kind) = .empty call.kind := by
  cases call with
  | eraseSuper | erasePartner | eraseExistential => rfl
  | _ => cases h

end Call

/-! ### One call -/

theorem perform_eq (call : Call) : c.perform call =
    match call.mode with
    | .extend => (c.ensure call.kind).modify call.kind call.edit
    | .reduce => (c.modify call.kind call.edit).prune call.kind
    | .drop => c.erase call.kind := by
  cases call with
  | ensure k =>
    -- The rule is put in and then left as it is.
    exact (modify_eq_self _ fun _ _ => rfl).symm
  | _ => rfl

theorem sublist_erase : (c.erase k).rules.Sublist c.rules := List.eraseP_sublist

theorem sublist_prune : (c.prune k).rules.Sublist c.rules := by
  rcases c.prune_cases (k := k) with he | he
  · rw [he]
  · rw [he]
    exact c.sublist_erase

/-- The kind of the call comes last if it is new; no other kind comes in. -/
theorem kinds_perform (call : Call) :
    (∃ k, k ∉ c.rules.map Rule.kind ∧
      (c.perform call).rules.map Rule.kind = c.rules.map Rule.kind ++ [k]) ∨
    ((c.perform call).rules.map Rule.kind).Sublist (c.rules.map Rule.kind) := by
  rw [perform_eq]
  cases hm : call.mode with
  | extend =>
    have hf := call.kind_edit (by simp [hm])
    rw [kinds_modify _ hf]
    rcases c.ensure_cases (k := call.kind) with ⟨_, he⟩ | ⟨hnew, he⟩
    · exact Or.inr (by rw [he])
    · exact Or.inl ⟨call.kind, hnew, by simp [he]⟩
  | reduce =>
    have hf := call.kind_edit (by simp [hm])
    right
    rw [← kinds_modify c (k := call.kind) hf]
    exact (sublist_prune _).map _
  | drop => exact Or.inr (c.sublist_erase.map _)

/-- The rules of all kinds but one. -/
def others (k : RuleKind) : List Rule := c.rules.filter (·.kind ≠ k)

theorem others_modify (hf : ∀ r, (f r).kind = r.kind) : (c.modify k f).others k = c.others k := by
  obtain ⟨rules⟩ := c
  simp only [others, modify]
  induction rules with
  | nil => rfl
  | cons r rest ih =>
    by_cases hr : r.kind = k
    · simp [modify.go, hr, hf]
    · simpa [modify.go, hr] using ih

theorem others_ensure : (c.ensure k).others k = c.others k := by
  rcases c.ensure_cases (k := k) with ⟨_, he⟩ | ⟨_, he⟩
  · rw [he]
  · simp [others, he]

theorem others_erase : (c.erase k).others k = c.others k := by
  obtain ⟨rules⟩ := c
  simp only [others, erase]
  induction rules with
  | nil => rfl
  | cons r rest ih =>
    by_cases hr : r.kind = k
    · simp [hr]
    · simpa [hr] using ih

theorem others_prune : (c.prune k).others k = c.others k := by
  rcases c.prune_cases (k := k) with he | he
  · rw [he]
  · rw [he, others_erase]

theorem others_perform (call : Call) : (c.perform call).others call.kind = c.others call.kind := by
  rw [perform_eq]
  cases hm : call.mode with
  | extend => exact (others_modify _ (call.kind_edit (by simp [hm]))).trans c.others_ensure
  | reduce => exact (others_prune _).trans (c.others_modify (call.kind_edit (by simp [hm])))
  | drop => exact c.others_erase

/-- What a rule holds after a call; a chain without the rule counts as one with an empty rule. -/
theorem rule_perform (hd : (c.rules.map Rule.kind).Nodup) (call : Call) (l : RuleKind) :
    (c.perform call).rule l = if l = call.kind then call.edit (c.rule l) else c.rule l := by
  rw [perform_eq]
  cases hm : call.mode with
  | extend =>
    rw [rule_extend c (call.kind_edit (by simp [hm]))]
    by_cases hl : l = call.kind <;> simp [hl]
  | reduce =>
    rw [rule_reduce c hd (call.kind_edit (by simp [hm])) (call.edit_empty hm)]
    by_cases hl : l = call.kind <;> simp [hl]
  | drop =>
    cases call with
    | erase k =>
      simp only [rule, find?_erase c hd, Call.kind, Call.edit]
      by_cases hl : l = k <;> simp [hl]
    | _ => cases hm

/-- Nothing is left empty where something may have been taken away. -/
theorem filled_prune (hd : (c.rules.map Rule.kind).Nodup) (hr : r ∈ (c.prune k).rules)
    (hk : r.kind = k) : r.isEmpty = false := by
  have hfind := (find?_eq_some _ (distinct_prune c hd)).mpr ⟨hr, hk⟩
  rw [find?_prune c hd, if_pos rfl] at hfind
  simpa using (Option.filter_eq_some_iff.mp hfind).2

theorem supers_perform (hd : (c.rules.map Rule.kind).Nodup) (call : Call) :
    (c.perform call).supers = call.onSupers.onBag c.supers := by
  simp only [supers, rule_perform c hd]
  cases call with
  | addSuper s => exact Rule.supers_addSuper c.kind_rule s
  | eraseSuper s => exact Rule.supers_eraseSuper s
  | ensure k => cases k <;> rfl
  | erase k => cases k <;> rfl
  | _ => rfl

theorem partners_perform (hd : (c.rules.map Rule.kind).Nodup) (call : Call) :
    (c.perform call).partners = call.onPartners.onSet c.partners := by
  simp only [partners, rule_perform c hd]
  cases call with
  | addPartner e => exact Rule.partners_addPartner c.kind_rule e
  | erasePartner e => exact Rule.partners_erasePartner e
  | ensure k => cases k <;> rfl
  | erase k => cases k <;> rfl
  | _ => rfl

theorem existentials_perform (hd : (c.rules.map Rule.kind).Nodup) (call : Call) :
    (c.perform call).existentials = call.onExistentials.onSet c.existentials := by
  simp only [existentials, rule_perform c hd]
  cases call with
  | addExistential n => exact Rule.existentials_addExistential c.kind_rule n
  | eraseExistential n => exact Rule.existentials_eraseExistential n
  | ensure k => cases k <;> rfl
  | erase k => cases k <;> rfl
  | _ => rfl

theorem axioms_perform (hd : (c.rules.map Rule.kind).Nodup) (call : Call) :
    (c.perform call).axioms = call.onAxioms.onSet c.axioms := by
  simp only [axioms, rule_perform c hd]
  cases call with
  | addDisjointness d => exact Rule.axioms_addDisjointness c.kind_rule d
  | ensure k => cases k <;> rfl
  | erase k => cases k <;> rfl
  | _ => rfl

/-! ### Two calls -/

theorem modify_modify (hf : ∀ r, (f r).kind = r.kind) :
    (c.modify k f).modify k g = c.modify k (g ∘ f) := by
  obtain ⟨rules⟩ := c
  refine congrArg RuleChain.mk ?_
  simp only [modify]
  induction rules with
  | nil => rfl
  | cons r rest ih =>
    by_cases hr : r.kind = k
    · simp [modify.go, hr, hf]
    · simp [modify.go, hr, ih]

theorem prune_of_isEmpty (h : c.find? k = some r) (hr : r.isEmpty = true) :
    c.prune k = c.erase k := by
  simp [prune, h, hr]

theorem prune_of_filled (h : c.find? k = some r) (hr : ¬ r.isEmpty = true) : c.prune k = c := by
  simp [prune, h, hr]

/-- An empty rule that is put in goes again with the next look at it; one that was there goes too. -/
theorem prune_ensure (hd : (c.rules.map Rule.kind).Nodup) (hk : k ≠ .bottom) :
    (c.ensure k).prune k = c ↔ .empty k ∉ c.rules := by
  have hempty : (Rule.empty k).isEmpty = true := by simp [Rule.isEmpty_empty, hk]
  constructor
  · -- No empty rule is left, so that the chain cannot have had one.
    intro he hmem
    have hfilled := filled_prune _ (distinct_ensure c hd) (he.symm ▸ hmem) (Rule.kind_empty k)
    exact absurd hempty (by simp [hfilled])
  · intro hnot
    rcases c.ensure_cases (k := k) with ⟨hold, he⟩ | ⟨hnew, he⟩
    · obtain ⟨r, hr, hkind⟩ := List.mem_map.mp hold
      have hfilled : ¬ r.isEmpty = true := by
        intro h
        rw [r.eq_empty_of_isEmpty h, hkind] at hr
        exact hnot hr
      rw [he]
      exact c.prune_of_filled ((find?_eq_some c hd).mpr ⟨hr, hkind⟩) hfilled
    · have hfind : (c.ensure k).find? k = some (.empty k) := by
        refine (find?_eq_some _ (distinct_ensure c hd)).mpr ⟨?_, Rule.kind_empty k⟩
        simp [he]
      have hpast : ∀ r ∈ c.rules, ¬ r.kind == k := by
        intro r hr hkind
        exact hnew (List.mem_map.mpr ⟨r, hr, eq_of_beq hkind⟩)
      rw [prune_of_isEmpty _ hfind hempty]
      simp [erase, he, List.eraseP_append_right _ hpast]

/-- What is put in and taken out again leaves no trace, but for an empty rule that was there. -/
theorem restores (hd : (c.rules.map Rule.kind).Nodup) (hk : k ≠ .bottom)
    (hf : ∀ r, (f r).kind = r.kind) (h : g (f (c.rule k)) = c.rule k) :
    (((c.ensure k).modify k f).modify k g).prune k = c ↔ .empty k ∉ c.rules := by
  have hsame : ((c.ensure k).modify k f).modify k g = c.ensure k := by
    rw [modify_modify _ hf]
    apply modify_eq_self
    intro r hr
    rw [find?_ensure, if_pos rfl] at hr
    cases hr
    exact h
  rw [hsame]
  exact prune_ensure c hd hk

/-! ### Any calls -/

section

variable {α : Type} [DecidableEq α]

/-- What a bag holds after the calls of a history, of which each does with it what `on` says. -/
def bagOf (on : Call → EntryEdit α) (calls : List Call) : List α :=
  calls.foldr (fun call => (on call).onBag) []

/-- What a set holds after the calls of a history. -/
def setOf (on : Call → EntryEdit α) (calls : List Call) : List α :=
  calls.foldr (fun call => (on call).onSet) []

theorem queues_setOf (on : Call → EntryEdit α) : Queues (setOf on) where
  start := rfl
  step call past := (on call).onSet_cases (setOf on past)

end

theorem queues_kinds : Queues fun calls => (after calls).rules.map Rule.kind where
  start := rfl
  step call past := (after past).kinds_perform call

theorem distinct_after (calls : List Call) : ((after calls).rules.map Rule.kind).Nodup :=
  (chronological queues_kinds calls).once

theorem view_after {β : Type} {view : RuleChain → β} {on : Call → β → β}
    (h : ∀ c : RuleChain, (c.rules.map Rule.kind).Nodup → ∀ call,
      view (c.perform call) = on call (view c)) (calls : List Call) :
    view (after calls) = calls.foldr on (view empty) := by
  induction calls with
  | nil => rfl
  | cons call earlier ih => exact (h _ (distinct_after earlier) call).trans (congrArg _ ih)

theorem supers_after (calls : List Call) : (after calls).supers = bagOf Call.onSupers calls :=
  view_after supers_perform calls

theorem partners_after (calls : List Call) :
    (after calls).partners = setOf Call.onPartners calls :=
  view_after partners_perform calls

theorem existentials_after (calls : List Call) :
    (after calls).existentials = setOf Call.onExistentials calls :=
  view_after existentials_perform calls

theorem axioms_after (calls : List Call) : (after calls).axioms = setOf Call.onAxioms calls :=
  view_after axioms_perform calls

/-- The rule that the calls have left of a kind, if they have left one. -/
def ruleOf (calls : List Call) : RuleKind → Rule
  | .bottom => .contradiction
  | .told => .told (bagOf Call.onSupers calls)
  | .conjunction => .conjunction (setOf Call.onPartners calls)
  | .propagation => .propagation (setOf Call.onExistentials calls)
  | .disjointness => .disjointness (setOf Call.onAxioms calls)

theorem rule_after (calls : List Call) (k : RuleKind) : (after calls).rule k = ruleOf calls k := by
  have h := ((after calls).rule k).eq_entries
  rw [kind_rule] at h
  cases k with
  | bottom => exact h
  | told => exact h.trans (congrArg Rule.told (supers_after calls))
  | conjunction => exact h.trans (congrArg Rule.conjunction (partners_after calls))
  | propagation => exact h.trans (congrArg Rule.propagation (existentials_after calls))
  | disjointness => exact h.trans (congrArg Rule.disjointness (axioms_after calls))

theorem rules_after (calls : List Call) :
    (after calls).rules = ((after calls).rules.map Rule.kind).map (ruleOf calls) := by
  rw [List.map_map]
  apply List.ext_getElem (by simp)
  intro i hi _
  have hrule := (after calls).rule_eq (distinct_after calls) (List.getElem_mem hi)
  rw [List.getElem_map, Function.comp_apply, ← rule_after, hrule]

theorem ruleOf_of_absent (h : k ∉ (after calls).rules.map Rule.kind) :
    ruleOf calls k = .empty k := by
  have hnone : (after calls).find? k = none := by simpa [find?] using h
  rw [← rule_after, rule, hnone, Option.getD_none]

theorem find?_after (calls : List Call) (k : RuleKind) : (after calls).find? k =
    if k ∈ (after calls).rules.map Rule.kind then some (ruleOf calls k) else none := by
  split
  · rename_i hk
    obtain ⟨r, hr, rfl⟩ := List.mem_map.mp hk
    rw [← rule_after, (after calls).rule_eq (distinct_after calls) hr]
    exact ((after calls).mem_rules_iff (distinct_after calls)).mp hr
  · rename_i hk
    simpa [find?] using hk

theorem kind_mem_of_extend (h : call.mode = .extend) :
    call.kind ∈ (c.perform call).rules.map Rule.kind := by
  rw [perform_eq, h, kinds_modify _ (call.kind_edit (by simp [h]))]
  rcases c.ensure_cases (k := call.kind) with ⟨hold, he⟩ | ⟨_, he⟩
  · rwa [he]
  · simp [he]

theorem kind_not_mem_of_drop (hd : (c.rules.map Rule.kind).Nodup) (h : call.mode = .drop) :
    call.kind ∉ (c.perform call).rules.map Rule.kind := by
  have hnone : (c.erase call.kind).find? call.kind = none := by simp [find?_erase c hd]
  rw [perform_eq, h]
  simpa [find?] using hnone

theorem filled_of_reduce (hd : (c.rules.map Rule.kind).Nodup) (h : call.mode = .reduce)
    (hr : r ∈ (c.perform call).rules) (hk : r.kind = call.kind) : r.isEmpty = false := by
  rw [perform_eq, h] at hr
  refine filled_prune _ ?_ hr hk
  rwa [kinds_modify _ (call.kind_edit (by simp [h]))]

/-- A chain as the calls tell it: a map from kinds to entries in the order of insertion. -/
structure InsertionOrdered (calls : List Call) : Prop where
  /-- No kind has two rules, and the kinds stand in the order in which they were last inserted. -/
  kinds : Chronological (fun past => (after past).rules.map Rule.kind) calls
  /-- What the rule of a kind holds is told from the calls that are about its kind. -/
  rules : (after calls).rules = ((after calls).rules.map Rule.kind).map (ruleOf calls)
  found : ∀ k, (after calls).find? k =
    if k ∈ (after calls).rules.map Rule.kind then some (ruleOf calls k) else none
  absent : ∀ k, k ∉ (after calls).rules.map Rule.kind → ruleOf calls k = .empty k
  told : ∀ sup, (after calls).hasSuper sup = true ↔ sup ∈ bagOf Call.onSupers calls
  partners : Chronological (fun past => (after past).partners) calls
  existentials : Chronological (fun past => (after past).existentials) calls
  axioms : Chronological (fun past => (after past).axioms) calls
  /-- A call leaves the rules of all other kinds as they are, and in the same order. -/
  others : ∀ call, (after (call :: calls)).others call.kind = (after calls).others call.kind
  extended : ∀ call, call.mode = .extend →
    call.kind ∈ (after (call :: calls)).rules.map Rule.kind
  /-- Where entries are taken away, no empty rule is left. -/
  reduced : ∀ call, call.mode = .reduce → ∀ r ∈ (after (call :: calls)).rules,
    r.kind = call.kind → r.isEmpty = false
  dropped : ∀ call, call.mode = .drop →
    call.kind ∉ (after (call :: calls)).rules.map Rule.kind
  /-- A new entry that is taken away again leaves no trace, but for an empty rule of its kind. -/
  partnerRestored : ∀ entry, entry ∉ (after calls).partners →
    (after (.erasePartner entry :: .addPartner entry :: calls) = after calls ↔
      .conjunction [] ∉ (after calls).rules)
  existentialRestored : ∀ node, node ∉ (after calls).existentials →
    (after (.eraseExistential node :: .addExistential node :: calls) = after calls ↔
      .propagation [] ∉ (after calls).rules)

theorem insertion_ordered (calls : List Call) : InsertionOrdered calls where
  kinds := chronological queues_kinds calls
  rules := rules_after calls
  found := find?_after calls
  absent _ := ruleOf_of_absent
  told sup := by rw [hasSuper_iff, supers_after]
  partners := by simpa only [partners_after] using chronological (queues_setOf _) calls
  existentials := by simpa only [existentials_after] using chronological (queues_setOf _) calls
  axioms := by simpa only [axioms_after] using chronological (queues_setOf _) calls
  others := (after calls).others_perform
  extended _ := kind_mem_of_extend _
  reduced _ h _ hr hk := filled_of_reduce _ (distinct_after calls) h hr hk
  dropped _ := kind_not_mem_of_drop _ (distinct_after calls)
  partnerRestored entry h :=
    restores _ (distinct_after calls) (by decide) (fun r => r.kind_addPartner entry)
      (Rule.erasePartner_addPartner h)
  existentialRestored node h :=
    restores _ (distinct_after calls) (by decide) (fun r => r.kind_addExistential node)
      (Rule.eraseExistential_addExistential h)

/-- Told superclasses come and go and come again, behind the kinds that were there meanwhile; last of
all there is an empty rule. -/
def reinserted : List Call :=
  [.ensure .propagation, .addSuper ⟨3⟩, .eraseSuper ⟨2⟩, .addPartner ⟨⟨4⟩, ⟨5⟩⟩,
    .addDisjointness ⟨0⟩, .addSuper ⟨2⟩]

theorem insertion_ordered_reinserted :
    (after reinserted).rules = [.disjointness [⟨0⟩], .conjunction [⟨⟨4⟩, ⟨5⟩⟩], .told [⟨3⟩],
      .propagation []] ∧
    (∃ earlier, ListedSince (fun past => (after past).rules.map Rule.kind) reinserted earlier .told) ∧
    after (.erasePartner ⟨⟨6⟩, ⟨5⟩⟩ :: .addPartner ⟨⟨6⟩, ⟨5⟩⟩ :: reinserted) = after reinserted ∧
    after (.eraseExistential ⟨7⟩ :: .addExistential ⟨7⟩ :: reinserted) ≠ after reinserted := by
  have hrules : (after reinserted).rules = [.disjointness [⟨0⟩], .conjunction [⟨⟨4⟩, ⟨5⟩⟩],
      .told [⟨3⟩], .propagation []] := by
    decide
  have h := insertion_ordered reinserted
  refine ⟨hrules, h.kinds.inserted .told (by simp [hrules, Rule.kind]), ?_, ?_⟩
  · exact (h.partnerRestored _ (by decide)).mpr (by simp [hrules])
  · intro he
    exact (h.existentialRestored _ (by decide)).mp he (by simp [hrules])

end RuleChain

end Subsumption
