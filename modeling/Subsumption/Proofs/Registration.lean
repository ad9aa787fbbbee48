import Mathlib.Algebra.BigOperators.Group.Finset.Piecewise
import Mathlib.Algebra.Order.BigOperators.Group.Finset
import Subsumption.Proofs.LiveAxioms

/-! Registrations are counted exactly, and the parts of a registered node know of it. -/
namespace Subsumption

def Expression.parts : Expression → List NodeId
  | .intersection a b => [a, b]
  | .existential _ f => [f]
  | _ => []

namespace Ontology

variable {o o' : Ontology} {n m a b : NodeId} {due : NodeId → Nat} {calls : List Call}

/-- The parts of a node; a part may be listed twice. -/
def parts (o : Ontology) (n : NodeId) : List NodeId :=
  ((o.expression? n).map (·.parts)).getD []

/-- The axioms told of `m`, and its occurrences in registered nodes. -/
def registrations (o : Ontology) (m : NodeId) : Nat :=
  (o.rules m).supers.length + ∑ i ∈ Finset.range UInt32.size,
    if 0 < o.negative (.ofIndex i) then (o.parts (.ofIndex i)).count m else 0

/-- As many registrations as `m` would have if all nodes were registered. -/
def capacity (o : Ontology) (m : NodeId) : Nat :=
  (o.rules m).supers.length + ∑ i ∈ Finset.range UInt32.size, (o.parts (.ofIndex i)).count m

/-- How many axioms are told of `m`. -/
def told (o : Ontology) (m : NodeId) : Nat := (o.rules m).supers.length

/-- The numbers of nodes; so many that they are better not unfolded. -/
@[irreducible] def numbers : Finset Nat := Finset.range UInt32.size

/-- How often `m` is to be registered, counted without a bound: for each axiom told of it, and for
each occurrence in a node that is to be registered itself. Nodes have larger numbers than their
parts, and only such nodes are looked at. -/
def load (parts : NodeId → List NodeId) (told : NodeId → Nat) (m : NodeId) : Nat :=
  told m + ∑ i ∈ numbers,
    if _h : m.index < (NodeId.ofIndex i).index then
      if 0 < load parts told (.ofIndex i) then (parts (.ofIndex i)).count m else 0
    else 0
termination_by UInt32.size - m.index
decreasing_by
  have := (NodeId.ofIndex i).index_lt
  omega

/-- The conjuncts and the filler of the node have an entry for it. -/
def Entered (o : Ontology) (n : NodeId) : Prop :=
  (∀ a b, o.expression? n = some (.intersection a b) → ⟨b, n⟩ ∈ (o.rules a).partners) ∧
  ∀ r f, o.expression? n = some (.existential r f) → n ∈ (o.rules f).existentials

/-- No chain has an entry for the node. -/
structure Unlisted (o : Ontology) (n : NodeId) : Prop where
  partners : ∀ x e, e ∈ (o.rules x).partners → e.conjunction ≠ n
  existentials : ∀ x, n ∉ (o.rules x).existentials

/-- Every count is the number of registrations, but for what is still due to be counted. -/
def Balanced (o : Ontology) (due : NodeId → Int) : Prop :=
  ∀ m, ((o.negative m).toNat : Int) + due m = o.registrations m

/-- Every registered node has its entries and no other node has any, and the counts are
balanced. -/
structure Registered (o : Ontology) (due : NodeId → Int) : Prop where
  balanced : o.Balanced due
  entered : ∀ n, 0 < o.negative n → o.Entered n
  unlisted : ∀ n, o.negative n = 0 → o.Unlisted n

/-- A well-formed ontology whose counts cannot overflow. -/
structure Roomy (o : Ontology) : Prop where
  interned : o.Interned
  attached : o.Attached
  room : ∀ m, load o.parts o.told m < UInt32.size

/-! ### Counting -/

theorem load_le_capacity : load o.parts o.told m ≤ o.capacity m := by
  rw [load, numbers]
  refine Nat.add_le_add_left (Finset.sum_le_sum fun i _ => ?_) (o.told m)
  by_cases hlt : m.index < (NodeId.ofIndex i).index
  · rw [dif_pos hlt]
    by_cases hpos : 0 < load o.parts o.told (.ofIndex i)
    · rw [if_pos hpos]
    · rw [if_neg hpos]
      exact Nat.zero_le _
  · rw [dif_neg hlt]
    exact Nat.zero_le _

/-- A count tells on the registrations of the parts when it comes to be positive or to be zero. -/
theorem registrations_modifyNegative (f : UInt32 → UInt32) :
    (o.modifyNegative n f).registrations m + (if 0 < o.negative n then (o.parts n).count m else 0) =
      o.registrations m +
        if 0 < (o.modifyNegative n f).negative n then (o.parts n).count m else 0 := by
  have hmem : n.index ∈ Finset.range UInt32.size := Finset.mem_range.mpr n.index_lt
  have hother : ∀ i ∈ (Finset.range UInt32.size).erase n.index,
      (if 0 < (o.modifyNegative n f).negative (.ofIndex i) then (o.parts (.ofIndex i)).count m
        else 0) =
      if 0 < o.negative (.ofIndex i) then (o.parts (.ofIndex i)).count m else 0 := by
    intro i hi
    obtain ⟨hne, hlt⟩ := Finset.mem_erase.mp hi
    have hni : NodeId.ofIndex i ≠ n := by
      rintro rfl
      exact hne (NodeId.index_ofIndex (Finset.mem_range.mp hlt)).symm
    have hneg : (o.modifyNegative n f).negative (.ofIndex i) = o.negative (.ofIndex i) := by
      rw [negative_modifyNegative, if_neg fun h => hni h.1]
    rw [hneg]
  have hparts : ∀ p, (o.modifyNegative n f).parts p = o.parts p := by
    simp [parts]
  simp only [registrations, rules_modifyNegative, hparts]
  rw [← Finset.add_sum_erase _ _ hmem, ← Finset.add_sum_erase _ _ hmem, Finset.sum_congr rfl hother,
    NodeId.ofIndex_index]
  omega

/-- Counting one more registration of `n` leaves those of its parts due if it was the first. -/
theorem balanced_increment
    (hnew : ((o.modifyNegative n (· + 1)).negative n).toNat = (o.negative n).toNat + 1)
    (h : o.Balanced fun m => (due m + if m = n then 1 else 0 : Nat)) :
    (o.modifyNegative n (· + 1)).Balanced fun m =>
      (due m + if 1 < (o.modifyNegative n (· + 1)).negative n then 0
        else (o.parts n).count m : Nat) := by
  intro m
  have hbal := h m
  have hreg := registrations_modifyNegative (o := o) (n := n) (m := m) (· + 1)
  have hcount : ((o.modifyNegative n (· + 1)).negative m).toNat =
      (o.negative m).toNat + if m = n then 1 else 0 := by
    by_cases hm : m = n
    · rw [if_pos hm, hm, hnew]
    · rw [if_neg hm, negative_modifyNegative, if_neg fun h => hm h.1]
      rfl
  rw [hcount]
  simp only [UInt32.lt_iff_toNat_lt, hnew, UInt32.toNat_zero, UInt32.toNat_one] at hbal hreg ⊢
  by_cases hz : (o.negative n).toNat = 0
  · simp only [hz, Nat.lt_irrefl, Nat.zero_lt_one, Nat.zero_add, if_true, if_false] at hreg ⊢
    omega
  · have hpos : 0 < (o.negative n).toNat := Nat.pos_of_ne_zero hz
    simp only [hpos, Nat.succ_pos, Nat.lt_add_left_iff_pos, if_true] at hreg ⊢
    omega

/-- Taking one registration of `n` back leaves those of its parts due if it was the last. -/
theorem balanced_decrement (hn : n.index < o.size)
    (h : o.Balanced fun m => -(due m + if m = n then 1 else 0 : Nat)) :
    (o.modifyNegative n decrement).Balanced fun m =>
      -(due m + if 0 < (o.modifyNegative n decrement).negative n then 0
        else (o.parts n).count m : Nat) := by
  have hpos : 0 < (o.negative n).toNat := by
    have hbal := h n
    simp only [if_true] at hbal
    omega
  have hnew : ((o.modifyNegative n decrement).negative n).toNat = (o.negative n).toNat - 1 := by
    have hne : o.negative n ≠ 0 := fun h0 => by simp [h0] at hpos
    rw [negative_modifyNegative, if_pos ⟨rfl, hn⟩, decrement, if_neg hne]
    exact UInt32.toNat_sub_of_le _ _ (UInt32.le_iff_toNat_le.mpr hpos)
  intro m
  have hbal := h m
  have hreg := registrations_modifyNegative (o := o) (n := n) (m := m) decrement
  have hcount : ((o.modifyNegative n decrement).negative m).toNat + (if m = n then 1 else 0) =
      (o.negative m).toNat := by
    by_cases hm : m = n
    · rw [if_pos hm, hm, hnew]
      omega
    · rw [if_neg hm, negative_modifyNegative, if_neg fun h => hm h.1]
      rfl
  simp only [UInt32.lt_iff_toNat_lt, hnew, UInt32.toNat_zero, hpos, if_true] at hbal hreg ⊢
  by_cases hz : 0 < (o.negative n).toNat - 1
  · simp only [hz, if_true] at hreg ⊢
    omega
  · simp only [hz, if_false] at hreg ⊢
    omega

/-! ### Entries -/

/-- Makes the entries for a node in the chains of its parts. -/
def attach (o : Ontology) (n : NodeId) : Ontology :=
  match o.expression? n with
  | some (.intersection a b) =>
    (o.modifyRules a (·.addPartner ⟨b, n⟩)).modifyRules b (·.addPartner ⟨a, n⟩)
  | some (.existential _ f) => o.modifyRules f (·.addExistential n)
  | _ => o

/-- Takes them out again. -/
def detach (o : Ontology) (n : NodeId) : Ontology :=
  match o.expression? n with
  | some (.intersection a b) =>
    (o.modifyRules a (·.erasePartner ⟨b, n⟩)).modifyRules b (·.erasePartner ⟨a, n⟩)
  | some (.existential _ f) => o.modifyRules f (·.eraseExistential n)
  | _ => o

theorem register_eq (hi : o.Interned) : o.register n =
    if 1 < (o.modifyNegative n (· + 1)).negative n then o.modifyNegative n (· + 1)
    else (o.parts n).foldl register ((o.modifyNegative n (· + 1)).attach n) := by
  rw [register]
  simp only [attach, parts, expression?_modifyNegative]
  split
  · rfl
  · cases he : o.expression? n with
    | none => rfl
    | some e =>
      cases e with
      | named | top | bottom => rfl
      | intersection a b =>
        obtain ⟨ha, hb⟩ := hi.conjuncts n a b he
        simp [ha, hb, Expression.parts]
      | existential p f =>
        simp [(hi.filler n p f he).2, Expression.parts]

theorem withdraw_eq (hi : o.Interned) : o.withdraw n =
    if 0 < (o.modifyNegative n decrement).negative n then o.modifyNegative n decrement
    else (o.parts n).foldl withdraw ((o.modifyNegative n decrement).detach n) := by
  rw [withdraw]
  simp only [detach, parts, expression?_modifyNegative]
  split
  · rfl
  · cases he : o.expression? n with
    | none => rfl
    | some e =>
      cases e with
      | named | top | bottom => rfl
      | intersection a b =>
        obtain ⟨ha, hb⟩ := hi.conjuncts n a b he
        simp [ha, hb, Expression.parts]
      | existential p f =>
        simp [(hi.filler n p f he).2, Expression.parts]

theorem adjusts_attach : Relation.ReflTransGen Adjust o (o.attach n) := by
  unfold attach
  split
  · exact .single (.addPartners ‹_›)
  · exact .single (.addExistential ‹_›)
  · exact .refl

theorem adjusts_detach : Relation.ReflTransGen Adjust o (o.detach n) := by
  unfold detach
  split
  · exact .single (.erasePartners ‹_›)
  · exact .single (.eraseExistential ‹_›)
  · exact .refl

theorem negative_attach : (o.attach n).negative m = o.negative m := by
  unfold attach
  split <;> simp

theorem negative_detach : (o.detach n).negative m = o.negative m := by
  unfold detach
  split <;> simp

theorem mem_parts (h : m ∈ o.parts n) :
    (∃ a b, o.expression? n = some (.intersection a b) ∧ (m = a ∨ m = b)) ∨
      ∃ r, o.expression? n = some (.existential r m) := by
  unfold parts at h
  cases he : o.expression? n with
  | none => simp [he] at h
  | some e =>
    cases e with
    | named | top | bottom => simp [he, Expression.parts] at h
    | intersection a b => exact Or.inl ⟨a, b, rfl, by simpa [he, Expression.parts] using h⟩
    | existential r f =>
      obtain rfl : m = f := by simpa [he, Expression.parts] using h
      exact Or.inr ⟨r, rfl⟩

theorem part_lt (hi : o.Interned) (h : m ∈ o.parts n) : m.index < n.index := by
  rcases mem_parts h with ⟨a, b, he, hm⟩ | ⟨r, he⟩
  · obtain ⟨ha, hb⟩ := hi.conjuncts n a b he
    rcases hm with rfl | rfl
    · exact ha
    · exact hb
  · exact (hi.filler n r m he).2

/-- The nodes that are looked at are those that the node is a part of. -/
theorem load_eq (hi : o.Interned) (told : NodeId → Nat) (m : NodeId) :
    load o.parts told m = told m + ∑ i ∈ Finset.range UInt32.size,
      if 0 < load o.parts told (.ofIndex i) then (o.parts (.ofIndex i)).count m else 0 := by
  rw [load, numbers]
  refine Nat.add_left_cancel_iff.mpr (Finset.sum_congr rfl fun i _ => ?_)
  by_cases hlt : m.index < (NodeId.ofIndex i).index
  · rw [dif_pos hlt]
  · have hout : m ∉ o.parts (.ofIndex i) := fun hm => hlt (part_lt hi hm)
    rw [dif_neg hlt, List.count_eq_zero_of_not_mem hout, ite_self]

/-- Registering never goes beyond what is to be registered. -/
theorem registrations_le_load (hi : o.Interned) (hb : o.Balanced fun m => (due m : Nat))
    (m : NodeId) : o.registrations m ≤ load o.parts o.told m := by
  induction hx : UInt32.size - m.index using Nat.strongRecOn generalizing m with
  | _ k ih =>
    subst hx
    rw [load_eq hi]
    refine Nat.add_le_add_left (Finset.sum_le_sum fun i _ => ?_) _
    by_cases hm : m ∈ o.parts (.ofIndex i)
    · have hlt := part_lt hi hm
      have hle := ih _ (by have := (NodeId.ofIndex i).index_lt; omega) (.ofIndex i) rfl
      split
      · rename_i hpos
        have hbal : ((o.negative (.ofIndex i)).toNat : Int) + (due (.ofIndex i) : Nat) =
            o.registrations (.ofIndex i) := hb _
        have hpos := UInt32.lt_iff_toNat_lt.mp hpos
        rw [UInt32.toNat_zero] at hpos
        rw [if_pos (by omega)]
      · exact Nat.zero_le _
    · simp [List.count_eq_zero_of_not_mem hm]

/-- What is due to be counted can be counted. -/
theorem Roomy.toNat_increment (hr : o.Roomy) (hn : n.index < o.size)
    (hb : o.Balanced fun m => (due m + if m = n then 1 else 0 : Nat)) :
    ((o.modifyNegative n (· + 1)).negative n).toNat = (o.negative n).toNat + 1 := by
  have hbal := hb n
  have hle := registrations_le_load hr.interned hb n
  have hroom := hr.room n
  simp only [if_true] at hbal
  have hlt : (o.negative n).toNat + 1 < UInt32.size := by omega
  rw [negative_modifyNegative, if_pos ⟨rfl, hn⟩, UInt32.toNat_add]
  exact Nat.mod_eq_of_lt hlt

theorem entered_modifyNegative {f : UInt32 → UInt32} :
    (o.modifyNegative n f).Entered m ↔ o.Entered m := by
  simp [Entered]

theorem Unlisted.modifyNegative {f : UInt32 → UInt32} (h : o.Unlisted m) :
    (o.modifyNegative n f).Unlisted m :=
  ⟨by simpa using h.partners, by simpa using h.existentials⟩

theorem mem_partners_attach (hi : o.Interned) (ho : ∀ n, (o.rules n).Proper) {x : NodeId}
    {e : Partner} : e ∈ ((o.attach n).rules x).partners ↔ e ∈ (o.rules x).partners ∨
      e.conjunction = n ∧ (o.expression? n = some (.intersection x e.partner) ∨
        o.expression? n = some (.intersection e.partner x)) := by
  unfold attach
  split
  · rename_i a b he
    have hp := proper_modifyRules (m := a) (RuleChain.edits_addPartner ⟨b, n⟩) ho
    obtain ⟨ha, hb⟩ := hi.conjuncts n a b he
    have hn := expression?_lt he
    obtain ⟨y, c⟩ := e
    rw [mem_partners_addPartner hp, mem_partners_addPartner ho, size_modifyRules]
    simp only [he, Partner.mk.injEq, Option.some.injEq, Expression.intersection.injEq,
      Nat.lt_trans ha hn, Nat.lt_trans hb hn, true_and]
    tauto
  · rename_i p f he
    rw [RuleChain.partners, rule_modifyRules_of_ne (RuleChain.edits_addExistential n) ho
      (by decide), ← RuleChain.partners]
    simp [he]
  · rename_i h₁ h₂
    have := h₁ x e.partner
    have := h₁ e.partner x
    tauto

theorem mem_existentials_attach (hi : o.Interned) (ho : ∀ n, (o.rules n).Proper)
    {x y : NodeId} : y ∈ ((o.attach n).rules x).existentials ↔
      y ∈ (o.rules x).existentials ∨ y = n ∧ ∃ r, o.expression? n = some (.existential r x) := by
  unfold attach
  split
  · rename_i a b he
    have hp := proper_modifyRules (m := a) (RuleChain.edits_addPartner ⟨b, n⟩) ho
    rw [RuleChain.existentials, rule_modifyRules_of_ne (RuleChain.edits_addPartner _) hp
      (by decide), rule_modifyRules_of_ne (RuleChain.edits_addPartner _) ho (by decide),
      ← RuleChain.existentials]
    simp [he]
  · rename_i p f he
    have hf := Nat.lt_trans (hi.filler n p f he).2 (expression?_lt he)
    rw [mem_existentials_addExistential ho]
    simp only [he, hf, true_and, Option.some.injEq, Expression.existential.injEq,
      exists_eq_left']
    tauto
  · rename_i h₁ h₂
    have : ¬ ∃ r, o.expression? n = some (.existential r x) := fun ⟨r, h⟩ => h₂ r x h
    tauto

theorem mem_partners_detach (hi : o.Interned) (ho : o.Attached) {x : NodeId} {e : Partner} :
    e ∈ ((o.detach n).rules x).partners ↔ e ∈ (o.rules x).partners ∧ e.conjunction ≠ n := by
  have hself := fun h => (ho.partners x e h).1
  unfold detach
  split
  · rename_i a b he
    have hp := proper_modifyRules (m := a) (RuleChain.edits_erasePartner ⟨b, n⟩) ho.proper
    obtain ⟨ha, hb⟩ := hi.conjuncts n a b he
    have hn := expression?_lt he
    obtain ⟨y, c⟩ := e
    rw [mem_partners_erasePartner hp, mem_partners_erasePartner ho.proper, size_modifyRules]
    simp only [Partner.mk.injEq, Nat.lt_trans ha hn, Nat.lt_trans hb hn, true_and]
    constructor
    · rintro ⟨⟨h, h₁⟩, h₂⟩
      refine ⟨h, ?_⟩
      rintro rfl
      have hab := hself h
      simp only [he, Option.some.injEq, Expression.intersection.injEq] at hab
      tauto
    · tauto
  · rename_i p f he
    rw [RuleChain.partners, rule_modifyRules_of_ne (RuleChain.edits_eraseExistential n) ho.proper
      (by decide), ← RuleChain.partners]
    refine ⟨fun h => ⟨h, ?_⟩, And.left⟩
    rintro rfl
    simpa [he] using hself h
  · rename_i h₁ h₂
    refine ⟨fun h => ⟨h, ?_⟩, And.left⟩
    rintro rfl
    exact (hself h).elim (h₁ _ _) (h₁ _ _)

theorem mem_existentials_detach (hi : o.Interned) (ho : o.Attached) {x y : NodeId} :
    y ∈ ((o.detach n).rules x).existentials ↔ y ∈ (o.rules x).existentials ∧ y ≠ n := by
  have hself := ho.existentials x y
  unfold detach
  split
  · rename_i a b he
    have hp := proper_modifyRules (m := a) (RuleChain.edits_erasePartner ⟨b, n⟩) ho.proper
    rw [RuleChain.existentials, rule_modifyRules_of_ne (RuleChain.edits_erasePartner _) hp
      (by decide), rule_modifyRules_of_ne (RuleChain.edits_erasePartner _) ho.proper (by decide),
      ← RuleChain.existentials]
    refine ⟨fun h => ⟨h, ?_⟩, And.left⟩
    rintro rfl
    simpa [he] using hself h
  · rename_i p f he
    have hf := Nat.lt_trans (hi.filler n p f he).2 (expression?_lt he)
    rw [mem_existentials_eraseExistential ho.proper]
    simp only [hf, true_and]
    constructor
    · rintro ⟨h, hne⟩
      refine ⟨h, ?_⟩
      rintro rfl
      have hx := hself h
      simp only [he, Option.some.injEq, Expression.existential.injEq] at hx
      exact hne ⟨hx.choose_spec.2.symm, rfl⟩
    · tauto
  · rename_i h₁ h₂
    refine ⟨fun h => ⟨h, ?_⟩, And.left⟩
    rintro rfl
    exact (hself h).elim fun r => h₂ r x

theorem expression?_attach : (o.attach n).expression? m = o.expression? m := by
  unfold attach
  split <;> simp

theorem expression?_detach : (o.detach n).expression? m = o.expression? m := by
  unfold detach
  split <;> simp

theorem entered_attach (hi : o.Interned) (ho : o.Attached) (hm : m ≠ n → o.Entered m) :
    (o.attach n).Entered m := by
  by_cases hmn : m = n
  · subst hmn
    refine ⟨fun a b h => ?_, fun r f h => ?_⟩
    · rw [expression?_attach] at h
      exact (mem_partners_attach hi ho.proper).mpr (Or.inr ⟨rfl, Or.inl h⟩)
    · rw [expression?_attach] at h
      exact (mem_existentials_attach hi ho.proper).mpr (Or.inr ⟨rfl, r, h⟩)
  · obtain ⟨hp, hx⟩ := hm hmn
    refine ⟨fun a b h => ?_, fun r f h => ?_⟩
    · rw [expression?_attach] at h
      exact (mem_partners_attach hi ho.proper).mpr (Or.inl (hp a b h))
    · rw [expression?_attach] at h
      exact (mem_existentials_attach hi ho.proper).mpr (Or.inl (hx r f h))

theorem unlisted_attach (hi : o.Interned) (ho : o.Attached) (hmn : m ≠ n) (hm : o.Unlisted m) :
    (o.attach n).Unlisted m := by
  refine ⟨fun x e h => ?_, fun x h => ?_⟩
  · rcases (mem_partners_attach hi ho.proper).mp h with h | ⟨h, _⟩
    · exact hm.partners x e h
    · exact h ▸ Ne.symm hmn
  · rcases (mem_existentials_attach hi ho.proper).mp h with h | ⟨h, _⟩
    · exact hm.existentials x h
    · exact hmn h

/-- Only entries for `n` are taken out. -/
theorem entered_detach (hi : o.Interned) (ho : o.Attached) (hmn : m ≠ n) (hm : o.Entered m) :
    (o.detach n).Entered m := by
  refine ⟨fun a b h => ?_, fun r f h => ?_⟩
  · rw [expression?_detach] at h
    exact (mem_partners_detach hi ho).mpr ⟨hm.1 a b h, hmn⟩
  · rw [expression?_detach] at h
    exact (mem_existentials_detach hi ho).mpr ⟨hm.2 r f h, hmn⟩

/-- All entries for `n` are taken out. -/
theorem unlisted_detach (hi : o.Interned) (ho : o.Attached) (hm : m ≠ n → o.Unlisted m) :
    (o.detach n).Unlisted m := by
  refine ⟨fun x e h => ?_, fun x h => ?_⟩
  · obtain ⟨h, hn⟩ := (mem_partners_detach hi ho).mp h
    by_cases hmn : m = n
    · exact hmn ▸ hn
    · exact (hm hmn).partners x e h
  · obtain ⟨h, hn⟩ := (mem_existentials_detach hi ho).mp h
    exact (hm hn).existentials x h

/-! ### Registering and withdrawing -/

theorem Adjusted.parts (h : Adjusted o o') : o'.parts = o.parts :=
  funext fun n => by rw [Ontology.parts, h.expression?, ← Ontology.parts]

theorem Adjusted.told (h : Adjusted o o') : o'.told = o.told :=
  funext fun _ => congrArg List.length h.supers

theorem Roomy.of_adjusts (h : o.Roomy) (ha : Relation.ReflTransGen Adjust o o') :
    o'.Roomy ∧ Adjusted o o' := by
  obtain ⟨hadj, hi, ho⟩ := adjusted_adjusts h.interned h.attached ha
  refine ⟨⟨hi, ho, ?_⟩, hadj⟩
  rw [hadj.parts, hadj.told]
  exact h.room

/-- Edits of conjunction and propagation rules do not touch the counts. -/
theorem balanced_adjusted {due : NodeId → Int} (h : Adjusted o o')
    (hn : ∀ m, o'.negative m = o.negative m) (hb : o.Balanced due) : o'.Balanced due := by
  intro m
  have := hb m
  simpa only [registrations, parts, hn, h.expression?, h.supers] using this

/-- What is due for the parts of a node is counted part by part. -/
theorem registered_foldl {step : Ontology → NodeId → Ontology} {sign : Int} (ps : List NodeId)
    (hadj : ∀ o p, Relation.ReflTransGen Adjust o (step o p))
    (hstep : ∀ p ∈ ps, ∀ (o : Ontology) (due : NodeId → Nat), o.Roomy → p.index < o.size →
      (o.Registered fun m => sign * (due m + if m = p then 1 else 0 : Nat)) →
      (step o p).Registered fun m => sign * due m)
    (hr : o.Roomy) (hps : ∀ p ∈ ps, p.index < o.size)
    (h : o.Registered fun m => sign * (due m + ps.count m : Nat)) :
    (ps.foldl step o).Registered fun m => sign * due m := by
  induction ps generalizing o with
  | nil => simpa using h
  | cons p rest ih =>
    have hhead : (step o p).Registered fun m => sign * (due m + rest.count m : Nat) := by
      refine hstep p List.mem_cons_self o _ hr (hps p List.mem_cons_self) ?_
      simpa only [List.count_cons, beq_iff_eq, Nat.add_assoc, @eq_comm _ p] using h
    obtain ⟨hr', hadj'⟩ := hr.of_adjusts (hadj o p)
    exact ih (fun q hq => hstep q (List.mem_cons_of_mem _ hq)) hr'
      (fun q hq => hadj'.size ▸ hps q (List.mem_cons_of_mem _ hq)) hhead

/-- Only the first registration makes entries and goes on to the parts. -/
theorem registered_register (due : NodeId → Nat) (hr : o.Roomy) (hn : n.index < o.size)
    (h : o.Registered fun m => 1 * (due m + if m = n then 1 else 0 : Nat)) :
    (o.register n).Registered fun m => 1 * due m := by
  induction hx : n.index using Nat.strongRecOn generalizing o n due with
  | _ i ih =>
    subst hx
    have hbalanced : o.Balanced fun m => (due m + if m = n then 1 else 0 : Nat) := by
      simpa only [Int.one_mul] using h.balanced
    have hnew := hr.toNat_increment hn hbalanced
    have hcount := balanced_increment hnew hbalanced
    have hpositive : (o.modifyNegative n (· + 1)).negative n ≠ 0 := by
      rintro hz
      simp [hz] at hnew
    have hout : ∀ m, (o.modifyNegative n (· + 1)).negative m = 0 →
        m ≠ n ∧ (o.modifyNegative n (· + 1)).Unlisted m := by
      intro m hz
      have hmn : m ≠ n := by
        rintro rfl
        exact hpositive hz
      rw [negative_modifyNegative, if_neg fun h => hmn h.1] at hz
      exact ⟨hmn, (h.unlisted m hz).modifyNegative⟩
    have hother : ∀ m, m ≠ n → 0 < (o.modifyNegative n (· + 1)).negative m →
        (o.modifyNegative n (· + 1)).Entered m := by
      intro m hm hpos
      rw [negative_modifyNegative, if_neg fun h => hm h.1] at hpos
      exact entered_modifyNegative.mpr (h.entered m hpos)
    obtain ⟨hr₁, hadj₁⟩ := hr.of_adjusts (.single (.count (n := n) (f := (· + 1))))
    rw [register_eq hr.interned]
    split
    · rename_i hmany
      refine ⟨by simpa [hmany] using hcount, ?_, fun m hz => (hout m hz).2⟩
      intro m hm
      by_cases hmn : m = n
      · subst hmn
        refine entered_modifyNegative.mpr (h.entered m ?_)
        rw [negative_modifyNegative, if_pos ⟨rfl, hn⟩] at hmany
        exact UInt32.pos_iff_ne_zero.mpr fun hz => by simp [hz] at hmany
      · exact hother m hmn hm
    · rename_i hfirst
      obtain ⟨hr₂, hadj₂⟩ := hr₁.of_adjusts (adjusts_attach (n := n))
      refine registered_foldl _ adjusts_register ?_ hr₂ ?_ ⟨?_, ?_, ?_⟩
      · intro p hp o' due' hr' hp' h'
        exact ih p.index (part_lt hr.interned hp) due' hr' hp' h' rfl
      · intro p hp
        rw [hadj₂.size, hadj₁.size]
        exact Nat.lt_trans (part_lt hr.interned hp) hn
      · simp only [Int.one_mul]
        exact balanced_adjusted hadj₂ (fun _ => negative_attach) (by simpa [hfirst] using hcount)
      · intro m hm
        rw [negative_attach] at hm
        exact entered_attach hr₁.interned hr₁.attached fun hmn => hother m hmn hm
      · intro m hz
        rw [negative_attach] at hz
        obtain ⟨hmn, hm⟩ := hout m hz
        exact unlisted_attach hr₁.interned hr₁.attached hmn hm

/-- Only the last withdrawal takes entries out and goes on to the parts. -/
theorem registered_withdraw (due : NodeId → Nat) (hr : o.Roomy) (hn : n.index < o.size)
    (h : o.Registered fun m => -1 * (due m + if m = n then 1 else 0 : Nat)) :
    (o.withdraw n).Registered fun m => -1 * due m := by
  induction hx : n.index using Nat.strongRecOn generalizing o n due with
  | _ i ih =>
    subst hx
    have hcount := balanced_decrement hn (by simpa only [Int.neg_one_mul] using h.balanced)
    have hpositive : 0 < o.negative n := by
      have hbal := h.balanced n
      simp only [if_true] at hbal
      exact UInt32.lt_iff_toNat_lt.mpr (by rw [UInt32.toNat_zero]; omega)
    have hentered : ∀ m, 0 < (o.modifyNegative n decrement).negative m →
        (o.modifyNegative n decrement).Entered m := by
      intro m hpos
      refine entered_modifyNegative.mpr (h.entered m ?_)
      rw [negative_modifyNegative] at hpos
      split at hpos
      · rename_i hm
        exact hm.1 ▸ hpositive
      · exact hpos
    have hout : ∀ m, m ≠ n → (o.modifyNegative n decrement).negative m = 0 →
        (o.modifyNegative n decrement).Unlisted m := by
      intro m hmn hz
      rw [negative_modifyNegative, if_neg fun h => hmn h.1] at hz
      exact (h.unlisted m hz).modifyNegative
    obtain ⟨hr₁, hadj₁⟩ := hr.of_adjusts (.single (.count (n := n) (f := decrement)))
    rw [withdraw_eq hr.interned]
    split
    · rename_i hleft
      refine ⟨by simpa [hleft] using hcount, hentered, ?_⟩
      intro m hz
      refine hout m ?_ hz
      rintro rfl
      simp [hz] at hleft
    · rename_i hlast
      obtain ⟨hr₂, hadj₂⟩ := hr₁.of_adjusts (adjusts_detach (n := n))
      refine registered_foldl _ adjusts_withdraw ?_ hr₂ ?_ ⟨?_, ?_, ?_⟩
      · intro p hp o' due' hr' hp' h'
        exact ih p.index (part_lt hr.interned hp) due' hr' hp' h' rfl
      · intro p hp
        rw [hadj₂.size, hadj₁.size]
        exact Nat.lt_trans (part_lt hr.interned hp) hn
      · simp only [Int.neg_one_mul]
        exact balanced_adjusted hadj₂ (fun _ => negative_detach) (by simpa [hlast] using hcount)
      · intro m hm
        rw [negative_detach] at hm
        have hmn : m ≠ n := by
          rintro rfl
          exact hlast hm
        exact entered_detach hr₁.interned hr₁.attached hmn (hentered m hm)
      · intro m hz
        rw [negative_detach] at hz
        exact unlisted_detach hr₁.interned hr₁.attached fun hmn => hout m hmn hz

/-! ### Calls -/

theorem expression?_of_negative (h : 0 < o.negative n) : ∃ e, o.expression? n = some e := by
  cases hx : o.node? n with
  | none => simp [negative, hx] at h
  | some x => exact ⟨x.expression, by simp [expression?, hx]⟩

/-- Told superclasses are the only registrations that calls make or take back themselves. -/
theorem Registered.of_told {due due' : NodeId → Int} (h : o.Registered due)
    (hn : ∀ m, o'.negative m = o.negative m)
    (he : ∀ m e, o.expression? m = some e → o'.expression? m = some e)
    (hk : ∀ m k, k ≠ .told → k ≠ .disjointness → (o'.rules m).rule k = (o.rules m).rule k)
    (hd : ∀ m, ((o.rules m).supers.length : Int) + due' m = (o'.rules m).supers.length + due m) :
    o'.Registered due' := by
  have hkept : ∀ m, 0 < o.negative m → o'.expression? m = o.expression? m := by
    intro m hm
    obtain ⟨e, hx⟩ := expression?_of_negative hm
    rw [hx, he m e hx]
  refine ⟨?_, ?_, ?_⟩
  · intro m
    have hbal := h.balanced m
    have hlen := hd m
    have hsum : ∀ i ∈ Finset.range UInt32.size,
        (if 0 < o'.negative (.ofIndex i) then (o'.parts (.ofIndex i)).count m else 0) =
        if 0 < o.negative (.ofIndex i) then (o.parts (.ofIndex i)).count m else 0 := by
      intro i _
      rw [hn]
      split
      · rw [parts, parts, hkept _ ‹_›]
      · rfl
    rw [hn]
    simp only [registrations, Finset.sum_congr rfl hsum] at hbal ⊢
    omega
  · intro m hm
    rw [hn] at hm
    obtain ⟨hp, hx⟩ := h.entered m hm
    refine ⟨?_, ?_⟩
    · intro a b hab
      rw [RuleChain.partners, hk a _ (by decide) (by decide)]
      exact hp a b (by rwa [hkept m hm] at hab)
    · intro r f hf
      rw [RuleChain.existentials, hk f _ (by decide) (by decide)]
      exact hx r f (by rwa [hkept m hm] at hf)
  · intro m hm
    rw [hn] at hm
    obtain ⟨hp, hx⟩ := h.unlisted m hm
    refine ⟨?_, ?_⟩
    · intro x e he
      rw [RuleChain.partners, hk x _ (by decide) (by decide)] at he
      exact hp x e he
    · intro x hm
      rw [RuleChain.existentials, hk x _ (by decide) (by decide)] at hm
      exact hx x hm

theorem negative_empty : empty.negative n = 0 := by
  have : ∀ x ∈ empty.nodes.toList, x.negative = 0 := by decide
  cases hx : empty.node? n with
  | none => simp [negative, hx]
  | some x =>
    have hmem : x ∈ empty.nodes.toList := Array.mem_toList_iff.mpr (Array.mem_of_getElem? hx)
    simp [negative, hx, this x hmem]

theorem rule_empty {k : RuleKind} (hk : k ≠ .bottom) : (empty.rules n).rule k = .empty k := by
  rw [rules_empty]
  cases k with
  | bottom => exact absurd rfl hk
  | told | conjunction | propagation | disjointness => split <;> rfl

theorem registered_empty : empty.Registered fun _ => 0 := by
  refine ⟨?_, ?_, ?_⟩
  · intro m
    have hs : (empty.rules m).supers = [] := by
      rw [RuleChain.supers, rule_empty (by decide)]
      rfl
    simp [registrations, negative_empty, hs]
  · intro m hm
    simp [negative_empty] at hm
  · intro m _
    refine ⟨?_, ?_⟩
    · intro x e he
      rw [RuleChain.partners, rule_empty (by decide)] at he
      exact absurd he List.not_mem_nil
    · intro x he
      rw [RuleChain.existentials, rule_empty (by decide)] at he
      exact List.not_mem_nil he

theorem registered_intern {e : Expression} (hp : o.HasParts e) (h : o.Registered fun _ => 0) :
    (o.intern e).2.Registered fun _ => 0 := by
  unfold intern
  split
  · exact h
  · refine h.of_told (fun m => ?_)
      (fun m x hx => expression?_kept (.intern hp ‹_›) hx) (fun m k _ _ => ?_) fun m => ?_
    · simp only [negative, node?_push]
      by_cases hm : m.index = o.size
      · have : o.node? m = none := by simp [node?, hm, size]
        simp [hm, this, Node.fresh]
      · simp [hm]
    · rw [rules_push]
    · rw [rules_push]

theorem registered_addSubclass (hi : o.Interned) (ho : o.Attached) (h : o.Registered fun _ => 0)
    (hc : ∀ m, load (o.perform (.addSubclass a b)).parts (o.perform (.addSubclass a b)).told m < UInt32.size) :
    (o.perform (.addSubclass a b)).Registered fun _ => 0 := by
  rcases addSubclass_eq o a b with ⟨e, he⟩ | ⟨hab, he⟩
  · rwa [perform, he]
  · rw [perform, he] at hc ⊢
    have hchange : Change o (o.modifyRules a (·.addSuper b)) := .addSuper hab.2
    have hr : (o.modifyRules a (·.addSuper b)).Roomy := by
      refine ⟨interned_change hchange hi, attached_change hi hchange ho, ?_⟩
      rw [← (adjusted_addSuper hi ho hab.2).parts, ← (adjusted_addSuper hi ho hab.2).told]
      exact hc
    refine registered_register (fun _ => 0) hr (by simpa using hab.1) ?_
    refine h.of_told (by simp) (by simp) ?_ ?_
    · intro m k hk _
      exact rule_modifyRules_of_ne (RuleChain.edits_addSuper b) ho.proper hk
    · intro m
      rw [supers_addSuper ho.proper]
      by_cases hm : m = a
      · simp [hm, hab.1]
      · simp [hm]

theorem registered_removeSubclass (hi : o.Interned) (ho : o.Attached)
    (h : o.Registered fun _ => 0)
    (hc : ∀ m, load (o.perform (.removeSubclass a b)).parts (o.perform (.removeSubclass a b)).told m < UInt32.size) :
    (o.perform (.removeSubclass a b)).Registered fun _ => 0 := by
  rcases removeSubclass_eq o a b with ⟨e, he⟩ | ⟨hab, he⟩
  · rwa [perform, he]
  · have hk : ∀ m k, k ≠ .told → k ≠ .disjointness →
        ((o.modifyRules a (·.eraseSuper b)).rules m).rule k = (o.rules m).rule k := by
      intro m k hk _
      exact rule_modifyRules_of_ne (RuleChain.edits_eraseSuper b) ho.proper hk
    rw [perform, he] at hc ⊢
    by_cases hs : b ∈ (o.rules a).supers
    · rw [if_pos hs] at hc ⊢
      have hchange : Change o (o.modifyRules a (·.eraseSuper b)) := .eraseSuper
      have hr : (o.modifyRules a (·.eraseSuper b)).Roomy := by
        refine ⟨interned_change hchange hi, attached_change hi hchange ho, ?_⟩
        rw [← (adjusted_eraseSuper hi ho).parts, ← (adjusted_eraseSuper hi ho).told]
        exact hc
      refine registered_withdraw (fun _ => 0) hr (by simpa using hab.1) ?_
      refine h.of_told (by simp) (by simp) hk ?_
      intro m
      rw [supers_eraseSuper ho.proper]
      by_cases hm : m = a
      · have := List.length_pos_of_mem hs
        simp only [hm, hab.1, and_self, if_true, List.length_erase_of_mem hs]
        omega
      · simp [hm]
    · rw [if_neg hs]
      refine h.of_told (by simp) (by simp) hk ?_
      intro m
      rw [supers_eraseSuper ho.proper]
      split
      · rename_i hm
        rw [List.erase_of_not_mem (hm.1 ▸ hs)]
      · rfl

theorem registered_addDisjointness (ho : o.Attached) (h : o.Registered fun _ => 0)
    (members : List NodeId) : (o.perform (.addDisjointness members)).Registered fun _ => 0 := by
  rcases addDisjointness_eq o members with ⟨e, he⟩ | ⟨_, he⟩
  · rwa [perform, he]
  · have ht := tellsMembers_push (d := .ofIndex o.disjointness.size) ho members
    rw [perform, he]
    refine h.of_told ht.negative (fun m e hx => (ht.expression? m).trans hx)
      (fun m k _ hk => ht.rule m k hk) ?_
    intro m
    rw [ht.supers]
    rfl

/-- No count of registrations can overflow, at any moment, and there are numbers for all
disjointness axioms. -/
structure Fits (calls : List Call) : Prop where
  counts : ∀ earlier, earlier <:+ calls → ∀ m, (after earlier).capacity m < UInt32.size
  axioms : (liveDisjointness calls).length ≤ UInt32.size

theorem registered_of_load (hc : ∀ earlier, earlier <:+ calls → ∀ m,
    load (after earlier).parts (after earlier).told m < UInt32.size) :
    (after calls).Registered fun _ => 0 := by
  induction calls with
  | nil => exact registered_empty
  | cons c earlier ih =>
    have h := ih fun l hl => hc l (hl.trans (List.suffix_cons c earlier))
    have hc := hc _ List.suffix_rfl
    have hi := interned_after earlier
    have ho := attached_after earlier
    have hinterns := perform_interns (after earlier) (c := c)
    simp only [after] at hc ⊢
    cases c with
    | addClass | addIntersection | addExistential | addProperty =>
      rcases hinterns rfl with he | ⟨e, hp, he⟩ | ⟨name, _, he⟩
      · rwa [he]
      · rw [he]
        exact registered_intern hp h
      · rw [he]
        exact h.of_told (fun _ => rfl) (fun _ _ hx => hx) (fun _ _ _ _ => rfl) fun _ => rfl
    | addSubProperty p q =>
      rcases addSubProperty_eq (after earlier) p q with ⟨e, he⟩ | ⟨_, _, he⟩
      · rwa [perform, he]
      · rw [perform, he]
        exact h.of_told (fun _ => rfl) (fun _ _ hx => hx) (fun _ _ _ _ => rfl) fun _ => rfl
    | addSubclass a b => exact registered_addSubclass hi ho h hc
    | removeSubclass a b => exact registered_removeSubclass hi ho h hc
    | addDisjointness members => exact registered_addDisjointness ho h members

theorem registered_after (hc : ∀ earlier, earlier <:+ calls → ∀ m,
    (after earlier).capacity m < UInt32.size) : (after calls).Registered fun _ => 0 :=
  registered_of_load fun earlier he m => Nat.lt_of_le_of_lt load_le_capacity (hc earlier he m)

/-! ### Room for the counts -/

theorem length_parts (e : Expression) : e.parts.length ≤ 2 := by
  cases e <;> simp [Expression.parts]

theorem capacity_intern (e : Expression) : (o.intern e).2.capacity m ≤ o.capacity m + 2 := by
  unfold intern
  split
  · exact Nat.le_add_right _ _
  · have hterm : ∀ i ∈ Finset.range UInt32.size,
        (parts { o with nodes := o.nodes.push (.fresh e) } (.ofIndex i)).count m ≤
          (o.parts (.ofIndex i)).count m + if i = o.size then 2 else 0 := by
      intro i hi
      have hcount := List.count_le_length (l := e.parts) (a := m)
      have hparts := length_parts e
      have hindex := NodeId.index_ofIndex (Finset.mem_range.mp hi)
      simp only [parts, expression?, node?_push, hindex]
      split
      · simp only [Option.map_some, Option.getD_some, Node.fresh]
        omega
      · simp
    have hsum : ∑ i ∈ Finset.range UInt32.size,
        (parts { o with nodes := o.nodes.push (.fresh e) } (.ofIndex i)).count m ≤
        ∑ i ∈ Finset.range UInt32.size, (o.parts (.ofIndex i)).count m + 2 := by
      refine (Finset.sum_le_sum hterm).trans ?_
      rw [Finset.sum_add_distrib, Finset.sum_ite_eq']
      split <;> omega
    simp only [capacity, rules_push]
    omega

theorem capacity_of_expressions (he : ∀ n, o'.expression? n = o.expression? n)
    (hs : (o'.rules m).supers.length ≤ (o.rules m).supers.length + 2) :
    o'.capacity m ≤ o.capacity m + 2 := by
  simp only [capacity, parts, he]
  omega

theorem capacity_perform (hi : o.Interned) (ho : o.Attached) (c : Call) :
    (o.perform c).capacity m ≤ o.capacity m + 2 := by
  have hinterns := perform_interns o (c := c)
  cases c with
  | addClass | addIntersection | addExistential | addProperty =>
    rcases hinterns rfl with he | ⟨e, _, he⟩ | ⟨name, _, he⟩
    · rw [he]
      exact Nat.le_add_right _ _
    · rw [he]
      exact capacity_intern e
    · rw [he]
      exact capacity_of_expressions (fun _ => rfl) (Nat.le_add_right _ _)
  | addSubProperty p q =>
    rcases addSubProperty_eq o p q with ⟨e, he⟩ | ⟨_, _, he⟩
    · rw [perform, he]
      exact Nat.le_add_right _ _
    · rw [perform, he]
      exact capacity_of_expressions (fun _ => rfl) (Nat.le_add_right _ _)
  | addSubclass a b =>
    rcases addSubclass_eq o a b with ⟨e, he⟩ | ⟨hab, he⟩
    · rw [perform, he]
      exact Nat.le_add_right _ _
    · have hadj := adjusted_addSuper (a := a) hi ho hab.2
      rw [perform, he]
      refine capacity_of_expressions (fun n => (hadj.expression? n).trans (by simp)) ?_
      rw [supers_registered hi ho hab]
      split <;> simp
  | removeSubclass a b =>
    rcases removeSubclass_eq o a b with ⟨e, he⟩ | ⟨hab, he⟩
    · rw [perform, he]
      exact Nat.le_add_right _ _
    · have hadj := adjusted_eraseSuper (a := a) (b := b) hi ho
      have herase := List.length_erase_le (a := b) (l := (o.rules m).supers)
      rw [perform, he]
      split
      · refine capacity_of_expressions (fun n => (hadj.expression? n).trans (by simp)) ?_
        rw [supers_withdrawn hi ho hab]
        split <;> omega
      · refine capacity_of_expressions (by simp) ?_
        rw [supers_eraseSuper ho.proper]
        split <;> omega
  | addDisjointness members =>
    rcases addDisjointness_eq o members with ⟨e, he⟩ | ⟨_, he⟩
    · rw [perform, he]
      exact Nat.le_add_right _ _
    · have ht := tellsMembers_push (d := .ofIndex o.disjointness.size) ho members
      rw [perform, he]
      refine capacity_of_expressions ht.expression? ?_
      rw [ht.supers]
      exact Nat.le_add_right _ _

theorem capacity_after (calls : List Call) (m : NodeId) :
    (after calls).capacity m ≤ 2 * calls.length := by
  induction calls with
  | nil =>
    have hs : (empty.rules m).supers = [] := by
      rw [RuleChain.supers, rule_empty (by decide)]
      rfl
    have hp : ∀ n, empty.parts n = [] := by
      intro n
      cases he : empty.expression? n with
      | none => simp [parts, he]
      | some e =>
        obtain ⟨x, hx, rfl⟩ := Option.map_eq_some_iff.mp he
        have : ∀ x ∈ empty.nodes.toList, x.expression.parts = [] := by decide
        simp [parts, he, this x (Array.mem_toList_iff.mpr (Array.mem_of_getElem? hx))]
    simp [after, capacity, hs, hp]
  | cons c earlier ih =>
    have := capacity_perform (m := m) (interned_after earlier) (attached_after earlier) c
    simp only [after, List.length_cons]
    omega

theorem length_liveDisjointness (calls : List Call) :
    (liveDisjointness calls).length ≤ calls.length := by
  induction calls with
  | nil => exact Nat.le_refl _
  | cons c earlier ih =>
    cases c with
    | addDisjointness members =>
      simp only [liveDisjointness, List.length_cons]
      split
      · exact Nat.succ_le_succ ih
      · exact Nat.le_succ_of_le ih
    | _ => exact Nat.le_succ_of_le ih

/-- Fewer than 2³¹ calls always fit. -/
theorem fits_of_length (h : 2 * calls.length < UInt32.size) : Fits calls := by
  refine ⟨?_, ?_⟩
  · intro earlier hl m
    have := hl.length_le
    have := capacity_after earlier m
    omega
  · have := length_liveDisjointness calls
    omega

end Ontology

end Subsumption
