import Mathlib.Algebra.BigOperators.Group.Multiset.Basic
import Mathlib.Algebra.GroupWithZero.Nat
import Subsumption.Proofs.Crew.Acts

/-! Claims on a queue. Workers claim elements by raising a counter, and take them later: there are
always enough elements in front that are ready to be taken. -/
namespace Subsumption

variable {ps rest : Multiset PC} {pc pc' q : PC}

/-- The sum of a number over all workers. -/
def total (f : PC → Nat) (ps : Multiset PC) : Nat := (ps.map f).sum

@[simp] theorem total_cons (f : PC → Nat) (pc : PC) (ps : Multiset PC) :
    total f (pc ::ₘ ps) = f pc + total f ps := by
  simp [total]

theorem le_total {f : PC → Nat} (h : q ∈ ps) : f q ≤ total f ps := by
  obtain ⟨rest, rfl⟩ := Multiset.exists_cons_of_mem h
  rw [total_cons]
  exact Nat.le_add_right _ _

theorem total_le {f g : PC → Nat} (h : ∀ q ∈ ps, f q ≤ g q) : total f ps ≤ total g ps := by
  induction ps using Multiset.induction with
  | empty => exact Nat.le_refl _
  | cons pc rest ih =>
    rw [total_cons, total_cons]
    exact Nat.add_le_add (h pc (Multiset.mem_cons_self _ _))
      (ih fun q hq => h q (Multiset.mem_cons_of_mem hq))

theorem total_eq_zero {f : PC → Nat} (h : ∀ q ∈ ps, f q = 0) : total f ps = 0 := by
  induction ps using Multiset.induction with
  | empty => rfl
  | cons pc rest ih =>
    rw [total_cons, h pc (Multiset.mem_cons_self _ _),
      ih fun q hq => h q (Multiset.mem_cons_of_mem hq)]

/-! ### Ready elements -/

section
variable {β : Type} {claims : PC → Nat} {raising : PC → Option Nat} {P P' : β → Prop} {x : β}
  {queue queue' : List β} {processed processed' finished finished' j : Nat}

/-- The first `j` elements of the queue are ready. They suffice for all that is claimed, and for all
that is or is going to be declared processed and is not claimed yet. -/
structure Ranking (claims : PC → Nat) (raising : PC → Option Nat) (P : β → Prop) (queue : List β)
    (processed finished j : Nat) (ps : Multiset PC) : Prop where
  first : ∀ x ∈ queue.take j, P x
  bound : j ≤ queue.length
  enough : processed + total claims ps ≤ finished + j
  raising : ∀ q ∈ ps, ∀ v ∈ raising q, v + total claims ps ≤ finished + j

/-- What a step does to the queue and to the claims on it. -/
inductive Queueing (claims : PC → Nat) (raising : PC → Option Nat) (queue queue' : List β)
    (processed processed' finished finished' : Nat) (pc pc' : PC) : Prop
  | taken {y} (hq : queue = y :: queue') (hc : claims pc = claims pc' + 1)
    (hr : ∀ v ∈ raising pc', v ∈ raising pc) (hp : processed' = processed)
    (hf : finished' = finished)
  | other (hq : queue <+: queue') (hc : finished + claims pc' = finished' + claims pc)
    (hr : ∀ v ∈ raising pc', v ∈ raising pc)
    (hp : processed' = processed ∨ processed' ∈ raising pc)

theorem Ranking.mono (h : Ranking claims raising P queue processed finished j ps)
    (hP : ∀ x ∈ queue, P x → P' x) : Ranking claims raising P' queue processed finished j ps :=
  ⟨fun x hx => hP x (List.mem_of_mem_take hx) (h.first x hx), h.bound, h.enough, h.raising⟩

/-- Whoever has a claim takes an element that is ready. -/
theorem Ranking.ready (h : Ranking claims raising P (x :: queue) processed finished j ps)
    (hle : finished ≤ processed) (hq : q ∈ ps) (hc : claims q ≠ 0) : P x := by
  have henough := h.enough
  have hclaims : claims q ≤ total claims ps := le_total hq
  obtain ⟨i, rfl⟩ : ∃ i, j = i + 1 := ⟨j - 1, by omega⟩
  exact h.first x (by simp)

theorem Ranking.step (h : Ranking claims raising P queue processed finished j (pc ::ₘ rest))
    (hle : finished ≤ processed)
    (hq : Queueing claims raising queue queue' processed processed' finished finished' pc pc') :
    ∃ j, Ranking claims raising P queue' processed' finished' j (pc' ::ₘ rest) := by
  have henough := h.enough
  have hbound := h.bound
  have hfirst := h.first
  have hraising : ∀ q ∈ pc ::ₘ rest, ∀ v ∈ raising q,
      v + (claims pc + total claims rest) ≤ finished + j := by
    intro q hq v hv
    rw [← total_cons]
    exact h.raising q hq v hv
  rw [total_cons] at henough
  have hsame : (∀ v ∈ raising pc', v ∈ raising pc) → ∀ q ∈ pc' ::ₘ rest, ∀ v ∈ raising q,
      v + (claims pc + total claims rest) ≤ finished + j := by
    intro hr q hq v hv
    rcases Multiset.mem_cons.mp hq with rfl | hq
    · exact hraising pc (Multiset.mem_cons_self _ _) v (hr v hv)
    · exact hraising q (Multiset.mem_cons_of_mem hq) v hv
  cases hq with
  | @taken x hq hc hr hp hf =>
    subst hq hp hf
    -- There is a claim, so at least one element is ready.
    obtain ⟨i, rfl⟩ : ∃ i, j = i + 1 := ⟨j - 1, by omega⟩
    rw [List.take_succ_cons] at hfirst
    rw [List.length_cons] at hbound
    refine ⟨i, fun y hy => hfirst y (List.mem_cons_of_mem _ hy), by omega, ?_, ?_⟩
    · rw [total_cons]
      omega
    · intro q hq v hv
      have := hsame hr q hq v hv
      rw [total_cons]
      omega
  | other hq hc hr hp =>
    obtain ⟨more, rfl⟩ := hq
    refine ⟨j, ?_, ?_, ?_, ?_⟩
    · rwa [List.take_append_of_le_length hbound]
    · rw [List.length_append]
      omega
    · rw [total_cons]
      rcases hp with hp | hp
      · omega
      · have := hraising pc (Multiset.mem_cons_self _ _) _ hp
        omega
    · intro q hq v hv
      have := hsame hr q hq v hv
      rw [total_cons]
      omega

/-- A worker that has no claim makes no difference. -/
theorem Ranking.join (h : Ranking claims raising P queue processed finished j ps)
    (hc : claims pc = 0) (hr : raising pc = none) :
    Ranking claims raising P queue processed finished j (pc ::ₘ ps) := by
  refine ⟨h.first, h.bound, by simpa [hc] using h.enough, ?_⟩
  intro q hq v hv
  rw [total_cons, hc, Nat.zero_add]
  rcases Multiset.mem_cons.mp hq with rfl | hq
  · rw [hr] at hv
    cases hv
  · exact h.raising q hq v hv

/-- All elements are ready. -/
theorem Ranking.all (hP : ∀ x ∈ queue, P x)
    (hp : processed + total claims ps ≤ finished + queue.length)
    (hr : ∀ q ∈ ps, ∀ v ∈ raising q, v + total claims ps ≤ finished + queue.length) :
    Ranking claims raising P queue processed finished queue.length ps :=
  ⟨fun x hx => hP x (List.mem_of_mem_take hx), Nat.le_refl _, hp, hr⟩

end

end Subsumption
