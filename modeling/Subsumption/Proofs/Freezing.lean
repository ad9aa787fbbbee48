import Subsumption.Proofs.Sealing
import Subsumption.Proofs.Support

/-! What has come to rest stays as it is: whatever is submitted later adds to it nothing but links
from roots that had no context then. -/
namespace Subsumption

namespace Context

variable {c c' : Context} {k : Conclusion} {P : NodeId → Prop}

theorem LinksAdded.has (h : c.LinksAdded c') (hk : c.Has k) : c'.Has k := by
  obtain ⟨_, hi, links, hf⟩ := h
  cases k with
  | contradiction => exact hi.trans hk
  | backwardLink s r =>
    simp only [Has, hf] at hk ⊢
    exact List.mem_append_left _ hk
  | _ => simpa only [Has, hf] using hk

/-- To be marked, or to get conclusions, adds nothing to what is known. -/
theorem linksFrom_receive (c : Context) (sat a : Bool) (ks : List Conclusion) :
    LinksFrom P c (({ c with saturated := sat, active := a } : Context).receive ks) :=
  ⟨rfl, rfl, [], by simp [receive]⟩

end Context

namespace Board

variable {o : Ontology} {b b' b₀ : Board} {c c' : Context} {k : Conclusion} {n s : NodeId}
  {r : PropertyId} {order : List PropertyId}

/-- Whether there is a context for the root. -/
def Hosts (b : Board) (n : NodeId) : Prop := b n ≠ none

/-- The contexts of `b₀`, where nothing was pending, have got nothing since but links from roots
that had no context then. -/
structure Frozen (b₀ b : Board) : Prop where
  kept : ∀ n c₀, b₀ n = some c₀ → ∃ c, b n = some c ∧ c₀.LinksFrom (¬ b₀.Hosts ·) c
  links : ∀ n s r, b.Has n (.backwardLink s r) → b₀.Has n (.backwardLink s r) ∨ ¬ b₀.Hosts s
  pending : ∀ n c k, b n = some c → k ∈ c.pending → Admits b₀.Hosts n k

theorem frozen_refl (hq : ∀ n c, b n = some c → c.pending = []) : Frozen b b := by
  refine ⟨fun n c h => ⟨c, h, .refl c⟩, fun n s r h => Or.inl h, ?_⟩
  intro n c k hc hk
  rw [hq n c hc] at hk
  cases hk

theorem Frozen.hosts (hf : Frozen b₀ b) (hn : b₀.Hosts n) : b.Hosts n := by
  obtain ⟨c₀, hc₀⟩ := Option.ne_none_iff_exists'.mp hn
  obtain ⟨c, hc, _⟩ := hf.kept n c₀ hc₀
  rw [Hosts, hc]
  exact Option.some_ne_none c

/-- No link is recorded from a root that has come to rest where there was no context then. -/
theorem Frozen.sources (hf : Frozen b₀ b) (hn : ¬ b₀.Hosts n) (hl : b.Has n (.backwardLink s r)) :
    ¬ b₀.Hosts s := by
  refine (hf.links n s r hl).resolve_left ?_
  rintro ⟨c, hc, _⟩
  exact hn (by rw [Hosts, hc]; exact Option.some_ne_none c)

/-- What is sent is admitted. -/
theorem Frozen.mail (hf : Frozen b₀ b) {rest : List Conclusion} (hc : b c.root = some c)
    (hp : c.pending = k :: rest) :
    ∀ l ∈ (({ c with pending := rest } : Context).derive o order k).2.flatMap (·.mail c.root n),
      Admits b₀.Hosts n l := by
  have hk : Admits b₀.Hosts c.root k := hf.pending c.root c k hc (by simp [hp])
  have hadmit : ∀ e ∈ (({ c with pending := rest } : Context).derive o order k).2,
      e.Admitted b₀.Hosts c.root :=
    Context.admitted_derive hk fun hn s r hl => hf.sources hn ⟨c, hc, Context.has_rest.mp hl⟩
  intro l hl
  rcases Deduction.mem_mail.mp hl with ⟨rfl, he⟩ | ⟨ks, he, hm⟩
  · exact hadmit _ he
  · exact hadmit _ he l hm

/-- How the context of a root may go on while the rest of the board is frozen. -/
structure Thaws (b₀ : Board) (n : NodeId) (c c' : Context) : Prop where
  kept : b₀.Hosts n → c.LinksFrom (¬ b₀.Hosts ·) c'
  links : ∀ s r, c'.Has (.backwardLink s r) → c.Has (.backwardLink s r) ∨ ¬ b₀.Hosts s
  pending : ∀ k ∈ c'.pending, k ∈ c.pending ∨ Admits b₀.Hosts n k

theorem Frozen.of_thaws (hf : Frozen b₀ b)
    (hold : ∀ n c, b n = some c → ∃ c', b' n = some c' ∧ Thaws b₀ n c c')
    (hnew : ∀ n c', b n = none → b' n = some c' → ∃ ks, c' = (Context.opened o n).receive ks ∧
      ∀ k ∈ ks, Admits b₀.Hosts n k) : Frozen b₀ b' := by
  refine ⟨?_, ?_, ?_⟩
  · intro n c₀ hc₀
    obtain ⟨c, hc, hl⟩ := hf.kept n c₀ hc₀
    obtain ⟨c', hc', ht⟩ := hold n c hc
    exact ⟨c', hc', hl.trans (ht.kept (by rw [Hosts, hc₀]; exact Option.some_ne_none c₀))⟩
  · rintro n s r ⟨c', hc', hl⟩
    cases hc : b n with
    | none =>
      obtain ⟨ks, rfl, _⟩ := hnew n c' hc hc'
      exact absurd hl Context.has_opened
    | some c =>
      obtain ⟨c'', hc'', ht⟩ := hold n c hc
      cases hc'.symm.trans hc''
      exact (ht.links s r hl).elim (fun h => hf.links n s r ⟨c, hc, h⟩) Or.inr
  · intro n c' k hc' hk
    cases hc : b n with
    | none =>
      obtain ⟨ks, rfl, hks⟩ := hnew n c' hc hc'
      have hn : ¬ b₀.Hosts n := fun h => hf.hosts h hc
      rcases List.mem_append.mp hk with hk | hk
      · refine Admits.of_not hn ?_
        rintro s r rfl
        cases Context.infers_opened hk
      · exact hks k hk
    | some c =>
      obtain ⟨c'', hc'', ht⟩ := hold n c hc
      cases hc'.symm.trans hc''
      exact (ht.pending k hk).elim (hf.pending n c k hc) id

theorem thaws_receive (sat a : Bool) {ks : List Conclusion}
    (hks : ∀ k ∈ ks, Admits b₀.Hosts n k) :
    Thaws b₀ n c (({ c with saturated := sat, active := a } : Context).receive ks) :=
  ⟨fun _ => c.linksFrom_receive sat a ks, fun _ _ h => Or.inl h,
    fun k hk => (List.mem_append.mp hk).imp_right (hks k)⟩

theorem thaws_marks (sat a : Bool) :
    Thaws b₀ n c { c with saturated := sat, active := a } := by
  simpa using thaws_receive (c := c) sat a fun _ (h : _ ∈ []) => by cases h

theorem thaws_derive {rest ks : List Conclusion} (hp : c.pending = k :: rest)
    (hk : Admits b₀.Hosts n k) (hks : ∀ l ∈ ks, Admits b₀.Hosts n l) :
    Thaws b₀ n c ((({ c with pending := rest } : Context).derive o order k).1.receive ks) := by
  refine ⟨?_, ?_, ?_⟩
  · intro hn
    obtain ⟨s, r, rfl⟩ := hk.link hn
    have hrest : c.LinksFrom (¬ b₀.Hosts ·) { c with pending := rest } := ⟨rfl, rfl, [], by simp⟩
    exact (hrest.trans (Context.linksFrom_derive _ o r hk)).trans
      (Context.linksFrom_receive _ _ _ ks)
  · intro s r hl
    rcases Context.has_derive.mp (Context.has_receive.mp hl) with hl | ⟨_, he⟩
    · exact Or.inl (Context.has_rest.mp hl)
    · cases k <;> cases he
      exact Or.inr hk
  · intro l hl
    rcases List.mem_append.mp hl with hl | hl
    · rw [Context.pending_derive] at hl
      exact Or.inl (hp ▸ List.mem_cons_of_mem _ hl)
    · exact Or.inr (hks l hl)

/-- A context may be opened for any root. -/
theorem frozen_opens {root : NodeId}
    (h : ∀ n, b' n = (b n).or (if root = n then some (.opened o n) else none))
    (hf : Frozen b₀ b) : Frozen b₀ b' := by
  refine hf.of_thaws (o := o) ?_ ?_
  · intro n c hc
    exact ⟨c, by rw [h, hc, Option.some_or], thaws_marks c.saturated c.active⟩
  · intro n c' hc hc'
    rw [h, hc, Option.none_or] at hc'
    split at hc' <;> cases hc'
    exact ⟨[], by simp, by simp⟩

theorem frozen_move (h : Move o b b') (hf : Frozen b₀ b) : Frozen b₀ b' := by
  cases h with
  | opens root _ h => exact frozen_opens h hf
  | marks h =>
    refine hf.of_thaws (o := o) ?_ ?_
    · intro n c hc
      obtain ⟨s, a, hm⟩ := h n
      exact ⟨_, by rw [hm, hc]; rfl, thaws_marks s a⟩
    · intro n c' hc hc'
      obtain ⟨s, a, hm⟩ := h n
      rw [hm, hc] at hc'
      cases hc'
  | @processes a k rest _ ha hp h =>
    have hk : Admits b₀.Hosts a.root k := hf.pending a.root a k ha (by simp [hp])
    refine hf.of_thaws (o := o) ?_ ?_
    · intro n c hc
      by_cases hn : n = a.root
      · subst hn
        cases hc.symm.trans ha
        exact ⟨_, by rw [h, if_pos rfl]; rfl, thaws_derive hp hk (hf.mail ha hp)⟩
      · exact ⟨_, by rw [h, if_neg hn, hc]; rfl,
          thaws_receive c.saturated c.active (hf.mail ha hp)⟩
    · intro n c' hc hc'
      have hn : n ≠ a.root := by
        rintro rfl
        cases hc.symm.trans ha
      rw [h, if_neg hn, hc, Option.none_or] at hc'
      obtain ⟨c, hc, rfl⟩ := Option.map_eq_some_iff.mp hc'
      split at hc <;> cases hc
      exact ⟨_, rfl, hf.mail ha hp⟩

end Board

namespace Workspace

variable {w v : Workspace} {roots : List NodeId}

/-- Runs leave what has come to rest as it is. -/
theorem frozen_runs (hw : w.Coherent) (hq : w.Quiet) (h : Runs w roots v) :
    Board.Frozen w.contextOf? v.contextOf? :=
  board_runs hw (fun _ _ => Board.frozen_move) h (Board.frozen_refl hq)

end Workspace

end Subsumption
