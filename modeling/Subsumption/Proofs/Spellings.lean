import Subsumption.Serial
import Mathlib.Data.List.Forall2

/-! Written forms. Each type of values has its spellings, said here without reading: the fields of a
record in any order and among others, or in a list; a case by its name, with or without null. A form
is read as a value just if it is a spelling of the value, and the form in which a value is written
is one. -/
namespace Subsumption

theorem mapM_eq_some_iff {α β : Type} {read : α → Option β} {xs : List α} {ys : List β} :
    xs.mapM read = some ys ↔ List.Forall₂ (fun x y => read x = some y) xs ys := by
  induction xs generalizing ys with
  | nil => simp [eq_comm]
  | cons x xs ih =>
    simp only [List.mapM_cons, Option.bind_eq_bind, Option.bind_eq_some_iff, Option.pure_def,
      Option.some.injEq]
    constructor
    · rintro ⟨y, hy, ys, hys, rfl⟩
      exact .cons hy (ih.mp hys)
    · rintro (_ | ⟨hy, hys⟩)
      exact ⟨_, hy, _, ih.mpr hys, rfl⟩

namespace Form

variable {f content : Form} {name : String} {names : List String} {vs : List Form}

/-! ### Records and cases -/

/-- The fields of a record: those of an object, which may have others too, or the items of a list
that is as long as it has to be. -/
inductive Fields (names : List String) : Form → List Form → Prop
  | object {fields : List (String × Form)} {vs : List Form}
    (h : List.Forall₂ (fun name v => fields.lookup name = some v) names vs) :
    Fields names (.object fields) vs
  | list {vs : List Form} (h : vs.length = names.length) : Fields names (.list vs) vs

theorem fields?_eq_some_iff : f.fields? names = some vs ↔ Fields names f vs := by
  constructor
  · intro h
    cases f with
    | object fields => exact .object (mapM_eq_some_iff.mp h)
    | list items =>
      simp only [fields?, Option.ite_none_right_eq_some, Option.some.injEq] at h
      obtain ⟨hl, rfl⟩ := h
      exact .list hl
    | _ => cases h
  · rintro (h | h)
    · exact mapM_eq_some_iff.mpr h
    · exact if_pos h

/-- The name of a case stands alone or is the only key of an object. -/
inductive Case : Form → String → Option Form → Prop
  | plain {name : String} : Case (.text name) name none
  | content {name : String} {v : Form} : Case (.object [(name, v)]) name (some v)

theorem case?_eq_some_iff {c : Option Form} : f.case? = some (name, c) ↔ Case f name c := by
  constructor
  · intro h
    unfold case? at h
    split at h
    · cases h
      exact .plain
    · cases h
      exact .content
    · cases h
  · rintro (_ | _) <;> rfl

/-- A case without content may be given null. -/
inductive Plain : Form → String → Prop
  | name {name : String} : Plain (.text name) name
  | null {name : String} : Plain (.object [(name, .null)]) name

theorem plainCase?_eq_some_iff : f.plainCase? = some name ↔ Plain f name := by
  constructor
  · intro h
    unfold plainCase? at h
    split at h
    · rename_i hc
      cases case?_eq_some_iff.mp hc
      cases h
      exact .name
    · rename_i hc
      cases case?_eq_some_iff.mp hc
      cases h
      exact .null
    · cases h
  · rintro (_ | _) <;> rfl

/-- A case with named fields, which are always those of an object. -/
inductive Within (name : String) (names : List String) : Form → List Form → Prop
  | intro {fields : List (String × Form)} {vs : List Form} (h : Fields names (.object fields) vs) :
    Within name names (.object [(name, .object fields)]) vs

/-- The kind of a record stands among its fields, or in front of them in a list. -/
inductive Tagged (kind : String) : Form → Form → Prop
  | object {fields : List (String × Form)} (h : fields.lookup "kind" = some (.text kind)) :
    Tagged kind (.object fields) (.object fields)
  | list {rest : List Form} : Tagged kind (.list (.text kind :: rest)) (.list rest)

theorem kind?_eq_some_iff {kind : String} :
    Conclusion.kind? f = some (kind, content) ↔ Tagged kind f content := by
  constructor
  · intro h
    unfold Conclusion.kind? at h
    split at h
    · split at h
      · cases h
        exact .object ‹_›
      · cases h
    · cases h
      exact .list
    · cases h
  · rintro (h | _)
    · simp only [Conclusion.kind?, h]
    · rfl

end Form

namespace Serial

variable {α β γ δ : Type} {f : Form}

/-! ### Reading records -/

theorem readOne?_eq_some_iff [Serial α] {field : String} {make : α → β} {y : β} :
    readOne? field f make = some y ↔
      ∃ v, Form.Fields [field] f [v] ∧ ∃ x, read? v = some x ∧ make x = y := by
  constructor
  · intro h
    unfold readOne? at h
    split at h
    · exact ⟨_, Form.fields?_eq_some_iff.mp ‹_›, Option.map_eq_some_iff.mp h⟩
    · cases h
  · rintro ⟨v, hf, x, hx, rfl⟩
    simp only [readOne?, Form.fields?_eq_some_iff.mpr hf, hx, Option.map_some]

theorem readTwo?_eq_some_iff {first second : String} {a : Form → Option α} {b : Form → Option β}
    {make : α → β → γ} {z : γ} :
    readTwo? first second a b f make = some z ↔
      ∃ v w, Form.Fields [first, second] f [v, w] ∧
        ∃ x y, a v = some x ∧ b w = some y ∧ make x y = z := by
  constructor
  · intro h
    unfold readTwo? at h
    split at h
    · simp only [Option.bind_eq_bind, Option.bind_eq_some_iff, Option.some.injEq] at h
      obtain ⟨x, hx, y, hy, hz⟩ := h
      exact ⟨_, _, Form.fields?_eq_some_iff.mp ‹_›, x, y, hx, hy, hz⟩
    · cases h
  · rintro ⟨v, w, hf, x, y, hx, hy, rfl⟩
    simp only [readTwo?, Form.fields?_eq_some_iff.mpr hf, hx, hy, Option.bind_eq_bind,
      Option.bind_some]

theorem readThree?_eq_some_iff {first second third : String} {a : Form → Option α}
    {b : Form → Option β} {c : Form → Option γ} {make : α → β → γ → δ} {t : δ} :
    readThree? first second third a b c f make = some t ↔
      ∃ u v w, Form.Fields [first, second, third] f [u, v, w] ∧
        ∃ x y z, a u = some x ∧ b v = some y ∧ c w = some z ∧ make x y z = t := by
  constructor
  · intro h
    unfold readThree? at h
    split at h
    · simp only [Option.bind_eq_bind, Option.bind_eq_some_iff, Option.some.injEq] at h
      obtain ⟨x, hx, y, hy, z, hz, ht⟩ := h
      exact ⟨_, _, _, Form.fields?_eq_some_iff.mp ‹_›, x, y, z, hx, hy, hz, ht⟩
    · cases h
  · rintro ⟨u, v, w, hf, x, y, z, hx, hy, hz, rfl⟩
    simp only [readThree?, Form.fields?_eq_some_iff.mpr hf, hx, hy, hz, Option.bind_eq_bind,
      Option.bind_some]

end Serial

/-! ### Spellings -/

open Serial

/-- Values with spellings: those forms that are read as the value. -/
class Spelled (α : Type) [Serial α] where
  Spells : Form → α → Prop
  read?_iff : ∀ {f : Form} {x : α}, read? f = some x ↔ Spells f x
  spells_form : ∀ x : α, Spells (form x) x

open Spelled

instance : Spelled UInt32 where
  Spells f w := f = .integer w.toNat
  read?_iff {f w} := by
    constructor
    · intro h
      simp only [read?, Form.word?] at h
      split at h
      · split at h
        · rename_i n hn
          cases h
          rw [UInt32.toNat_ofNat_of_lt' hn.2, Int.toNat_of_nonneg hn.1]
        · cases h
      · cases h
    · rintro rfl
      exact Form.word?_ofWord w
  spells_form _ := rfl

instance : Spelled String where
  Spells f s := f = .text s
  read?_iff {f s} := by
    cases f <;> simp [read?, Form.text?]
  spells_form _ := rfl

instance {α : Type} [Serial α] [Spelled α] : Spelled (List α) where
  Spells f xs := ∃ items, f = .list items ∧ List.Forall₂ Spells items xs
  read?_iff {f xs} := by
    cases f <;> simp [read?, readList?, Form.items?, mapM_eq_some_iff, read?_iff]
  spells_form xs := by
    refine ⟨_, rfl, ?_⟩
    rw [List.forall₂_map_left_iff, List.forall₂_same]
    exact fun x _ => spells_form x

/-- A value that stands for another one is spelled like it. -/
theorem read?_map_iff {α β : Type} [Serial α] [Spelled α] {make : α → β} {part : β → α}
    (h : ∀ x y, make x = y ↔ part y = x) {f : Form} {y : β} :
    (read? f).map make = some y ↔ Spells f (part y) := by
  rw [← read?_iff, Option.map_eq_some_iff]
  simp only [h, exists_eq_right']

instance : Spelled NodeId where
  Spells f n := Spells f n.value
  read?_iff := read?_map_iff fun _ _ => ⟨fun h => h ▸ rfl, fun h => h ▸ rfl⟩
  spells_form n := spells_form n.value

instance : Spelled PropertyId where
  Spells f p := Spells f p.value
  read?_iff := read?_map_iff fun _ _ => ⟨fun h => h ▸ rfl, fun h => h ▸ rfl⟩
  spells_form p := spells_form p.value

instance : Spelled DisjointnessId where
  Spells f d := Spells f d.value
  read?_iff := read?_map_iff fun _ _ => ⟨fun h => h ▸ rfl, fun h => h ▸ rfl⟩
  spells_form d := spells_form d.value

/-! ### Names -/

theorem plain_bind_iff {α : Type} {name : α → String} {ofName? : String → Option α}
    (h : ∀ s x, ofName? s = some x ↔ name x = s) {f : Form} {x : α} :
    f.plainCase?.bind ofName? = some x ↔ Form.Plain f (name x) := by
  simp only [Option.bind_eq_some_iff, Form.plainCase?_eq_some_iff, h]
  exact ⟨fun ⟨_, hf, hs⟩ => hs ▸ hf, fun hf => ⟨_, hf, rfl⟩⟩

theorem Origin.ofName?_eq_some_iff {s : String} {o : Origin} : ofName? s = some o ↔ o.name = s := by
  constructor
  · intro h
    unfold ofName? at h
    split at h <;> cases h <;> rfl
  · rintro rfl
    cases o <;> rfl

theorem ConclusionKind.ofName?_eq_some_iff {s : String} {k : ConclusionKind} :
    ofName? s = some k ↔ k.name = s := by
  constructor
  · intro h
    simpa using List.find?_some h
  · rintro rfl
    cases k <;> rfl

theorem RuleKind.ofName?_eq_some_iff {s : String} {k : RuleKind} :
    ofName? s = some k ↔ k.name = s := by
  constructor
  · intro h
    simpa using List.find?_some h
  · rintro rfl
    cases k <;> rfl

instance : Spelled Origin where
  Spells f o := Form.Plain f o.name
  read?_iff := plain_bind_iff fun _ _ => Origin.ofName?_eq_some_iff
  spells_form _ := .name

instance : Spelled ConclusionKind where
  Spells f k := Form.Plain f k.name
  read?_iff := plain_bind_iff fun _ _ => ConclusionKind.ofName?_eq_some_iff
  spells_form _ := .name

instance : Spelled RuleKind where
  Spells f k := Form.Plain f k.name
  read?_iff := plain_bind_iff fun _ _ => RuleKind.ofName?_eq_some_iff
  spells_form _ := .name

/-! ### Records -/

instance : Spelled Partner where
  Spells f e := ∃ v w, Form.Fields ["partner", "conjunction"] f [v, w] ∧
    Spells v e.partner ∧ Spells w e.conjunction
  read?_iff {f e} := by
    obtain ⟨partner, conjunction⟩ := e
    refine readTwo?_eq_some_iff.trans ?_
    simp [read?_iff]
  spells_form e := ⟨_, _, .object (.cons rfl (.cons rfl .nil)), spells_form _, spells_form _⟩

/-- The only field of a case is read where it is spelled, -/
theorem within_of_readOne? {α β : Type} [Serial α] [Spelled α] {field : String} {make : α → β}
    {y : β} {fields : List (String × Form)} (h : readOne? field (.object fields) make = some y)
    (name : String) :
    ∃ v x, Form.Within name [field] (.object [(name, .object fields)]) [v] ∧ Spells v x ∧
      make x = y := by
  obtain ⟨v, hf, x, hx, hy⟩ := readOne?_eq_some_iff.mp h
  exact ⟨v, x, ⟨hf⟩, read?_iff.mp hx, hy⟩

/-- and so are two fields. -/
theorem within_of_readTwo? {α β γ : Type} [Serial α] [Spelled α] [Serial β] [Spelled β]
    {first second : String} {make : α → β → γ} {z : γ} {fields : List (String × Form)}
    (h : readTwo? first second read? read? (.object fields) make = some z) (name : String) :
    ∃ v w x y, Form.Within name [first, second] (.object [(name, .object fields)]) [v, w] ∧
      Spells v x ∧ Spells w y ∧ make x y = z := by
  obtain ⟨v, w, hf, x, y, hx, hy, hz⟩ := readTwo?_eq_some_iff.mp h
  exact ⟨v, w, x, y, ⟨hf⟩, read?_iff.mp hx, read?_iff.mp hy, hz⟩

def Rule.Spells (f : Form) : Rule → Prop
  | .contradiction => Form.Plain f "ContradictionOnBottom"
  | .told supers => ∃ v, Form.Within "ToldSubsumers" ["supers"] f [v] ∧ Spelled.Spells v supers
  | .conjunction partners =>
    ∃ v, Form.Within "ConjunctionComposition" ["partners"] f [v] ∧ Spelled.Spells v partners
  | .propagation existentials =>
    ∃ v, Form.Within "ExistentialPropagation" ["existentials"] f [v] ∧
      Spelled.Spells v existentials
  | .disjointness axioms =>
    ∃ v, Form.Within "Disjointness" ["axioms"] f [v] ∧ Spelled.Spells v axioms

theorem Rule.ofForm?_eq_some_iff {f : Form} {r : Rule} : ofForm? f = some r ↔ r.Spells f := by
  constructor
  · intro h
    unfold ofForm? at h
    split at h
    case h_7 => cases h
    all_goals
      rename_i hc
      cases Form.case?_eq_some_iff.mp hc
    case h_1 =>
      cases h
      exact .name
    case h_2 =>
      cases h
      exact .null
    -- the cases with a field
    all_goals
      obtain ⟨v, x, hv, hx, rfl⟩ := within_of_readOne? h _
      exact ⟨v, hv, hx⟩
  · intro h
    cases r with
    | contradiction => rcases h with _ | _ <;> rfl
    | told | conjunction | propagation | disjointness =>
      obtain ⟨v, ⟨hv⟩, hx⟩ := h
      exact readOne?_eq_some_iff.mpr ⟨v, hv, _, read?_iff.mpr hx, rfl⟩

instance : Spelled Rule where
  Spells f r := r.Spells f
  read?_iff := Rule.ofForm?_eq_some_iff
  spells_form r := by
    cases r with
    | contradiction => exact .name
    | told | conjunction | propagation | disjointness =>
      exact ⟨_, ⟨.object (.cons rfl .nil)⟩, spells_form _⟩

instance : Spelled RuleChain where
  Spells f c := ∃ v, Form.Fields ["rules"] f [v] ∧ Spells v c.rules
  read?_iff {f c} := by
    obtain ⟨rules⟩ := c
    refine readOne?_eq_some_iff.trans ?_
    simp [read?_iff]
  spells_form c := ⟨_, .object (.cons rfl .nil), spells_form _⟩

def Expression.Spells (f : Form) : Expression → Prop
  | .named name => ∃ v, Form.Within "Class" ["name"] f [v] ∧ Spelled.Spells v name
  | .top => Form.Plain f "Top"
  | .bottom => Form.Plain f "Bottom"
  | .intersection first second => ∃ v w, Form.Within "Intersection" ["first", "second"] f [v, w] ∧
    Spelled.Spells v first ∧ Spelled.Spells w second
  | .existential property filler =>
    ∃ v w, Form.Within "Existential" ["property", "filler"] f [v, w] ∧
      Spelled.Spells v property ∧ Spelled.Spells w filler

theorem Expression.ofForm?_eq_some_iff {f : Form} {e : Expression} :
    ofForm? f = some e ↔ e.Spells f := by
  constructor
  · intro h
    unfold ofForm? at h
    split at h
    case h_8 => cases h
    all_goals
      rename_i hc
      cases Form.case?_eq_some_iff.mp hc
    case h_1 =>
      obtain ⟨v, x, hv, hx, rfl⟩ := within_of_readOne? h _
      exact ⟨v, hv, hx⟩
    case h_2 | h_4 =>
      cases h
      exact .name
    case h_3 | h_5 =>
      cases h
      exact .null
    case h_6 | h_7 =>
      obtain ⟨v, w, x, y, hvw, hx, hy, rfl⟩ := within_of_readTwo? h _
      exact ⟨v, w, hvw, hx, hy⟩
  · intro h
    cases e with
    | named name =>
      obtain ⟨v, ⟨hv⟩, hx⟩ := h
      exact readOne?_eq_some_iff.mpr ⟨v, hv, _, read?_iff.mpr hx, rfl⟩
    | top | bottom => rcases h with _ | _ <;> rfl
    | intersection | existential =>
      obtain ⟨v, w, ⟨hvw⟩, hx, hy⟩ := h
      exact readTwo?_eq_some_iff.mpr ⟨v, w, hvw, _, _, read?_iff.mpr hx, read?_iff.mpr hy, rfl⟩

instance : Spelled Expression where
  Spells f e := e.Spells f
  read?_iff := Expression.ofForm?_eq_some_iff
  spells_form e := by
    cases e with
    | named name => exact ⟨_, ⟨.object (.cons rfl .nil)⟩, spells_form _⟩
    | top | bottom => exact .name
    | intersection | existential =>
      exact ⟨_, _, ⟨.object (.cons rfl (.cons rfl .nil))⟩, spells_form _, spells_form _⟩

instance : Spelled Node where
  Spells f n := ∃ u v w, Form.Fields ["expression", "rules", "negative_occurrences"] f [u, v, w] ∧
    Spells u n.expression ∧ Spells v n.rules ∧ Spells w n.negative
  read?_iff {f n} := by
    obtain ⟨expression, rules, negative⟩ := n
    refine readThree?_eq_some_iff.trans ?_
    simp [read?_iff]
  spells_form n := ⟨_, _, _, .object (.cons rfl (.cons rfl (.cons rfl .nil))), spells_form _,
    spells_form _, spells_form _⟩

instance : Spelled Property where
  Spells f p := ∃ u v w, Form.Fields ["name", "super_properties", "sub_properties"] f [u, v, w] ∧
    Spells u p.name ∧ Spells v p.supers ∧ Spells w p.subs
  read?_iff {f p} := by
    obtain ⟨name, supers, subs⟩ := p
    refine readThree?_eq_some_iff.trans ?_
    simp [read?_iff]
  spells_form p := ⟨_, _, _, .object (.cons rfl (.cons rfl (.cons rfl .nil))), spells_form _,
    spells_form _, spells_form _⟩

instance : Spelled Disjointness where
  Spells f d := ∃ v, Form.Fields ["members"] f [v] ∧ Spells v d.members
  read?_iff {f d} := by
    obtain ⟨members⟩ := d
    refine readOne?_eq_some_iff.trans ?_
    simp [read?_iff]
  spells_form d := ⟨_, .object (.cons rfl .nil), spells_form _⟩

/-! ### Conclusions -/

namespace Conclusion

/-- Within a conclusion, an origin may also have the content of an object without fields. -/
inductive SpellsOrigin : Form → Origin → Prop
  | plain {f : Form} {o : Origin} (h : Form.Plain f o.name) : SpellsOrigin f o
  | bare {o : Origin} : SpellsOrigin (.object [(o.name, .object [])]) o

theorem readOrigin?_eq_some_iff {f : Form} {o : Origin} :
    readOrigin? f = some o ↔ SpellsOrigin f o := by
  constructor
  · intro h
    unfold readOrigin? at h
    split at h
    · rename_i hc
      cases Form.case?_eq_some_iff.mp hc
      cases Origin.ofName?_eq_some_iff.mp h
      exact .bare
    · exact .plain (read?_iff.mp h)
  · rintro (h | _)
    · have hread : read? f = some o := read?_iff.mpr h
      rcases h with _ | _ <;> exact hread
    · exact Origin.ofName?_eq_some_iff.mpr rfl

/-- A conclusion without fields is an object, whatever it holds, or an empty list. -/
inductive Bare : Form → Prop
  | object {fields : List (String × Form)} : Bare (.object fields)
  | list : Bare (.list [])

theorem isBare_iff {f : Form} : isBare f = true ↔ Bare f := by
  constructor
  · intro h
    unfold isBare at h
    split at h
    · exact .object
    · cases List.isEmpty_iff.mp h
      exact .list
    · cases h
  · rintro (_ | _) <;> rfl

/-- The kind of a conclusion, and two fields besides. -/
def SpellsFields {α β : Type} (kind first second : String) (a : Form → α → Prop)
    (b : Form → β → Prop) (f : Form) (x : α) (y : β) : Prop :=
  ∃ content v w, Form.Tagged kind f content ∧ Form.Fields [first, second] content [v, w] ∧
    a v x ∧ b w y

def Spells (f : Form) : Conclusion → Prop
  | .subsumer expression origin =>
    SpellsFields "subsumer" "expression" "origin" Spelled.Spells SpellsOrigin f expression origin
  | .forwardLink relation target =>
    SpellsFields "forward_link" "relation" "target" Spelled.Spells Spelled.Spells f relation target
  | .backwardLink source relation =>
    SpellsFields "backward_link" "source" "relation" Spelled.Spells Spelled.Spells f source relation
  | .propagation relation carry =>
    SpellsFields "propagation" "relation" "carry" Spelled.Spells Spelled.Spells f relation carry
  | .contradiction => ∃ content, Form.Tagged "contradiction" f content ∧ Bare content
  | .disjointSubsumer disjointness member =>
    SpellsFields "disjoint_subsumer" "axiom" "member" Spelled.Spells Spelled.Spells f disjointness
      member

/-- Where both readers read what is spelled, two fields are read where they are spelled. -/
theorem spellsFields_of_readTwo? {α β γ : Type} {kind first second : String} {f content : Form}
    {a : Form → Option α} {b : Form → Option β} {A : Form → α → Prop} {B : Form → β → Prop}
    {make : α → β → γ} {z : γ} (hf : Form.Tagged kind f content)
    (ha : ∀ {v x}, a v = some x ↔ A v x) (hb : ∀ {w y}, b w = some y ↔ B w y)
    (h : readTwo? first second a b content make = some z) :
    ∃ x y, SpellsFields kind first second A B f x y ∧ make x y = z := by
  obtain ⟨v, w, hvw, x, y, hx, hy, hz⟩ := readTwo?_eq_some_iff.mp h
  exact ⟨x, y, ⟨content, v, w, hf, hvw, ha.mp hx, hb.mp hy⟩, hz⟩

theorem ofForm?_eq_some_iff {f : Form} {k : Conclusion} : ofForm? f = some k ↔ k.Spells f := by
  constructor
  · intro h
    unfold ofForm? at h
    split at h
    case h_7 => cases h
    all_goals
      rename_i hkind
      replace hkind := Form.kind?_eq_some_iff.mp hkind
    case h_1 =>
      obtain ⟨x, o, hxo, rfl⟩ :=
        spellsFields_of_readTwo? hkind read?_iff readOrigin?_eq_some_iff h
      exact hxo
    case h_5 =>
      simp only [Option.ite_none_right_eq_some, Option.some.injEq] at h
      obtain ⟨hbare, rfl⟩ := h
      exact ⟨_, hkind, isBare_iff.mp hbare⟩
    -- the conclusions with two numbers
    all_goals
      obtain ⟨x, y, hxy, rfl⟩ := spellsFields_of_readTwo? hkind read?_iff read?_iff h
      exact hxy
  · intro h
    cases k with
    | subsumer expression origin =>
      obtain ⟨content, v, w, hkind, hvw, hx, ho⟩ := h
      simp only [ofForm?, Form.kind?_eq_some_iff.mpr hkind]
      exact readTwo?_eq_some_iff.mpr
        ⟨v, w, hvw, _, _, read?_iff.mpr hx, readOrigin?_eq_some_iff.mpr ho, rfl⟩
    | contradiction =>
      obtain ⟨content, hkind, hbare⟩ := h
      simp only [ofForm?, Form.kind?_eq_some_iff.mpr hkind]
      exact if_pos (isBare_iff.mpr hbare)
    | forwardLink | backwardLink | propagation | disjointSubsumer =>
      obtain ⟨content, v, w, hkind, hvw, hx, hy⟩ := h
      simp only [ofForm?, Form.kind?_eq_some_iff.mpr hkind]
      exact readTwo?_eq_some_iff.mpr ⟨v, w, hvw, _, _, read?_iff.mpr hx, read?_iff.mpr hy, rfl⟩

instance : Spelled Conclusion where
  Spells f k := k.Spells f
  read?_iff := ofForm?_eq_some_iff
  spells_form k := by
    cases k with
    | subsumer =>
      exact ⟨_, _, _, .object rfl, .object (.cons rfl (.cons rfl .nil)), spells_form _,
        .plain .name⟩
    | contradiction => exact ⟨_, .object rfl, .object⟩
    | forwardLink | backwardLink | propagation | disjointSubsumer =>
      exact ⟨_, _, _, .object rfl, .object (.cons rfl (.cons rfl .nil)), spells_form _,
        spells_form _⟩

end Conclusion

/-! ### Round trips -/

/-- What is written is read back, so no two values share their written form. The forms that are
accepted are the spellings of the values, and whatever is read is written in one form, which is read
as the same value. -/
structure RoundTrips (α : Type) [Serial α] [Spelled α] : Prop where
  read?_form : ∀ x : α, read? (form x) = some x
  injective : Function.Injective (form : α → Form)
  accepted : ∀ (f : Form) (x : α), read? f = some x ↔ Spells f x
  canonical : ∀ (f : Form) (x : α), read? f = some x →
    ∃ y : α, read? (form x) = some y ∧ y = x ∧ form y = form x

theorem roundTrips (α : Type) [Serial α] [Spelled α] : RoundTrips α where
  read?_form x := read?_iff.mpr (spells_form x)
  injective x y h := by
    have hx : read? (form x) = some x := read?_iff.mpr (spells_form x)
    have hy : read? (form y) = some y := read?_iff.mpr (spells_form y)
    rw [h, hy] at hx
    exact (Option.some.inj hx).symm
  accepted _ _ := read?_iff
  canonical _ x _ := ⟨x, read?_iff.mpr (spells_form x), rfl, rfl⟩

/-- Numbers, conclusions, rules, expressions and the entries of an ontology are read back from their
written forms, and from every spelling of them. -/
theorem written_forms_round_trip :
    RoundTrips NodeId ∧ RoundTrips PropertyId ∧ RoundTrips DisjointnessId ∧ RoundTrips Origin ∧
      RoundTrips Conclusion ∧ RoundTrips ConclusionKind ∧ RoundTrips RuleKind ∧
      RoundTrips Partner ∧ RoundTrips Rule ∧ RoundTrips RuleChain ∧ RoundTrips Expression ∧
      RoundTrips Node ∧ RoundTrips Property ∧ RoundTrips Disjointness :=
  ⟨roundTrips _, roundTrips _, roundTrips _, roundTrips _, roundTrips _, roundTrips _,
    roundTrips _, roundTrips _, roundTrips _, roundTrips _, roundTrips _, roundTrips _,
    roundTrips _, roundTrips _⟩

/-- Fields in the other order, with one among them that is ignored. -/
example : read? (.object [("conjunction", .integer 7), ("note", .null), ("partner", .integer 3)]) =
    some (⟨⟨3⟩, ⟨7⟩⟩ : Partner) := by
  rfl

end Subsumption
