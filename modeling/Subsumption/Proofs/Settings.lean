import Subsumption.Settings.Reading
import Mathlib.Data.Nat.Digits.Defs

/-! Settings and the environment: which values stand for a number of workers, and when they decide
it. -/
namespace Subsumption.Settings

variable {host : Machine} {value path text : String} {n : Nat} {cs : List Char} {s : Settings}
  {file : SettingsFile} {env : Option String}

/-! ### Numbers of workers -/

/-- The number that decimal digits denote. -/
def decimal (ds : List Char) : Nat :=
  Nat.ofDigits 10 (ds.reverse.map fun c => c.toNat - '0'.toNat)

/-- Decimal digits, of which there is one at least; a plus sign may stand in front of them. -/
inductive Numeral : List Char → Nat → Prop
  | plain {ds : List Char} (hne : ds ≠ []) (hd : ∀ c ∈ ds, c.isDigit) : Numeral ds (decimal ds)
  | signed {ds : List Char} (hne : ds ≠ []) (hd : ∀ c ∈ ds, c.isDigit) :
    Numeral ('+' :: ds) (decimal ds)

/-- White space may stand around a numeral, but not within. -/
def Denotes (value : String) (n : Nat) : Prop :=
  ∃ lead numeral trail, (∀ c ∈ lead, Text.isBlank c) ∧ (∀ c ∈ trail, Text.isBlank c) ∧
    value.toList = lead ++ numeral ++ trail ∧ Numeral numeral n

/-- The number is one of workers: it is not zero and has 64 bits. -/
def Counts (value : String) (n : Nat) : Prop := Denotes value n ∧ 1 ≤ n ∧ n < 2 ^ 64

theorem digitsValue_eq (ds : List Char) : digitsValue ds = decimal ds := by
  rw [decimal, Nat.ofDigits_eq_foldr, List.map_reverse, List.foldr_reverse, List.foldl_map]
  simp only [digitsValue, Nat.cast_id, Nat.add_comm]

theorem isBlank_of_isDigit {c : Char} (h : c.isDigit) : Text.isBlank c = false := by
  have hc : 48 ≤ c.toNat ∧ c.toNat ≤ 57 := by
    simpa [Char.isDigit, UInt32.le_iff_toNat_le] using h
  simp only [Text.isBlank, Text.blankRanges, List.any_cons, List.any_nil, Bool.or_false,
    Bool.or_eq_false_iff, Bool.and_eq_false_iff, decide_eq_false_iff_not]
  omega

/-- Nothing in a numeral is white space, so that it can be told from what stands around it. -/
theorem Numeral.word (h : Numeral cs n) : cs ≠ [] ∧ ∀ c ∈ cs, Text.isBlank c = false := by
  cases h with
  | plain hne hd => exact ⟨hne, fun c hc => isBlank_of_isDigit (hd c hc)⟩
  | signed hne hd =>
    refine ⟨by simp, fun c hc => ?_⟩
    rcases List.mem_cons.mp hc with rfl | hc
    · decide
    · exact isBlank_of_isDigit (hd c hc)

theorem dropPlus_cases (cs : List Char) : cs = '+' :: dropPlus cs ∨ dropPlus cs = cs := by
  unfold dropPlus
  split
  · exact Or.inl rfl
  · exact Or.inr rfl

theorem numeral_iff : Numeral cs n ↔
    dropPlus cs ≠ [] ∧ (∀ c ∈ dropPlus cs, c.isDigit) ∧ digitsValue (dropPlus cs) = n := by
  constructor
  · intro h
    cases h with
    | signed hne hd => exact ⟨hne, hd, digitsValue_eq _⟩
    | plain hne hd =>
      have hdrop : dropPlus cs = cs := by
        unfold dropPlus
        split
        · exact absurd (hd '+' (by simp)) (by decide)
        · rfl
      rw [hdrop]
      exact ⟨hne, hd, digitsValue_eq _⟩
  · rintro ⟨hne, hd, rfl⟩
    rw [digitsValue_eq]
    rcases dropPlus_cases cs with h | h
    · generalize dropPlus cs = ds at *
      subst h
      exact .signed hne hd
    · rw [h] at hne hd ⊢
      exact .plain hne hd

theorem denotes_iff : Denotes value n ↔ Numeral (Text.trim value.toList) n := by
  constructor
  · rintro ⟨lead, numeral, trail, hlead, htrail, hvalue, h⟩
    rw [hvalue, Text.trim_append hlead h.word.2 h.word.1 htrail]
    exact h
  · intro h
    obtain ⟨lead, trail, hlead, htrail, hvalue⟩ := Text.exists_eq_append_trim value.toList
    exact ⟨lead, _, trail, hlead, htrail, hvalue, h⟩

/-- A value counts for one number at most, and that is the one which is read. -/
theorem workersOf?_of_counts (h : Counts value n) : workersOf? value = some (.ofNat n) := by
  obtain ⟨hdenotes, hpos, hbound⟩ := h
  obtain ⟨hne, hd, rfl⟩ := numeral_iff.mp (denotes_iff.mp hdenotes)
  exact if_pos ⟨hne, List.all_eq_true.mpr hd, hpos, Nat.le_pred_of_lt hbound⟩

theorem workersOf?_of_not_counts (h : ∀ n, ¬ Counts value n) : workersOf? value = none := by
  refine if_neg fun ⟨hne, hd, hpos, hbound⟩ => h _ ⟨denotes_iff.mpr (numeral_iff.mpr ?_), hpos, ?_⟩
  · exact ⟨hne, List.all_eq_true.mp hd, rfl⟩
  · exact Nat.lt_of_le_pred (by decide) hbound

/-! ### Overriding -/

/-- The result of a look into the environment: only the number of workers may be another one, and
only by a value that counts; any other value is told of in one warning. -/
structure Overridden (s : Settings) (env : Option String) (r : Settings × List Warning) : Prop where
  rest : { r.1 with workers := s.workers } = s
  taken : ∀ value n, env = some value → Counts value n → r.1.workers.toNat = n ∧ r.2 = []
  ignored : ∀ value, env = some value → (∀ n, ¬ Counts value n) →
    r.1.workers = s.workers ∧ r.2 = [.ignoredOverride value]
  unset : env = none → r.1.workers = s.workers ∧ r.2 = []

theorem override_of_counts (h : Counts value n) :
    s.override (some value) = ({ s with workers := .ofNat n }, []) := by
  simp only [override, workersOf?_of_counts h]

theorem override_of_not_counts (h : ∀ n, ¬ Counts value n) :
    s.override (some value) = (s, [.ignoredOverride value]) := by
  simp only [override, workersOf?_of_not_counts h]

theorem overridden_override (s : Settings) (env : Option String) :
    Overridden s env (s.override env) := by
  refine ⟨?_, ?_, ?_, ?_⟩
  · unfold override
    split
    · rfl
    · split <;> rfl
  · rintro value n rfl h
    rw [override_of_counts h]
    exact ⟨UInt64.toNat_ofNat_of_lt' h.2.2, rfl⟩
  · rintro value rfl h
    rw [override_of_not_counts h]
    exact ⟨rfl, rfl⟩
  · rintro rfl
    exact ⟨rfl, rfl⟩

/-- Workers are never lost in the environment. -/
theorem Overridden.workers_ne_zero {r : Settings × List Warning} (h : Overridden s env r)
    (hs : s.workers ≠ 0) : r.1.workers ≠ 0 := by
  cases env with
  | none =>
    rw [(h.unset rfl).1]
    exact hs
  | some value =>
    by_cases hv : ∃ n, Counts value n
    · obtain ⟨n, hn⟩ := hv
      intro hzero
      have htaken := (h.taken value n rfl hn).1
      rw [hzero] at htaken
      exact absurd hn.2.1 (by simp [← htaken])
    · rw [(h.ignored value rfl (not_exists.mp hv)).1]
      exact hs

/-! ### Files -/

/-- The settings that a text spells out, with or without workers. -/
def document? (host : Machine) (text : String) : Option Settings :=
  (Toml.read? text).bind (ofEntries? host)

/-- The settings of a file, before a look into the environment. -/
def stored (host : Machine) (path : String) (file : SettingsFile) :
    Except SettingsError Settings :=
  match file.text? with
  | .error why => .error (.read path why)
  | .ok text => parse host path text

theorem parse_of_document (h : document? host text = some s) (hs : s.workers ≠ 0) :
    parse host path text = .ok s := by
  simp only [document?] at h
  simp [parse, h, validate, hs]

theorem parse_of_no_document (h : document? host text = none) :
    parse host path text = .error (.parse path) := by
  simp only [document?] at h
  simp [parse, h]

theorem parse_of_no_workers (h : document? host text = some s) (hs : s.workers = 0) :
    parse host path text = .error .noWorkers := by
  simp only [document?] at h
  simp [parse, h, validate, hs]

theorem workers_of_parse (h : parse host path text = .ok s) : s.workers ≠ 0 := by
  cases hd : document? host text with
  | none => simp [parse_of_no_document hd] at h
  | some t =>
    by_cases ht : t.workers = 0
    · simp [parse_of_no_workers hd ht] at h
    · rw [parse_of_document hd ht] at h
      cases h
      exact ht

theorem loadFrom_eq (host : Machine) (path : String) (file : SettingsFile) (env : Option String) :
    loadFrom host path file env = (stored host path file).map (·.override env) := by
  unfold loadFrom stored
  cases file.text? with
  | error why => rfl
  | ok text =>
    dsimp only
    cases parse host path text <;> rfl

theorem workers_of_stored (h : stored host path file = .ok s) : s.workers ≠ 0 := by
  unfold stored at h
  split at h
  · cases h
  · exact workers_of_parse h

theorem workers_of_loadFrom {r : Settings × List Warning}
    (h : loadFrom host path file env = .ok r) : r.1.workers ≠ 0 := by
  rw [loadFrom_eq] at h
  cases hs : stored host path file with
  | error e => simp [hs, Except.map] at h
  | ok s =>
    rw [hs] at h
    cases h
    exact (overridden_override s env).workers_ne_zero (workers_of_stored hs)

theorem workers_of_load (host : Machine) (path : String) (file : SettingsFile)
    (env : Option String) : (load host path file env).1.workers ≠ 0 := by
  have hstandard : (standard host).workers ≠ 0 := host.workers_ne_zero
  unfold load
  split
  · split
    · exact workers_of_loadFrom ‹_›
    · exact hstandard
  · exact (overridden_override (standard host) env).workers_ne_zero hstandard

/-- Whatever the environment says, a readable file gives its own settings, overridden as far as the
environment has a number of workers, or fails as it would without; and settings always come with
workers. -/
theorem overrides_are_exact (host : Machine) (path : String) (file : SettingsFile)
    (env : Option String) :
    (∀ text, file.text? = .ok text →
      (∀ s, document? host text = some s → s.workers ≠ 0 →
        ∃ r, loadFrom host path file env = .ok r ∧ Overridden s env r) ∧
      (document? host text = none → loadFrom host path file env = .error (.parse path)) ∧
      (∀ s, document? host text = some s → s.workers = 0 →
        loadFrom host path file env = .error .noWorkers)) ∧
    (∀ text s, parse host path text = .ok s → s.workers ≠ 0) ∧
    (∀ r, loadFrom host path file env = .ok r → r.1.workers ≠ 0) ∧
    (load host path file env).1.workers ≠ 0 := by
  refine ⟨fun text htext => ?_, fun _ _ => workers_of_parse, fun _ => workers_of_loadFrom,
    workers_of_load host path file env⟩
  have hstored : stored host path file = parse host path text := by simp only [stored, htext]
  rw [loadFrom_eq, hstored]
  refine ⟨fun s hs hw => ?_, fun hs => ?_, fun s hs hw => ?_⟩
  · rw [parse_of_document hs hw]
    exact ⟨_, rfl, overridden_override s env⟩
  · rw [parse_of_no_document hs]
    rfl
  · rw [parse_of_no_workers hs hw]
    rfl

/-- A file with settings, and a value with white space of several kinds, a plus sign and a zero. -/
def fileOfNine : SettingsFile := .bytes "workers = 9\n[threshold]\nper_worker = 5".toUTF8

theorem counts_spaced : Counts "\u00a0+06\n" 6 := by
  have hnumeral : Numeral ['+', '0', '6'] 6 :=
    numeral_iff.mpr ⟨by decide, List.all_eq_true.mp (by decide), by decide⟩
  have hblank : ∀ c ∈ ['\u00a0'], Text.isBlank c := List.all_eq_true.mp (by decide)
  have hline : ∀ c ∈ ['\n'], Text.isBlank c := List.all_eq_true.mp (by decide)
  exact ⟨⟨_, _, _, hblank, hline, by decide, hnumeral⟩, by decide, by decide⟩

theorem overrides_are_exact_spaced :
    fileOfNine.text? = .ok "workers = 9\n[threshold]\nper_worker = 5" ∧
    document? .single "workers = 9\n[threshold]\nper_worker = 5" = some ⟨9, 64, 5, false⟩ ∧
    ∃ r, loadFrom .single "config.toml" fileOfNine (some "\u00a0+06\n") = .ok r ∧
      r.1.workers.toNat = 6 ∧ r.1.perWorker = 5 ∧ r.2 = [] := by
  have htext : fileOfNine.text? = .ok "workers = 9\n[threshold]\nper_worker = 5" := by
    decide +kernel
  have hdocument :
      document? .single "workers = 9\n[threshold]\nper_worker = 5" = some ⟨9, 64, 5, false⟩ := by
    decide +kernel
  obtain ⟨r, hr, h⟩ :=
    ((overrides_are_exact .single "config.toml" fileOfNine (some "\u00a0+06\n")).1 _ htext).1 _
      hdocument (by decide)
  obtain ⟨hworkers, hwarnings⟩ := h.taken _ 6 rfl counts_spaced
  exact ⟨htext, hdocument, r, hr, hworkers, congrArg Settings.perWorker h.rest, hwarnings⟩

/-! ### Settings in any case -/

/-- The settings that can be overridden: those of the file, or the standard ones without a file. -/
def given (host : Machine) (path : String) (file : SettingsFile) : Except SettingsError Settings :=
  if file.isPresent then stored host path file else .ok (standard host)

theorem load_eq (host : Machine) (path : String) (file : SettingsFile) (env : Option String) :
    load host path file env =
      match given host path file with
      | .ok s => s.override env
      | .error e => (standard host, [e.fallback]) := by
  unfold load given
  split
  · rw [loadFrom_eq]
    cases stored host path file <;> rfl
  · rfl

/-- A number of workers from the environment is taken without a file and with one that holds
settings; in the place of a file that fails, there are the standard settings all the same. -/
theorem load_workers (host : Machine) (path : String) (file : SettingsFile)
    (h : Counts value n) :
    (∀ s, given host path file = .ok s →
      (load host path file (some value)).1.workers.toNat = n ∧
      { (load host path file (some value)).1 with workers := s.workers } = s ∧
      (load host path file (some value)).2 = []) ∧
    ∀ e, given host path file = .error e →
      load host path file (some value) = (standard host, [e.fallback]) := by
  rw [load_eq]
  refine ⟨fun s hs => ?_, fun e he => ?_⟩
  · rw [hs]
    have hover := overridden_override s (some value)
    obtain ⟨hworkers, hwarnings⟩ := hover.taken value n rfl h
    exact ⟨hworkers, hover.rest, hwarnings⟩
  · rw [he]

/-- Without a file, with one of nine workers, and with a directory in its place. -/
theorem load_workers_spaced :
    Counts "\u00a0+06\n" 6 ∧
    (load .single "config.toml" .absent (some "\u00a0+06\n")).1.workers.toNat = 6 ∧
    (load .single "config.toml" fileOfNine (some "\u00a0+06\n")).1.workers.toNat = 6 ∧
    load .single "config.toml" .directory (some "\u00a0+06\n") =
      (standard .single, [SettingsError.fallback (.read "config.toml" .directory)]) :=
  ⟨counts_spaced, ((load_workers .single _ _ counts_spaced).1 (standard .single) rfl).1,
    ((load_workers .single _ _ counts_spaced).1 ⟨9, 64, 5, false⟩ (by decide +kernel)).1,
    (load_workers .single _ _ counts_spaced).2 _ rfl⟩

/-- The file asks for no workers, the environment for four; there is one, as the machine has it. -/
theorem unheeded_noWorkers :
    Counts "4" 4 ∧
    (load .single "config.toml" (.bytes "workers = 0".toUTF8) (some "4")).1.workers.toNat ≠ 4 := by
  have hnumeral : Numeral ['4'] 4 :=
    numeral_iff.mpr ⟨by decide, List.all_eq_true.mp (by decide), by decide⟩
  refine ⟨⟨⟨[], _, [], by simp, by simp, by decide, hnumeral⟩, by decide, by decide⟩, ?_⟩
  decide +kernel

end Subsumption.Settings
