import Concentric.Proofs.PlainData
import Concentric.Settings.Store

/-! Settings out of their sources. Every field has its kind of value in what holds in general, in
overrides and in the environment, and a file counts only where this is so for its fields too. So
where settings are put together each value is acceptable or refused, and nothing else can go wrong
than what comes of reading the file. -/

namespace Concentric

/-! ## Results that fail in known ways -/

/-- There is a result, which has the one property, or a failure, which has the other. -/
def Answers {α : Type} (E : Failure → Prop) (P : α → Prop) : Except Failure α → Prop
  | .ok a => P a
  | .error f => E f

namespace Answers

variable {α β : Type} {E : Failure → Prop} {P : α → Prop} {Q : β → Prop} {x : Except Failure α}

theorem bind {f : α → Except Failure β} (hx : Answers E P x)
    (hf : ∀ a, P a → Answers E Q (f a)) : Answers E Q (x >>= f) := by
  cases x with
  | error e => exact hx
  | ok a => exact hf a hx

theorem mono {P' : α → Prop} (hx : Answers E P x) (h : ∀ a, P a → P' a) : Answers E P' x := by
  cases x with
  | error e => exact hx
  | ok a => exact h a hx

theorem mapM {f : α → Except Failure β} {as : List α} (h : ∀ a ∈ as, Answers E Q (f a)) :
    Answers E (fun bs => ∀ b ∈ bs, Q b) (as.mapM f) := by
  induction as with
  | nil => exact fun b hb => absurd hb List.not_mem_nil
  | cons a as ih =>
    rw [List.mapM_cons]
    refine (h a List.mem_cons_self).bind fun b hb => ?_
    refine (ih fun a' ha' => h a' (List.mem_cons_of_mem _ ha')).bind fun bs hbs => ?_
    exact List.forall_mem_cons.mpr ⟨hb, hbs⟩

theorem foldlM {f : β → α → Except Failure β} {as : List α} {b : β}
    (h : ∀ b, Q b → ∀ a ∈ as, Answers E Q (f b a)) (hb : Q b) : Answers E Q (as.foldlM f b) := by
  induction as generalizing b with
  | nil => exact hb
  | cons a as ih =>
    rw [List.foldlM_cons]
    exact (h b hb a List.mem_cons_self).bind fun b' hb' =>
      ih (fun b hb a' ha' => h b hb a' (List.mem_cons_of_mem _ ha')) hb'

theorem error_of (hx : Answers E P x) {f : Failure} (h : x = .error f) : E f := by
  rw [h] at hx
  exact hx

theorem ok_of (hx : Answers E P x) {a : α} (h : x = .ok a) : P a := by
  rw [h] at hx
  exact hx

end Answers

/-- There is a result, which has the property, or a refusal. -/
abbrev Refusable {α : Type} (P : α → Prop) : Except Failure α → Prop :=
  Answers (fun f => f.isRefusal = true) P

/-! ## Values of the kinds of their fields -/

/-- The value is of the kind that the field holds. -/
def Field.Takes (f : Field) (v : Value) : Prop :=
  match f.kind with
  | .switch => v.IsData
  | .number => ∃ n, v = .ofNumeral n
  | .name => ∃ s, v = .text s

theorem Field.Takes.isData {f : Field} {v : Value} (h : f.Takes v) : v.IsData := by
  unfold Takes at h
  split at h
  · exact h
  · obtain ⟨n, rfl⟩ := h
    exact Value.isData_ofNumeral n
  · obtain ⟨s, rfl⟩ := h
    exact .text s

namespace Settings

/-- Every field has a value of its kind. -/
def Filled (s : Settings) : Prop := ∀ f : Field, f.Takes (s.get f)

/-- The numbers and the preset are of their kinds in any settings. -/
theorem filled_of_switches {s : Settings} (h : ∀ f, f.kind = .switch → (s.get f).IsData) :
    s.Filled := by
  intro f
  cases f with
  | listDepthCap => exact ⟨_, rfl⟩
  | tokenCacheSize => exact ⟨_, rfl⟩
  | markdownPreset => exact ⟨_, rfl⟩
  | enableTables => exact h .enableTables rfl
  | enableStrikethrough => exact h .enableStrikethrough rfl
  | debugLogging => exact h .debugLogging rfl

theorem standard_filled : standard.Filled := by
  refine filled_of_switches fun f hf => ?_
  cases f with
  | listDepthCap | tokenCacheSize | markdownPreset => cases hf
  | enableTables | enableStrikethrough | debugLogging => exact .truth _

theorem bounded_refusable (n : Numeral) (bound : Int) (refusal : Refusal) :
    Refusable (fun _ => True) (bounded (.ofNumeral n) bound refusal) := by
  unfold bounded
  rw [Value.numeral?_ofNumeral]
  dsimp only
  split
  · exact rfl
  · exact True.intro

theorem preset_refusable (s : String) : Refusable (fun _ => True) (preset (.text s)) := by
  have hkey : (Value.text s).unhashable? = none := rfl
  unfold preset
  rw [hkey]
  dsimp only
  cases Preset.ofName? s with
  | none => exact rfl
  | some p => exact True.intro

theorem filled_of_ofValues {v : Field → Value} {s : Settings} (h : ofValues v = .ok s)
    (hv : ∀ f, f.kind = .switch → (v f).IsData) : s.Filled := by
  obtain ⟨cap, -, h⟩ := Failure.bind_eq_ok.mp h
  obtain ⟨size, -, h⟩ := Failure.bind_eq_ok.mp h
  obtain ⟨preset, -, h⟩ := Failure.bind_eq_ok.mp h
  obtain rfl := Except.ok.inj h
  refine filled_of_switches fun f hf => ?_
  cases f with
  | listDepthCap | tokenCacheSize | markdownPreset => cases hf
  | enableTables => exact hv .enableTables rfl
  | enableStrikethrough => exact hv .enableStrikethrough rfl
  | debugLogging => exact hv .debugLogging rfl

/-- Values of the kinds of their fields make settings, or are refused. -/
theorem ofValues_refusable {v : Field → Value} (hv : ∀ f : Field, f.Takes (v f)) :
    Refusable Filled (ofValues v) := by
  cases hok : ofValues v with
  | ok s => exact filled_of_ofValues hok fun f _ => (hv f).isData
  | error e =>
    have hany : Refusable (fun _ => True) (ofValues v) := by
      obtain ⟨cap, hcap⟩ := hv .listDepthCap
      obtain ⟨size, hsize⟩ := hv .tokenCacheSize
      obtain ⟨preset, hpreset⟩ := hv .markdownPreset
      unfold ofValues
      rw [hcap, hsize, hpreset]
      exact (bounded_refusable cap 1 _).bind fun _ _ => (bounded_refusable size 0 _).bind
        fun _ _ => (preset_refusable preset).bind fun _ _ => True.intro
    exact hany.error_of hok

end Settings

/-! ## Overrides -/

namespace Override

/-- Each entry is a text, or of the kind of the field that it names. -/
def Fits (overrides : List (String × Value)) : Prop :=
  ∀ e ∈ overrides, ∀ f, Field.ofName? e.1 = some f → (∃ s, e.2 = .text s) ∨ f.Takes e.2

theorem ofText_refusable (f : Field) (s : String) : Refusable f.Takes (ofText f s) := by
  unfold ofText Field.Takes
  dsimp only
  cases f.kind with
  | switch => exact .truth _
  | number =>
    dsimp only
    cases Literal.read (Unicode.trim s.toList) with
    | ok n => exact ⟨.whole n, rfl⟩
    | error e => cases e <;> exact rfl
  | name => exact ⟨_, rfl⟩

theorem coerce_refusable {f : Field} {v : Value} (h : (∃ s, v = .text s) ∨ f.Takes v) :
    Refusable f.Takes (coerce f v) := by
  cases v with
  | text s => exact ofText_refusable f s
  | _ => exact h.resolve_left fun ⟨s, hs⟩ => by cases hs

theorem name_of_ofName? {f : Field} {name : String} (h : Field.ofName? name = some f) :
    f.name = name := by
  simpa using List.find?_some h

theorem mem_of_mem_relevant {e : Field × Value} {os : List (String × Value)}
    (h : e ∈ relevant os) : (e.1.name, e.2) ∈ os := by
  obtain ⟨⟨name, v⟩, hentry, hrelevant⟩ := List.mem_filterMap.mp h
  split at hrelevant
  · cases hrelevant
  · next hf _ =>
    obtain rfl := Option.some.inj hrelevant
    rw [name_of_ofName? hf]
    exact hentry
  · cases hrelevant

theorem changes_refusable {os : List (String × Value)} (h : Fits os) :
    Refusable (fun cs => ∀ c ∈ cs, c.1.Takes c.2) (changes os) := by
  refine Answers.mapM fun e he => ?_
  have hfits := h _ (mem_of_mem_relevant he) e.1 (Field.ofName?_name e.1)
  exact (coerce_refusable hfits).bind fun v hv => hv

theorem apply_refusable {s : Settings} {cs : List (Field × Value)} (hs : s.Filled)
    (hcs : ∀ c ∈ cs, c.1.Takes c.2) : Refusable Settings.Filled (apply s cs) := by
  unfold apply
  split
  · exact hs
  · refine Settings.ofValues_refusable fun f => ?_
    cases hlookup : cs.lookup f with
    | none => exact hs f
    | some v =>
      obtain ⟨front, back, rfl, -⟩ := List.lookup_eq_some_iff.mp hlookup
      exact hcs (f, v) (by simp)

/-- Overrides make settings out of settings, or are refused. -/
theorem merge_refusable {s : Settings} {os : List (String × Value)} (hs : s.Filled)
    (hos : Fits os) : Refusable Settings.Filled (merge s os) :=
  (changes_refusable hos).bind fun _ hcs => apply_refusable hs hcs

theorem ofEnvironment_fits (environment : List (String × String)) :
    Fits (ofEnvironment environment) := by
  intro e he f hf
  obtain ⟨⟨g, s⟩, -, hmem⟩ := List.mem_filterMap.mp he
  have hrefusable := ofText_refusable g s
  cases hv : ofText g s with
  | error e => simp [hv] at hmem
  | ok v =>
    simp only [hv] at hmem
    obtain rfl := Option.some.inj hmem
    obtain rfl := Option.some.inj ((Field.ofName?_name g).symm.trans hf)
    exact Or.inr (hrefusable.ok_of hv)

theorem ofEntry_refusable (entry : Value) : Refusable (fun _ => True) (ofEntry entry) := by
  unfold ofEntry
  split
  · unfold cutEntry
    split
    · exact rfl
    · dsimp only
      split
      · exact rfl
      · split
        · exact rfl
        · exact True.intro
  · exact rfl

theorem mem_put {name : String} {v : Value} {os : List (String × Value)} {x : String × Value}
    (h : x ∈ put name v os) : x = (name, v) ∨ x ∈ os := by
  induction os with
  | nil => exact Or.inl (List.mem_singleton.mp h)
  | cons e os ih =>
    unfold put at h
    split at h
    · exact (List.mem_cons.mp h).imp_right (List.mem_cons_of_mem _)
    · rcases List.mem_cons.mp h with rfl | htail
      · exact Or.inr List.mem_cons_self
      · exact (ih htail).imp_right (List.mem_cons_of_mem _)

/-- The entries of the command line are texts, or are refused. -/
theorem ofEntries_refusable (entries : List Value) : Refusable Fits (ofEntries entries) := by
  refine Answers.foldlM (fun os hos entry _ => ?_) (fun e he => absurd he List.not_mem_nil)
  refine (ofEntry_refusable entry).bind fun e _ x hx => ?_
  rcases mem_put hx with rfl | hmem
  · exact fun f _ => Or.inl ⟨e.2, rfl⟩
  · exact hos x hmem

end Override

/-! ## The file -/

namespace Stored

variable {t : FileTree} {p : Path} {bs : List UInt8} {stored : Stored} {f : Failure}

/-- What is stored is data. -/
def IsData : Stored → Prop
  | entries es => ∀ e ∈ es, e.2.IsData
  | _ => True

theorem settings_filled (h : stored.IsData) : stored.settings.Filled := by
  unfold settings
  split
  · next es =>
    split
    · next s hs =>
      refine Settings.filled_of_ofValues hs fun f _ => ?_
      cases hlookup : es.lookup f.name with
      | none => exact (Settings.standard_filled f).isData
      | some v =>
        obtain ⟨front, back, rfl, -⟩ := List.lookup_eq_some_iff.mp hlookup
        exact h (f.name, v) (by simp)
    · exact Settings.standard_filled
  · exact Settings.standard_filled

theorem isData_of_ofText {document : List Char} (h : ofText document = .ok stored) :
    stored.IsData := by
  unfold ofText at h
  split at h
  · next es hes =>
    obtain rfl := Except.ok.inj h
    cases Json.isData_of_read hes with
    | map hentries => exact hentries
  · exact Except.ok.inj h ▸ True.intro
  · exact Except.ok.inj h ▸ True.intro
  · cases h
  · cases h

/-- The octets are a text, in which containers lie too deep in one another to be read. -/
def TooDeep (bs : List UInt8) : Prop :=
  ∃ cs, Codec.readUtf8 bs = .ok cs ∧ Json.read (Lines.normalize cs) = .error .tooDeep

/-- Octets are refused, unless they are a document that is nested too deep. -/
theorem ofOctets_eq_error (h : ofOctets bs = .error f) :
    f.isRefusal = true ∨ (f = .nestedTooDeep ∧ TooDeep bs) := by
  rcases Failure.bind_eq_error.mp h with hread | ⟨cs, hread, h⟩
  · obtain ⟨u, rfl⟩ := Codec.readUtf8_eq_error hread
    exact Or.inl rfl
  · unfold ofText at h
    split at h
    · cases h
    · cases h
    · cases h
    · next hdeep => exact Or.inr ⟨(Except.error.inj h).symm, cs, hread, hdeep⟩
    · exact Or.inl (Except.error.inj h ▸ rfl)

/-- A file is read, or refused, or there is none to be read, or it is nested too deep. -/
theorem read_eq_error (h : read t p = .error f) :
    f.isRefusal = true ∨
    (∃ fault, f = .file fault ∧ t.read p = .error fault ∧ fault ≠ .notFound) ∨
    ∃ bs, f = .nestedTooDeep ∧ t.read p = .ok bs ∧ TooDeep bs := by
  unfold read at h
  split at h
  · next bs hbs =>
    rcases ofOctets_eq_error h with hrefusal | ⟨rfl, hdeep⟩
    · exact Or.inl hrefusal
    · exact Or.inr (Or.inr ⟨bs, rfl, hbs, hdeep⟩)
  · cases h
  · next fault hne hfault =>
    exact Or.inr (Or.inl ⟨fault, (Except.error.inj h).symm, hfault, hne⟩)

theorem isData_of_read (h : read t p = .ok stored) : stored.IsData := by
  unfold read at h
  split at h
  · next bs hbs =>
    obtain ⟨cs, -, h⟩ := Failure.bind_eq_ok.mp h
    exact isData_of_ofText h
  · exact Except.ok.inj h ▸ True.intro
  · cases h

end Stored

/-! ## Loading -/

namespace Settings

variable {t : FileTree} {p : Path} {overrides : List (String × Value)}
  {environment : List (String × String)}

/-- Once the file is read, settings are loaded or refused. -/
theorem load_refusable {stored : Stored} (hread : Stored.read t p = .ok stored)
    (hfits : Override.Fits overrides) : Refusable Filled (load t p overrides environment) := by
  unfold load
  rw [hread, Failure.ok_bind]
  refine (Override.merge_refusable (Stored.settings_filled (Stored.isData_of_read hread)) hfits).bind
    fun s hs => Override.merge_refusable hs (Override.ofEnvironment_fits environment)

/-- Where settings are neither loaded nor refused, their file could not be read. -/
theorem load_eq_error {f : Failure} (hfits : Override.Fits overrides)
    (h : load t p overrides environment = .error f) :
    f.isRefusal = true ∨ Stored.read t p = .error f := by
  rcases Failure.bind_eq_error.mp h with hread | ⟨stored, hread, -⟩
  · exact Or.inr hread
  · exact Or.inl ((load_refusable hread hfits).error_of h)

theorem filled_of_load {s : Settings} (hfits : Override.Fits overrides)
    (h : load t p overrides environment = .ok s) : s.Filled := by
  obtain ⟨stored, hread, -⟩ := Failure.bind_eq_ok.mp h
  exact (load_refusable hread hfits).ok_of h

end Settings

end Concentric
