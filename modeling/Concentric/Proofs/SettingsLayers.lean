import Concentric.Proofs.LetterCase
import Concentric.Proofs.SettingsLoading

/-! Settings by their sources. A field has what its variable in the environment gives it, else what
its override does, else what the file does if every field of the file is acceptable, else what holds
in general. Each source is read off by itself, field by field; that the sources are put over one
another as a whole, each with a check of its own, comes to the same. -/

namespace Concentric

/-! ## What fields accept -/

@[simp] theorem Value.numeral?_eq_some {v : Value} {n : Numeral} :
    v.numeral? = some n ↔ v = .ofNumeral n := by
  constructor
  · intro h
    cases v <;> cases h <;> rfl
  · rintro rfl
    exact numeral?_ofNumeral n

theorem Preset.ofName?_eq_some {s : String} {p : Preset} :
    ofName? s = some p ↔ s = p.name := by
  constructor
  · intro h
    unfold ofName? at h
    split at h <;> cases h <;> rfl
  · rintro rfl
    exact ofName?_name p

/-- The text of a preset's name. -/
def Value.isPreset : Value → Bool
  | .text s => (Preset.ofName? s).isSome
  | _ => false

/-- The field may hold the value: a depth of one or more, a size that is not negative, the name of a
preset, and anything for a switch. -/
def Field.accepts : Field → Value → Bool
  | .listDepthCap, v => v.numeral?.any fun n => !n.lt (.whole 1)
  | .tokenCacheSize, v => v.numeral?.any fun n => !n.lt (.whole 0)
  | .markdownPreset, v => v.isPreset
  | .enableTables, _ | .enableStrikethrough, _ | .debugLogging, _ => true

namespace Settings

variable {v : Field → Value} {w : Value} {s : Settings}

/-- Every field has a value that it accepts. -/
def Accepted (s : Settings) : Prop := ∀ f : Field, f.accepts (s.get f) = true

theorem standard_accepted : standard.Accepted := by
  intro f
  cases f <;> rfl

theorem bounded_eq_ok {bound : Int} {refusal : Refusal} {n : Numeral} :
    bounded w bound refusal = .ok n ↔ w = .ofNumeral n ∧ n.lt (.whole bound) = false := by
  rw [← Value.numeral?_eq_some, bounded]
  cases w.numeral? with
  | none => simp
  | some m =>
    dsimp only
    split
    · next hlt =>
      simp only [reduceCtorEq, Option.some.injEq, false_iff, not_and]
      rintro rfl
      simp [hlt]
    · next hlt =>
      simp only [Except.ok.injEq, Option.some.injEq]
      constructor
      · rintro rfl
        simpa using hlt
      · exact And.left

theorem preset_eq_ok {p : Preset} : preset w = .ok p ↔ w = .text p.name := by
  cases w with
  | text s =>
    have hkey : (Value.text s).unhashable? = none := rfl
    rw [Value.text.injEq, ← Preset.ofName?_eq_some, preset, hkey]
    dsimp only
    cases Preset.ofName? s <;> simp
  | _ =>
    unfold preset
    split <;> simp

theorem exists_bounded {bound : Int} (refusal : Refusal)
    (h : (w.numeral?.any fun n => !n.lt (.whole bound)) = true) :
    ∃ n, bounded w bound refusal = .ok n := by
  obtain ⟨n, hn, hlt⟩ := (Option.any_eq_true _ _).mp h
  exact ⟨n, bounded_eq_ok.mpr ⟨Value.numeral?_eq_some.mp hn, by simpa using hlt⟩⟩

theorem exists_preset (h : w.isPreset = true) : ∃ p, preset w = .ok p := by
  unfold Value.isPreset at h
  split at h
  · next s =>
    obtain ⟨p, hp⟩ := Option.isSome_iff_exists.mp h
    exact ⟨p, preset_eq_ok.mpr (congrArg Value.text (Preset.ofName?_eq_some.mp hp))⟩
  · cases h

/-- Settings are made of values that are accepted, and hold these values. -/
theorem accepts_of_ofValues (h : ofValues v = .ok s) : s.Accepted ∧ s.get = v := by
  obtain ⟨cap, hcap, h⟩ := Failure.bind_eq_ok.mp h
  obtain ⟨size, hsize, h⟩ := Failure.bind_eq_ok.mp h
  obtain ⟨preset, hpreset, h⟩ := Failure.bind_eq_ok.mp h
  obtain rfl := Except.ok.inj h
  obtain ⟨hcap, hdepth⟩ := bounded_eq_ok.mp hcap
  obtain ⟨hsize, hroom⟩ := bounded_eq_ok.mp hsize
  constructor
  · intro f
    cases f with
    | listDepthCap => simp [Field.accepts, get, hdepth]
    | tokenCacheSize => simp [Field.accepts, get, hroom]
    | markdownPreset => simp [Field.accepts, get, Value.isPreset]
    | enableTables | enableStrikethrough | debugLogging => rfl
  · funext f
    cases f with
    | listDepthCap => exact hcap.symm
    | tokenCacheSize => exact hsize.symm
    | markdownPreset => exact (preset_eq_ok.mp hpreset).symm
    | enableTables | enableStrikethrough | debugLogging => rfl

/-- Valid settings are made of the values that they hold. -/
theorem ofValues_get (h : s.Valid) : ofValues s.get = .ok s := by
  have hcap : bounded (s.get .listDepthCap) 1 .depthCapBelowOne = .ok s.listDepthCap :=
    bounded_eq_ok.mpr ⟨rfl, h.1⟩
  have hsize : bounded (s.get .tokenCacheSize) 0 .negativeCacheSize = .ok s.tokenCacheSize :=
    bounded_eq_ok.mpr ⟨rfl, h.2⟩
  have hpreset : preset (s.get .markdownPreset) = .ok s.markdownPreset := preset_eq_ok.mpr rfl
  unfold ofValues
  rw [hcap, Failure.ok_bind, hsize, Failure.ok_bind, hpreset, Failure.ok_bind]
  rfl

/-- There are settings of values that are accepted. -/
theorem exists_ofValues (h : ∀ f : Field, f.accepts (v f) = true) : ∃ s, ofValues v = .ok s := by
  obtain ⟨cap, hcap⟩ := exists_bounded .depthCapBelowOne (h .listDepthCap)
  obtain ⟨size, hsize⟩ := exists_bounded .negativeCacheSize (h .tokenCacheSize)
  obtain ⟨preset, hpreset⟩ := exists_preset (h .markdownPreset)
  unfold ofValues
  rw [hcap, Failure.ok_bind, hsize, Failure.ok_bind, hpreset, Failure.ok_bind]
  exact ⟨_, rfl⟩

end Settings

/-! ## Overrides by field -/

/-- The value is there. -/
def Value.isGiven : Value → Bool
  | .nothing => false
  | _ => true

namespace Override

variable {os : List (String × Value)} {cs : List (Field × Value)} {f : Field}
  {environment : List (String × String)}

/-- What overrides give a field: what is given first under its name, as a value of the field. -/
def ofField? (os : List (String × Value)) (f : Field) : Option Value :=
  ((os.filter fun e => e.2.isGiven).lookup f.name).bind fun v => (coerce f v).toOption

theorem relevant_eq (os : List (String × Value)) :
    relevant os = (os.filter fun e => e.2.isGiven).filterMap fun e =>
      (Field.ofName? e.1).map fun f => (f, e.2) := by
  rw [List.filterMap_filter]
  refine List.filterMap_congr fun e _ => ?_
  obtain ⟨name, v⟩ := e
  cases v <;> cases Field.ofName? name <;> rfl

theorem lookup_changes (h : changes os = .ok cs) : cs.lookup f = ofField? os f := by
  unfold changes at h
  unfold ofField?
  rw [relevant_eq] at h
  generalize os.filter (fun e => e.2.isGiven) = es at h ⊢
  induction es generalizing cs with
  | nil =>
    obtain rfl := Except.ok.inj h
    rfl
  | cons e es ih =>
    obtain ⟨name, v⟩ := e
    cases hname : Field.ofName? name with
    | none =>
      have hne : f.name ≠ name := by
        rintro rfl
        simp at hname
      rw [List.filterMap_cons_none (by rw [hname]; rfl)] at h
      rw [List.lookup_cons, beq_false_of_ne hne]
      exact ih h
    | some g =>
      obtain rfl := name_of_ofName? hname
      rw [List.filterMap_cons_some (by rw [hname]; rfl), List.mapM_cons] at h
      obtain ⟨c, hc, h⟩ := Failure.bind_eq_ok.mp h
      obtain ⟨w, hw, hc⟩ := Failure.bind_eq_ok.mp hc
      obtain ⟨cs', hcs', h⟩ := Failure.bind_eq_ok.mp h
      obtain rfl := Except.ok.inj h
      obtain rfl := Except.ok.inj hc
      by_cases hf : f = g
      · subst hf
        simp [hw, Except.toOption]
      · have hne : f.name ≠ g.name := fun hn => hf (Field.name_injective hn)
        rw [List.lookup_cons, List.lookup_cons, beq_false_of_ne hf, beq_false_of_ne hne]
        exact ih hcs'

/-- In settings with overrides each field has what they give it, else what it had. -/
theorem get_merge {s s' : Settings} (hs : s.Accepted) (h : merge s os = .ok s') :
    s'.Accepted ∧ ∀ f, s'.get f = (ofField? os f).getD (s.get f) := by
  obtain ⟨cs, hcs, h⟩ := Failure.bind_eq_ok.mp h
  unfold apply at h
  split at h
  · next hempty =>
    obtain rfl := Except.ok.inj h
    obtain rfl := List.isEmpty_iff.mp hempty
    refine ⟨hs, fun f => ?_⟩
    rw [← lookup_changes hcs]
    rfl
  · obtain ⟨haccepted, hget⟩ := Settings.accepts_of_ofValues h
    refine ⟨haccepted, fun f => ?_⟩
    rw [← lookup_changes hcs]
    exact congrFun hget f

/-! ## The environment by field -/

/-- What the environment gives a field: the value of its variable, if it is set to a text of one. -/
def ofVariable? (environment : List (String × String)) (f : Field) : Option Value :=
  (environment.lookup f.envVariable).bind fun s => (ofText f s).toOption

theorem ofEnvironment_eq (environment : List (String × String)) :
    ofEnvironment environment =
      Field.all.filterMap fun f => (ofVariable? environment f).map fun v => (f.name, v) := by
  unfold ofEnvironment given
  rw [List.filterMap_filterMap]
  refine List.filterMap_congr fun f _ => ?_
  unfold ofVariable?
  cases environment.lookup f.envVariable with
  | none => rfl
  | some s =>
    simp only [Option.map_some, Option.bind_some]
    cases ofText f s <;> rfl

/-- Of values under the names of fields the one for a field is found under its name. -/
theorem lookup_name (fs : List Field) (value? : Field → Option Value) (f : Field) :
    (fs.filterMap fun g => (value? g).map fun v => (g.name, v)).lookup f.name =
      if f ∈ fs then value? f else none := by
  induction fs with
  | nil => rfl
  | cons g fs ih =>
    by_cases hf : f = g
    · subst hf
      cases hv : value? f with
      | none => simp [hv, ih]
      | some v => simp [hv]
    · have hne : f.name ≠ g.name := fun hn => hf (Field.name_injective hn)
      cases hv : value? g with
      | none => simp [hv, ih, hf]
      | some v =>
        simp only [hv, List.filterMap_cons, Option.map_some, List.lookup_cons,
          beq_false_of_ne hne, ih, List.mem_cons, hf, false_or]

/-- A text gives a value that is there, and that is the same when it is read once more. -/
theorem given_of_ofText {s : String} {v : Value} (h : ofText f s = .ok v) :
    v.isGiven = true ∧ coerce f v = .ok v := by
  unfold ofText at h
  cases hkind : f.kind with
  | switch =>
    rw [hkind] at h
    obtain rfl := Except.ok.inj h
    exact ⟨rfl, rfl⟩
  | number =>
    rw [hkind] at h
    dsimp only at h
    split at h
    · obtain rfl := Except.ok.inj h
      exact ⟨rfl, rfl⟩
    · cases h
  | name =>
    rw [hkind] at h
    obtain rfl := Except.ok.inj h
    refine ⟨rfl, ?_⟩
    simp only [coerce, ofText, hkind, String.toList_ofList, Unicode.trim_trim]

theorem ofField?_ofEnvironment (environment : List (String × String)) (f : Field) :
    ofField? (ofEnvironment environment) f = ofVariable? environment f := by
  have hgiven : ∀ g v, ofVariable? environment g = some v →
      v.isGiven = true ∧ coerce g v = .ok v := by
    intro g v hv
    obtain ⟨s, -, hs⟩ := Option.bind_eq_some_iff.mp hv
    exact given_of_ofText (Failure.eq_ok_of_toOption hs)
  have hall : ∀ e ∈ ofEnvironment environment, e.2.isGiven = true := by
    intro e he
    rw [ofEnvironment_eq] at he
    obtain ⟨g, -, hg⟩ := List.mem_filterMap.mp he
    obtain ⟨v, hv, rfl⟩ := Option.map_eq_some_iff.mp hg
    exact (hgiven g v hv).1
  unfold ofField?
  rw [List.filter_eq_self.mpr hall, ofEnvironment_eq, lookup_name, if_pos f.mem_all]
  cases hv : ofVariable? environment f with
  | none => rfl
  | some v =>
    rw [Option.bind_some, (hgiven f v hv).2]
    rfl

end Override

/-! ## The file by field -/

namespace Stored

variable {stored stored' : Stored}

/-- What a file has under the name of a field. -/
def held? : Stored → Field → Option Value
  | entries es, f => es.lookup f.name
  | _, _ => none

/-- All that a file has for fields is accepted. -/
def usable (stored : Stored) : Bool :=
  Field.all.all fun f => (stored.held? f).all f.accepts

/-- What a file gives a field: what it has for it if it is usable, else nothing. -/
def value? (stored : Stored) (f : Field) : Option Value :=
  if stored.usable then stored.held? f else none

theorem usable_iff : stored.usable = true ↔
    ∀ f : Field, f.accepts ((stored.held? f).getD (Settings.standard.get f)) = true := by
  unfold usable
  rw [List.all_eq_true]
  refine ⟨fun h f => ?_, fun h f _ => ?_⟩
  · have hf := h f f.mem_all
    cases hheld : stored.held? f with
    | none => exact Settings.standard_accepted f
    | some v => simpa [hheld] using hf
  · have hf := h f
    cases hheld : stored.held? f with
    | none => rfl
    | some v => simpa [hheld] using hf

/-- A file is of no use if it has something for a field that is not accepted. -/
theorem not_usable_iff : ¬ stored.usable = true ↔
    ∃ (f : Field) (v : Value), stored.held? f = some v ∧ f.accepts v = false := by
  constructor
  · intro h
    by_contra hnone
    refine h (List.all_eq_true.mpr fun f _ => ?_)
    cases hheld : stored.held? f with
    | none => rfl
    | some v =>
      by_contra hrejected
      exact hnone ⟨f, v, hheld, by simpa using hrejected⟩
  · rintro ⟨f, v, hheld, hrejected⟩ husable
    have hf := List.all_eq_true.mp husable f f.mem_all
    simp [hheld, hrejected] at hf

theorem value?_of_rejected {g : Field} {v : Value} (hheld : stored.held? g = some v)
    (hrejected : g.accepts v = false) (f : Field) : stored.value? f = none := by
  unfold value?
  rw [if_neg (not_usable_iff.mpr ⟨g, v, hheld, hrejected⟩)]

/-- The settings of a file come of what it has for fields. -/
theorem settings_eq (stored : Stored) :
    stored.settings =
      (Settings.ofValues fun f => (stored.held? f).getD (Settings.standard.get f)).toOption.getD
        .standard := by
  cases stored with
  | entries es =>
    have hvalues : ofEntries es = Settings.ofValues fun f =>
        ((entries es).held? f).getD (Settings.standard.get f) := rfl
    rw [← hvalues, settings]
    cases ofEntries es <;> rfl
  | absent | notJson fault | notMap => rfl

/-- Of a file with something that is not accepted nothing counts. -/
theorem settings_of_not_usable (h : ¬ stored.usable = true) : stored.settings = .standard := by
  rw [settings_eq]
  cases hvalues : Settings.ofValues fun f =>
      (stored.held? f).getD (Settings.standard.get f) with
  | ok s =>
    obtain ⟨haccepted, hget⟩ := Settings.accepts_of_ofValues hvalues
    refine absurd (usable_iff.mpr fun f => ?_) h
    rw [← congrFun hget f]
    exact haccepted f
  | error e => rfl

/-- Each field of a file's settings has what the file gives it, else what holds in general. -/
theorem get_settings (stored : Stored) : stored.settings.Accepted ∧
    ∀ f, stored.settings.get f = (stored.value? f).getD (Settings.standard.get f) := by
  unfold value?
  by_cases husable : stored.usable = true
  · obtain ⟨s, hs⟩ := Settings.exists_ofValues (usable_iff.mp husable)
    obtain ⟨haccepted, hget⟩ := Settings.accepts_of_ofValues hs
    have hsettings : stored.settings = s := by
      rw [settings_eq, hs]
      rfl
    rw [hsettings]
    refine ⟨haccepted, fun f => ?_⟩
    rw [if_pos husable]
    exact congrFun hget f
  · rw [settings_of_not_usable husable]
    refine ⟨Settings.standard_accepted, fun f => ?_⟩
    rw [if_neg husable]
    rfl

theorem settings_congr (h : ∀ f, stored.held? f = stored'.held? f) :
    stored.settings = stored'.settings := by
  rw [settings_eq, settings_eq, funext h]

end Stored

/-! ## Names of no field -/

namespace Override

/-- The overrides under the names of fields. -/
def named (os : List (String × Value)) : List (String × Value) :=
  os.filter fun e => (Field.ofName? e.1).isSome

theorem relevant_named (os : List (String × Value)) : relevant (named os) = relevant os := by
  unfold relevant named
  rw [List.filterMap_filter]
  refine List.filterMap_congr fun e _ => ?_
  obtain ⟨name, v⟩ := e
  cases v <;> cases hname : Field.ofName? name <;> simp

theorem merge_named {os os' : List (String × Value)} (h : named os = named os') (s : Settings) :
    merge s os = merge s os' := by
  unfold merge changes
  rw [← relevant_named os, h, relevant_named os']

end Override

namespace Settings

variable {t : FileTree} {p : Path} {overrides : List (String × Value)}
  {environment : List (String × String)} {s : Settings}

/-- Loaded settings have in each field what its highest source gives it, and all of it is accepted.
A file with something for a field that is not accepted counts for no field, and the other sources
count as they would. Any other file, overrides and environment that have the same under the names
and variables of fields are loaded as the same settings. -/
theorem load_layered (h : load t p overrides environment = .ok s) :
    ∃ stored, Stored.read t p = .ok stored ∧
      (∀ f, s.get f = ((Override.ofVariable? environment f).or
        ((Override.ofField? overrides f).or (stored.value? f))).getD (standard.get f)) ∧
      (∀ g v, stored.held? g = some v → g.accepts v = false → ∀ f, s.get f =
        ((Override.ofVariable? environment f).or (Override.ofField? overrides f)).getD
          (standard.get f)) ∧
      (∀ f : Field, f.accepts (s.get f) = true) ∧
      ∀ t' p' stored' overrides' environment', Stored.read t' p' = .ok stored' →
        (∀ f, stored'.held? f = stored.held? f) →
        Override.named overrides' = Override.named overrides →
        (∀ f : Field, environment'.lookup f.envVariable = environment.lookup f.envVariable) →
        load t' p' overrides' environment' = .ok s := by
  obtain ⟨stored, hread, hload⟩ := Failure.bind_eq_ok.mp h
  obtain ⟨middle, hmiddle, hlast⟩ := Failure.bind_eq_ok.mp hload
  obtain ⟨hfile, hfileGet⟩ := stored.get_settings
  obtain ⟨hgiven, hgivenGet⟩ := Override.get_merge hfile hmiddle
  obtain ⟨haccepted, hget⟩ := Override.get_merge hgiven hlast
  have hlayers : ∀ f, s.get f = ((Override.ofVariable? environment f).or
      ((Override.ofField? overrides f).or (stored.value? f))).getD (standard.get f) := by
    intro f
    rw [hget, hgivenGet, hfileGet, Override.ofField?_ofEnvironment]
    cases Override.ofVariable? environment f with
    | some v => rfl
    | none => cases Override.ofField? overrides f <;> rfl
  refine ⟨stored, hread, hlayers, fun g v hheld hrejected f => ?_, haccepted, ?_⟩
  · rw [hlayers, Stored.value?_of_rejected hheld hrejected, Option.or_none]
  · intro t' p' stored' overrides' environment' hread' hentries hnamed hvariables
    have hvars : Override.ofEnvironment environment' = Override.ofEnvironment environment := by
      unfold Override.ofEnvironment Override.given
      simp only [hvariables]
    unfold load
    rw [hread', Failure.ok_bind, Stored.settings_congr hentries, Override.merge_named hnamed, hvars]
    exact hload

/-- A file with a depth, a size, nothing for a switch, and something under the name of no field. -/
def mixedFile : FileTree :=
  .oneFile "a.json" (Utf8.octets
    "\x7b\"list_depth_cap\": 6, \"token_cache_size\": 3, \"enable_tables\": null, \"x\": -1\x7d")

/-- The depth and the switch are those of the file, the size is that of the overrides, and the
preset that of the environment, where the text for the depth is no number. -/
theorem mixed_layered : ∃ s, load mixedFile ⟨"", ["a.json"]⟩
      [("token_cache_size", .text " 8"), ("markdown_preset", .text "zero"), ("x", .list [])]
      [("MDSELECT_MARKDOWN_PRESET", " default "), ("MDSELECT_LIST_DEPTH_CAP", "six")] = .ok s ∧
    s.get .listDepthCap = .whole 6 ∧ s.get .markdownPreset = .text "default" ∧
    (s.get .enableTables).isGiven = false ∧ s.get .tokenCacheSize = .whole 8 ∧
    ∀ f : Field, f.accepts (s.get f) = true := by
  have hparts : (load mixedFile ⟨"", ["a.json"]⟩
      [("token_cache_size", .text " 8"), ("markdown_preset", .text "zero"), ("x", .list [])]
      [("MDSELECT_MARKDOWN_PRESET", " default "), ("MDSELECT_LIST_DEPTH_CAP", "six")]).toOption.map
        (fun s => (s.listDepthCap, s.markdownPreset, s.enableTables.isGiven, s.tokenCacheSize)) =
      some (.whole 6, .default, false, .whole 8) := by decide +kernel
  obtain ⟨s, hs, hparts⟩ := Option.map_eq_some_iff.mp hparts
  simp only [Prod.mk.injEq] at hparts
  obtain ⟨hcap, hpreset, htables, hsize⟩ := hparts
  have hload := Failure.eq_ok_of_toOption hs
  obtain ⟨-, -, -, -, haccepted, -⟩ := load_layered hload
  refine ⟨s, hload, ?_, ?_, htables, ?_, haccepted⟩
  · simp [get, hcap, Value.ofNumeral]
  · simp [get, hpreset, Preset.name]
  · simp [get, hsize, Value.ofNumeral]

end Settings

end Concentric
