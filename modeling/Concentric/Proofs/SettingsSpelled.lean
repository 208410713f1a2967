import Concentric.Proofs.SettingsSaved

/-! Settings spelled out as texts. Where the fields have values of the types that are declared for
them, the text of each value is read as that value, with any blanks around it. So whatever a settings
file holds, the same settings come of entries on the command line, of which the last for each field
spells its value, and of variables that do so for all fields, whatever the entries are. -/

namespace Concentric

open Unicode (isBlank trim)

theorem Digits.isBlank_of_mem_ofInt {c : Char} {n : Int} (h : c ∈ ofInt n) : isBlank c = false := by
  cases n with
  | ofNat m => exact Literal.isBlank_of_isDigit (isDigit_of_mem_ofNat h)
  | negSucc m =>
    rcases List.mem_cons.mp h with rfl | hdigit
    · decide
    · exact Literal.isBlank_of_isDigit (isDigit_of_mem_ofNat hdigit)

theorem Preset.isBlank_of_mem_name {c : Char} (p : Preset) (h : c ∈ p.name.toList) :
    isBlank c = false := by
  have hall : (p.name.toList.all fun c => !isBlank c) = true := by
    cases p <;> decide
  simpa using List.all_eq_true.mp hall c h

theorem Field.of_mem_name {c : Char} (f : Field) (h : c ∈ f.name.toList) :
    isBlank c = false ∧ c ≠ '=' := by
  have hall : (f.name.toList.all fun c => !isBlank c && c != '=') = true := by
    cases f <;> decide
  simpa using List.all_eq_true.mp hall c h

/-! ## Texts of values -/

namespace Value

theorem display_whole (n : Int) : (whole n).display = Digits.text n := rfl

theorem display_truth (b : Bool) : (truth b).display = if b then "True" else "False" := rfl

/-- The text is that of the value, with any blanks around it. -/
def Spelled (v : Value) (cs : List Char) : Prop :=
  ∃ front back, (∀ c ∈ front, isBlank c = true) ∧ (∀ c ∈ back, isBlank c = true) ∧
    cs = front ++ v.display.toList ++ back

theorem spelled_display (v : Value) : v.Spelled v.display.toList :=
  ⟨[], [], by simp, by simp, by simp⟩

end Value

namespace Settings

variable {s s' : Settings} {f : Field} {text : String} {cs : List Char}

theorem get_injective (h : s.get = s'.get) : s = s' := by
  have hnumber : ∀ {m n : Numeral}, Value.ofNumeral m = Value.ofNumeral n → m = n := fun heq => by
    simpa using congrArg Value.numeral? heq
  have hpreset : s.markdownPreset = s'.markdownPreset := by
    simpa using congrArg Preset.ofName? (Value.text.inj (congrFun h .markdownPreset))
  have hcap := hnumber (congrFun h .listDepthCap)
  have hsize := hnumber (congrFun h .tokenCacheSize)
  have htables := congrFun h .enableTables
  have hstrikes := congrFun h .enableStrikethrough
  have hlogging := congrFun h .debugLogging
  cases s
  cases s'
  simp_all [get]

theorem Declared.accepted (h : s.Declared) : s.Accepted :=
  (accepts_of_ofValues (ofValues_get h.valid)).1

/-- There are no blanks in the text of a value. -/
theorem Declared.isBlank_of_mem (h : s.Declared) {c : Char} (hc : c ∈ (s.get f).display.toList) :
    isBlank c = false := by
  cases hkind : f.kind with
  | number =>
    obtain ⟨n, hn, -⟩ := h.number f hkind
    rw [hn, Value.display_whole, Digits.text, String.toList_ofList] at hc
    exact Digits.isBlank_of_mem_ofInt hc
  | switch =>
    obtain ⟨b, hb⟩ := h.switch f hkind
    have hall : ((if b then "True" else "False").toList.all fun c => !isBlank c) = true := by
      cases b <;> decide
    rw [hb, Value.display_truth] at hc
    simpa using List.all_eq_true.mp hall c hc
  | name =>
    cases f with
    | markdownPreset => exact s.markdownPreset.isBlank_of_mem_name hc
    | _ => cases hkind

theorem Declared.trim_spelled (h : s.Declared) (hcs : (s.get f).Spelled cs) :
    trim cs = (s.get f).display.toList := by
  obtain ⟨front, back, hfront, hback, rfl⟩ := hcs
  exact Unicode.trim_padded hfront hback fun c => h.isBlank_of_mem

/-- The text of a field's value is read as the value. -/
theorem Declared.ofText_spelled (h : s.Declared) (htext : (s.get f).Spelled text.toList) :
    Override.ofText f text = .ok (s.get f) := by
  unfold Override.ofText
  rw [h.trim_spelled htext]
  cases hkind : f.kind with
  | number =>
    obtain ⟨n, hn, hshort⟩ := h.number f hkind
    have hread := Literal.read_eq_ok_iff.mpr (Literal.whole_ofInt hshort)
    rw [hn, Value.display_whole, Digits.text, String.toList_ofList]
    dsimp only
    rw [hread]
  | switch =>
    obtain ⟨b, hb⟩ := h.switch f hkind
    have hlower : Override.yes.contains (String.ofList (Unicode.lower
        (if b then "True" else "False").toList)) = b := by
      cases b <;> decide +kernel
    rw [hb, Value.display_truth]
    dsimp only
    rw [hlower]
  | name =>
    cases f with
    | markdownPreset => exact congrArg (fun t => Except.ok (Value.text t)) String.ofList_toList
    | _ => cases hkind

end Settings

/-! ## Overrides that are in order -/

theorem Answers.exists_ok {α : Type} {P : α → Prop} {x : Except Failure α}
    (h : Answers (fun _ => False) P x) : ∃ a, x = .ok a ∧ P a := by
  cases x with
  | error f => exact h.elim
  | ok a => exact ⟨a, rfl, h⟩

namespace Override

variable {s base : Settings} {os : List (String × Value)} {e : Field × Value} {f : Field}
  {environment : List (String × String)}

/-- Each override for a field has a value that the field accepts. -/
def Valid (os : List (String × Value)) : Prop :=
  ∀ e ∈ relevant os, ∃ v, coerce e.1 e.2 = .ok v ∧ e.1.accepts v = true

/-- Overrides in order make settings out of any that are accepted. -/
theorem exists_merge (hbase : base.Accepted) (h : Valid os) : ∃ s, merge base os = .ok s := by
  have hchanges : Answers (fun _ => False) (fun cs => ∀ c ∈ cs, c.1.accepts c.2 = true)
      (changes os) := by
    refine Answers.mapM fun e he => ?_
    obtain ⟨v, hv, haccepts⟩ := h e he
    rw [hv]
    exact haccepts
  obtain ⟨cs, hcs, haccepts⟩ := hchanges.exists_ok
  rw [merge, hcs, Failure.ok_bind, apply]
  split
  · exact ⟨base, rfl⟩
  · refine Settings.exists_ofValues fun f => ?_
    cases hlookup : cs.lookup f with
    | none => exact hbase f
    | some v =>
      obtain ⟨front, back, rfl, -⟩ := List.lookup_eq_some_iff.mp hlookup
      exact haccepts (f, v) (by simp)

/-- Settings are known by what overrides and those below give the fields. -/
theorem merge_eq (hbase : base.Accepted) (h : Valid os)
    (hget : ∀ f, (ofField? os f).getD (base.get f) = s.get f) : merge base os = .ok s := by
  obtain ⟨s', hs'⟩ := exists_merge hbase h
  obtain ⟨-, hget'⟩ := get_merge hbase hs'
  rw [hs', Settings.get_injective (funext fun f => (hget' f).trans (hget f))]

/-- Variables that give no field another value are in order. -/
theorem valid_ofEnvironment (hs : s.Accepted)
    (h : ∀ f v, ofVariable? environment f = some v → v = s.get f) :
    Valid (ofEnvironment environment) := by
  intro e he
  have hmem := mem_of_mem_relevant he
  rw [ofEnvironment_eq] at hmem
  obtain ⟨g, -, hg⟩ := List.mem_filterMap.mp hmem
  obtain ⟨v, hv, heq⟩ := Option.map_eq_some_iff.mp hg
  obtain ⟨hname, rfl⟩ := Prod.mk.inj heq
  obtain rfl := Field.name_injective hname
  obtain ⟨text, -, htext⟩ := Option.bind_eq_some_iff.mp hv
  refine ⟨e.2, (given_of_ofText (Failure.eq_ok_of_toOption htext)).2, ?_⟩
  rw [h e.1 e.2 hv]
  exact hs e.1

/-! ## Entries of the command line -/

/-- The entry spells the value for the field: its name and the text of the value with a sign of
equality between them, and any blanks around each. -/
def Spells (f : Field) (v : Value) (entry : Value) : Prop :=
  ∃ front back cs, (∀ c ∈ front, isBlank c = true) ∧ (∀ c ∈ back, isBlank c = true) ∧
    v.Spelled cs ∧ entry = .text (String.ofList (front ++ f.name.toList ++ back ++ '=' :: cs))

/-- The last of the entries for the field spells the value for it. -/
def SpellsLast (entries : List Value) (f : Field) (v : Value) : Prop :=
  ∃ before entry later, entries = before ++ entry :: later ∧ Spells f v entry ∧
    ∀ e ∈ later, ∀ name text, ofEntry e = .ok (name, text) → name ≠ f.name

theorem ofEntry_of_spells (hs : s.Declared) {entry : Value} (h : Spells f (s.get f) entry) :
    ofEntry entry = .ok (f.name, (s.get f).display) := by
  obtain ⟨front, back, cs, hfront, hback, hcs, rfl⟩ := h
  have hblank : ∀ c, isBlank c = true → c ≠ '=' := by
    rintro c hc rfl
    revert hc
    decide
  have hmark : '=' ∉ front ++ f.name.toList ++ back := by
    simp only [List.mem_append, not_or]
    exact ⟨⟨fun h => hblank _ (hfront _ h) rfl, fun h => (f.of_mem_name h).2 rfl⟩,
      fun h => hblank _ (hback _ h) rfl⟩
  have hcut : Text.cut? '=' (front ++ f.name.toList ++ back ++ '=' :: cs) =
      some (front ++ f.name.toList ++ back, cs) := Text.cut?_eq_some_iff.mpr ⟨rfl, hmark⟩
  have hkey : trim (front ++ f.name.toList ++ back) = f.name.toList :=
    Unicode.trim_padded hfront hback fun c hc => (f.of_mem_name hc).1
  have hname : f.name ≠ "" := by
    cases f <;> decide
  rw [ofEntry, cutEntry, String.toList_ofList, hcut]
  dsimp only
  rw [hkey, hs.trim_spelled hcs, String.ofList_toList, String.ofList_toList, if_neg hname,
    Field.ofName?_name]
  rfl

/-- Entries that spell values for different fields, in any order and with any others before them. -/
theorem spellsLast_of_map (hs : s.Declared) {entry : Field → Value}
    (hentry : ∀ f, Spells f (s.get f) (entry f)) (earlier : List Value) {fs : List Field}
    (hfs : fs.Nodup) (hf : f ∈ fs) : SpellsLast (earlier ++ fs.map entry) f (s.get f) := by
  obtain ⟨before, later, rfl⟩ := List.append_of_mem hf
  have hlater : f ∉ later := (List.nodup_cons.mp (List.nodup_append.mp hfs).2.1).1
  refine ⟨earlier ++ before.map entry, entry f, later.map entry, by simp, hentry f, ?_⟩
  rintro e he name text hread rfl
  obtain ⟨g, hg, rfl⟩ := List.mem_map.mp he
  have hname := (Prod.mk.inj (Except.ok.inj ((ofEntry_of_spells hs (hentry g)).symm.trans hread))).1
  exact hlater (Field.name_injective hname ▸ hg)

/-- Overrides as entries make them: all of them are texts, and none is there twice. -/
structure Neat (os : List (String × Value)) : Prop where
  keys : (os.map Prod.fst).Nodup
  texts : ∀ e ∈ os, ∃ text, e.2 = .text text

theorem Neat.nil : Neat [] := ⟨List.nodup_nil, fun _ he => absurd he List.not_mem_nil⟩

theorem lookup_put (name other : String) (v : Value) (os : List (String × Value)) :
    (put name v os).lookup other = if other = name then some v else os.lookup other := by
  induction os with
  | nil =>
    rw [put, List.lookup_cons]
    by_cases h : other = name
    · simp [h]
    · rw [if_neg h, beq_false_of_ne h]
  | cons e os ih =>
    obtain ⟨k, w⟩ := e
    unfold put
    by_cases hk : k = name
    · subst hk
      rw [if_pos rfl, List.lookup_cons, List.lookup_cons]
      by_cases h : other = k
      · simp [h]
      · rw [if_neg h, beq_false_of_ne h]
    · rw [if_neg hk, List.lookup_cons, List.lookup_cons, ih]
      by_cases h : other = k
      · subst h
        simp [hk]
      · rw [beq_false_of_ne h]

theorem Neat.put (h : Neat os) (name text : String) : Neat (put name (.text text) os) := by
  refine ⟨?_, fun x hx => ?_⟩
  · have hkeys := h.keys
    clear h
    induction os with
    | nil => simp [Override.put]
    | cons e os ih =>
      obtain ⟨k, w⟩ := e
      rw [List.map_cons, List.nodup_cons] at hkeys
      unfold Override.put
      split
      · next hk =>
        subst hk
        exact List.nodup_cons.mpr hkeys
      · next hk =>
        refine List.nodup_cons.mpr ⟨fun hmem => ?_, ih hkeys.2⟩
        obtain ⟨x, hx, hkey⟩ := List.mem_map.mp hmem
        rcases mem_put hx with rfl | hold
        · exact hk hkey.symm
        · exact hkeys.1 (List.mem_map.mpr ⟨x, hold, hkey⟩)
  · rcases mem_put hx with rfl | hmem
    · exact ⟨text, rfl⟩
    · exact h.texts x hmem

def adding (os : List (String × Value)) (entry : Value) :
    Except Failure (List (String × Value)) := do
  let (name, text) ← ofEntry entry
  return put name (.text text) os

theorem ofEntries_eq (entries : List Value) : ofEntries entries = entries.foldlM adding [] := rfl

theorem adding_of_ofEntry {entry : Value} {name text : String}
    (h : ofEntry entry = .ok (name, text)) (os : List (String × Value)) :
    adding os entry = .ok (put name (.text text) os) := by
  rw [adding, h]
  rfl

/-- Well-formed entries are put one after another, and leave what is there under other names. -/
theorem exists_foldlM {entries : List Value}
    (hwell : ∀ e ∈ entries, ∃ entry, ofEntry e = .ok entry) (hos : Neat os) :
    ∃ os', entries.foldlM adding os = .ok os' ∧ Neat os' ∧
      ∀ key, (∀ e ∈ entries, ∀ name text, ofEntry e = .ok (name, text) → name ≠ key) →
        os'.lookup key = os.lookup key := by
  induction entries generalizing os with
  | nil => exact ⟨os, rfl, hos, fun _ _ => rfl⟩
  | cons e entries ih =>
    obtain ⟨⟨⟨name, text⟩, he⟩, hwell⟩ := List.forall_mem_cons.mp hwell
    obtain ⟨os', hfold, hneat, hkept⟩ := ih hwell (hos.put name text)
    refine ⟨os', ?_, hneat, fun key hkey => ?_⟩
    · rw [List.foldlM_cons, adding_of_ofEntry he]
      exact hfold
    · obtain ⟨hfirst, hrest⟩ := List.forall_mem_cons.mp hkey
      rw [hkept key hrest, lookup_put, if_neg (hfirst name text he).symm]

/-- Of the entries for a field the last counts. -/
theorem lookup_ofEntries (hs : s.Declared) {entries : List Value}
    (hwell : ∀ e ∈ entries, ∃ entry, ofEntry e = .ok entry) : ∃ os,
      ofEntries entries = .ok os ∧ Neat os ∧ ∀ f, SpellsLast entries f (s.get f) →
        os.lookup f.name = some (.text (s.get f).display) := by
  obtain ⟨os, hos, hneat, -⟩ := exists_foldlM hwell Neat.nil
  refine ⟨os, (ofEntries_eq entries).trans hos, hneat, fun f hlast => ?_⟩
  obtain ⟨before, entry, later, rfl, hspells, hlater⟩ := hlast
  obtain ⟨first, hfirst, hfirstNeat, -⟩ := exists_foldlM
    (fun e he => hwell e (List.mem_append_left _ he)) Neat.nil
  obtain ⟨os', hrest, -, hkept⟩ := exists_foldlM
    (fun e he => hwell e (List.mem_append_right _ (List.mem_cons_of_mem _ he)))
    (hfirstNeat.put f.name (s.get f).display)
  have hwhole : (before ++ entry :: later).foldlM adding [] = .ok os' := by
    rw [List.foldlM_append, hfirst, Failure.ok_bind, List.foldlM_cons,
      adding_of_ofEntry (ofEntry_of_spells hs hspells)]
    exact hrest
  obtain rfl := Except.ok.inj (hos.symm.trans hwhole)
  rw [hkept f.name hlater, lookup_put, if_pos rfl]

/-- Overrides that spell the value of every field are in order, and give each field its value. -/
theorem ofField?_of_lookup (hs : s.Declared) (hneat : Neat os)
    (h : ∀ f : Field, os.lookup f.name = some (.text (s.get f).display)) :
    Valid os ∧ ∀ f, ofField? os f = some (s.get f) := by
  have hread : ∀ f, coerce f (.text (s.get f).display) = .ok (s.get f) := fun f =>
    hs.ofText_spelled (Value.spelled_display _)
  refine ⟨fun e he => ⟨s.get e.1, ?_, hs.accepted e.1⟩, fun f => ?_⟩
  · have hheld := lookup_of_mem hneat.keys (mem_of_mem_relevant he)
    rw [Option.some.inj (hheld.symm.trans (h e.1))]
    exact hread e.1
  · have hgiven : ∀ e ∈ os, e.2.isGiven = true := by
      intro e he
      obtain ⟨text, htext⟩ := hneat.texts e he
      rw [htext]
      rfl
    rw [ofField?, List.filter_eq_self.mpr hgiven, h f, Option.bind_some, hread]
    rfl

end Override

namespace Settings

variable {s : Settings} {t : FileTree} {p : Path} {overrides : List (String × Value)}
  {environment : List (String × String)} {entries : List Value}

/-- Where overrides and variables are in order and give every field its value in some settings,
whatever the file has for it, these settings are loaded if the file can be read. -/
theorem load_of_valid (hoverrides : Override.Valid overrides)
    (hvariables : Override.Valid (Override.ofEnvironment environment))
    (hget : ∀ f base, ((Override.ofVariable? environment f).or
      (Override.ofField? overrides f)).getD base = s.get f) :
    load t p overrides environment = Stored.read t p >>= fun _ => pure s := by
  unfold load
  refine congrArg (Stored.read t p >>= ·) (funext fun stored => ?_)
  obtain ⟨hfile, -⟩ := stored.get_settings
  obtain ⟨middle, hmiddle⟩ := Override.exists_merge hfile hoverrides
  obtain ⟨hmiddleAccepted, hmiddleGet⟩ := Override.get_merge hfile hmiddle
  rw [hmiddle, Failure.ok_bind]
  refine Override.merge_eq hmiddleAccepted hvariables fun f => ?_
  rw [Override.ofField?_ofEnvironment, hmiddleGet, ← hget f (stored.settings.get f)]
  cases Override.ofVariable? environment f <;> rfl

/-- Whatever the settings file holds, if it can be read, settings with values of the declared types
are loaded with overrides of entries of which the last for each field spells its value, unless a
variable gives a field another one; and with variables that spell the values of all fields, whatever
the overrides are, if these are in order. -/
theorem load_spelled (hs : s.Declared) (t : FileTree) (p : Path) :
    (∀ entries environment, (∀ e ∈ entries, ∃ entry, Override.ofEntry e = .ok entry) →
      (∀ f, Override.SpellsLast entries f (s.get f)) →
      (∀ f v, Override.ofVariable? environment f = some v → v = s.get f) →
      ∃ overrides, Override.ofEntries entries = .ok overrides ∧
        load t p overrides environment = Stored.read t p >>= fun _ => pure s) ∧
    ∀ overrides environment, Override.Valid overrides →
      (∀ f : Field, ∃ text, environment.lookup f.envVariable = some text ∧
        (s.get f).Spelled text.toList) →
      load t p overrides environment = Stored.read t p >>= fun _ => pure s := by
  constructor
  · intro entries environment hwell hlast hvariables
    obtain ⟨overrides, hoverrides, hneat, hlookup⟩ := Override.lookup_ofEntries hs hwell
    obtain ⟨hvalid, hgiven⟩ :=
      Override.ofField?_of_lookup hs hneat fun f => hlookup f (hlast f)
    refine ⟨overrides, hoverrides, load_of_valid hvalid
      (Override.valid_ofEnvironment hs.accepted hvariables) fun f base => ?_⟩
    rw [hgiven f]
    cases hvariable : Override.ofVariable? environment f with
    | none => rfl
    | some v => exact hvariables f v hvariable
  · intro overrides environment hvalid hspelled
    have hvariables : ∀ f, Override.ofVariable? environment f = some (s.get f) := by
      intro f
      obtain ⟨text, hset, htext⟩ := hspelled f
      rw [Override.ofVariable?, hset, Option.bind_some, hs.ofText_spelled htext]
      rfl
    refine load_of_valid hvalid (Override.valid_ofEnvironment hs.accepted fun f v hv => ?_)
      fun f base => ?_
    · exact Option.some.inj (hv.symm.trans (hvariables f))
    · rw [hvariables f]
      rfl

/-- An entry for a field, with blanks around the name and around the text of the value. -/
def padded (s : Settings) (f : Field) : Value :=
  .text (String.ofList ([' '] ++ f.name.toList ++ ['\t'] ++
    '=' :: (['\u00a0'] ++ (s.get f).display.toList ++ ['\n'])))

theorem spells_padded (s : Settings) (f : Field) : Override.Spells f (s.get f) (s.padded f) := by
  have hblank : ∀ b, isBlank b = true → ∀ c ∈ [b], isBlank c = true := fun b hb =>
    List.forall_mem_singleton.mpr hb
  exact ⟨[' '], ['\t'], _, hblank ' ' rfl, hblank '\t' rfl,
    ⟨['\u00a0'], ['\n'], hblank '\u00a0' rfl, hblank '\n' rfl, rfl⟩, rfl⟩

/-- Over a file with other values, from entries in another order than that of the fields and with
one before them that has no number; and from variables, over an override that has another number. -/
theorem altered_spelled : altered.Declared ∧
    (∃ overrides, Override.ofEntries (.text "list_depth_cap=six" ::
        Field.all.reverse.map altered.padded) = .ok overrides ∧
      load mixedFile ⟨"", ["a.json"]⟩ overrides [] = .ok altered) ∧
    load mixedFile ⟨"", ["a.json"]⟩ [("list_depth_cap", .text "7")]
      (Field.all.map fun f => (f.envVariable, (altered.get f).display)) = .ok altered := by
  have hread : ∃ stored, Stored.read mixedFile ⟨"", ["a.json"]⟩ = .ok stored := by
    have hsome : (Stored.read mixedFile ⟨"", ["a.json"]⟩).toOption.isSome = true := by
      decide +kernel
    obtain ⟨stored, hstored⟩ := Option.isSome_iff_exists.mp hsome
    exact ⟨stored, Failure.eq_ok_of_toOption hstored⟩
  obtain ⟨stored, hstored⟩ := hread
  obtain ⟨hentries, hvariables⟩ := load_spelled altered_declared mixedFile ⟨"", ["a.json"]⟩
  refine ⟨altered_declared, ?_, ?_⟩
  · have hwell : ∀ e ∈ .text "list_depth_cap=six" :: Field.all.reverse.map altered.padded,
        ∃ entry, Override.ofEntry e = .ok entry := by
      refine List.forall_mem_cons.mpr ⟨⟨("list_depth_cap", "six"), ?_⟩, fun e he => ?_⟩
      · exact Failure.eq_ok_of_toOption (by decide +kernel)
      · obtain ⟨f, -, rfl⟩ := List.mem_map.mp he
        exact ⟨_, Override.ofEntry_of_spells altered_declared (altered.spells_padded f)⟩
    have hlast : ∀ f, Override.SpellsLast
        (.text "list_depth_cap=six" :: Field.all.reverse.map altered.padded) f (altered.get f) :=
      fun f => Override.spellsLast_of_map altered_declared altered.spells_padded
        [.text "list_depth_cap=six"] (by decide) (List.mem_reverse.mpr f.mem_all)
    obtain ⟨overrides, hoverrides, hload⟩ := hentries _ [] hwell hlast fun f v hv => by cases hv
    rw [hstored] at hload
    exact ⟨overrides, hoverrides, hload⟩
  · rw [hvariables, hstored]
    · rfl
    · exact List.forall_mem_singleton.mpr ⟨.whole 7, rfl, rfl⟩
    · intro f
      refine ⟨(altered.get f).display, ?_, Value.spelled_display _⟩
      cases f <;> rfl

end Settings

end Concentric
