import Concentric.Proofs.JsonReadBack
import Concentric.Proofs.LineBreaks
import Concentric.Proofs.SavingFrame
import Concentric.Proofs.SettingsFile

/-! Settings saved and loaded again. Where the fields have values of the types that are declared for
them, a settings file is read back as the entries that were written there, sorted by name and with
the version among them. So whatever was at the path and around it before, saving either fails or
leaves a file there that the same settings are loaded from. It does not if the file that is written
first is reached through the path of the settings, as by a link that then takes its place and leads
to itself; nor if that file may not be read. -/

namespace Concentric

/-- Of entries with different keys each is found under its key. -/
theorem lookup_of_mem {es : List (String × Value)} {key : String} {v : Value}
    (hkeys : (es.map Prod.fst).Nodup) (h : (key, v) ∈ es) : es.lookup key = some v := by
  obtain ⟨before, after, rfl⟩ := List.append_of_mem h
  refine List.lookup_eq_some_iff.mpr ⟨before, after, rfl, fun e he => ?_⟩
  rw [List.map_append] at hkeys
  have hne := (List.nodup_append.mp hkeys).2.2 e.1 (List.mem_map_of_mem he) key List.mem_cons_self
  simpa using Ne.symm hne

namespace Value

variable {v : Value}

/-- The value is a text, a truth value, or a whole number that is not too long to be read back. -/
inductive IsSimple : Value → Prop
  | truth (b : Bool) : IsSimple (.truth b)
  | whole {n : Int} (short : Literal.Short n) : IsSimple (.whole n)
  | text (s : String) : IsSimple (.text s)

theorem IsSimple.plain_eq (h : v.IsSimple) : v.plain = v := by
  cases h <;> rfl

theorem IsSimple.arranged_eq (h : v.IsSimple) (sorted : Bool) : v.arranged sorted = v := by
  cases h <;> rfl

theorem IsSimple.kept (h : v.IsSimple) (room : Nat) : v.Kept room := by
  cases h with
  | truth b => exact .truth b
  | whole short => exact .whole short
  | text s => exact .text s

end Value

namespace Settings

variable {s : Settings} {t t' : FileTree} {p : Path} {text : String}
  {environment : List (String × String)}

/-- Every field has a value of the type that is declared for it and within its bound, and the
numbers are no longer than may be read. -/
structure Declared (s : Settings) : Prop where
  valid : s.Valid
  number : ∀ f : Field, f.kind = .number → ∃ n, s.get f = .whole n ∧ Literal.Short n
  switch : ∀ f : Field, f.kind = .switch → ∃ b, s.get f = .truth b

theorem Declared.isSimple (h : s.Declared) (f : Field) : (s.get f).IsSimple := by
  cases hkind : f.kind with
  | number =>
    obtain ⟨n, hn, hshort⟩ := h.number f hkind
    rw [hn]
    exact .whole hshort
  | switch =>
    obtain ⟨b, hb⟩ := h.switch f hkind
    rw [hb]
    exact .truth b
  | name =>
    cases f with
    | markdownPreset => exact .text _
    | _ => cases hkind

def fileEntries (s : Settings) : List (String × Value) := s.entries ++ [("version", .whole 1)]

theorem stored_eq (s : Settings) : s.stored = .map s.fileEntries := rfl

theorem fileEntries_keys (s : Settings) : (s.fileEntries.map Prod.fst).Nodup := by
  have hkeys : s.fileEntries.map Prod.fst = Field.all.map Field.name ++ ["version"] := rfl
  rw [hkeys]
  decide

theorem Declared.isSimple_of_mem (h : s.Declared) {e : String × Value}
    (he : e ∈ s.fileEntries) : e.2.IsSimple := by
  rcases List.mem_append.mp he with hfield | hversion
  · obtain ⟨f, -, rfl⟩ := List.mem_map.mp hfield
    show (s.get f).plain.IsSimple
    rw [(h.isSimple f).plain_eq]
    exact h.isSimple f
  · rw [List.mem_singleton.mp hversion]
    exact .whole (by decide)

theorem Declared.mem_fileEntries (h : s.Declared) (f : Field) :
    (f.name, s.get f) ∈ s.fileEntries := by
  refine List.mem_append_left _ (List.mem_map.mpr ⟨f, f.mem_all, ?_⟩)
  rw [(h.isSimple f).plain_eq]

/-- The text of a settings file is read as its entries, sorted by name. -/
theorem Declared.read_stored (h : s.Declared) (htext : Json.document true s.stored = .ok text) :
    Json.read text.toList = .ok (.map (Json.ordered true s.fileEntries)) ∧
      ∀ c ∈ text.toList, Json.IsPrinted c := by
  have hkept : s.stored.Kept Json.depthLimit :=
    .map (fun e he => (h.isSimple_of_mem he).kept _) s.fileEntries_keys
  obtain ⟨text', htext', hread, hprinted⟩ := Json.read_document hkept true
  obtain rfl := Except.ok.inj (htext'.symm.trans htext)
  have hsame : Value.arrangedEntries true s.fileEntries = s.fileEntries := by
    rw [Value.arrangedEntries_eq_map]
    refine (List.map_congr_left fun e he => ?_).trans (List.map_id _)
    rw [(h.isSimple_of_mem he).arranged_eq]
    rfl
  refine ⟨?_, hprinted⟩
  rw [hread, stored_eq, Value.arranged, hsame]

/-- The entries of a settings file make the settings that were written there. -/
theorem Declared.ofEntries (h : s.Declared) :
    Stored.ofEntries (Json.ordered true s.fileEntries) = .ok s := by
  have hperm := Json.ordered_perm true s.fileEntries
  have hkeys := (hperm.map Prod.fst).nodup_iff.mpr s.fileEntries_keys
  have hheld : ∀ f : Field,
      (Json.ordered true s.fileEntries).lookup f.name = some (s.get f) := fun f =>
    lookup_of_mem hkeys (hperm.mem_iff.mpr (h.mem_fileEntries f))
  rw [Stored.ofEntries]
  simp only [hheld, Option.getD_some]
  exact ofValues_get h.valid

/-- The octets of a settings file stand for the settings that were written there. -/
theorem Declared.ofOctets (h : s.Declared) (htext : Json.document true s.stored = .ok text) :
    ∃ stored, Stored.ofOctets (Utf8.octets text) = .ok stored ∧ stored.settings = s := by
  obtain ⟨hread, hprinted⟩ := h.read_stored htext
  have hnormal : Lines.normalize text.toList = text.toList :=
    Lines.normalize_of_notMem fun hcr => absurd (hprinted _ hcr) (by decide)
  have hutf8 : Codec.readUtf8 (Utf8.octets text) = .ok text.toList :=
    Codec.readUtf8_eq_ok_iff.mpr rfl
  refine ⟨.entries (Json.ordered true s.fileEntries), ?_, ?_⟩
  · rw [Stored.ofOctets, hutf8, Failure.ok_bind, hnormal, Stored.ofText, hread]
  · rw [Stored.settings, h.ofEntries]

end Settings

namespace FileTree

variable {t u v : FileTree} {a b p q r : Place} {names : List String} {name name' : String}
  {visited : List Place} {links : Nat} {e : Entry} {path source target : Path} {bs : List UInt8}

/-- The way that a path leads passes the place, or ends there. -/
def Passes (t : FileTree) (path : Path) (q : Place) : Prop :=
  ∃ visited links r, Leads t (start path t.workingDirectory) path.names visited links r ∧
    q ∈ r :: visited

theorem KeepsWays.passes (h : t.KeepsWays u) (hq : t.Passes path q) : u.Passes path q := by
  obtain ⟨visited, links, r, hway, hmem⟩ := hq
  exact ⟨visited, links, r, h.workingDirectory ▸ h.leads hway, hmem⟩

theorem Moves.directory (h : Moves a b e t u) (hdir : t.entry? q = some .directory) :
    u.entry? q = some .directory := by
  rw [h.entry?_eq (fun heq => ?_) fun heq => h.free (heq ▸ hdir)]
  · exact hdir
  · exact h.plain (Option.some.inj (h.entry.symm.trans (heq ▸ hdir)))

theorem Moves.leads (h : Moves a b e t u) (hway : Leads t p names visited links r)
    (hpast : a ≠ b → a ∉ visited ∧ b ∉ visited) : Leads u p names visited links r := by
  rcases h.moved with ⟨rfl, -⟩ | ⟨hne, -⟩
  · exact hway
  obtain ⟨ha, hb⟩ := hpast hne
  refine hway.transfer (fun q hq => h.directory hq) fun q hq target => ?_
  rw [h.entry?_eq (fun heq => ha (heq ▸ hq)) fun heq => hb (heq ▸ hq)]

theorem Moves.entry?_target (h : Moves a b e t u) : u.entry? b = some e := by
  rcases h.moved with ⟨rfl, rfl | ⟨n, ha, hb⟩⟩ | ⟨hne, rfl⟩
  · exact h.entry
  · rw [hb, ← ha, h.entry]
  · refine entry?_set_self ?_ e
    rw [entry?_erase_of_ne hne.symm]
    exact h.free

theorem Moves.enter (h : Moves a b e t u) (hq : t.enter p name = .ok q) :
    u.enter p name = .ok q :=
  enter_eq_ok_iff.mpr ((enter_eq_ok_iff.mp hq).imp_left h.directory)

/-- The way to a file that has been moved to another name in a directory. -/
theorem Moves.leads_file {d : Place} {n : Nat} (h : Moves a b (.file n) t u)
    (hway : Leads t p names visited links d) (hb : t.enter d name = .ok b)
    (hpast : a ≠ b → b ∉ visited) : Leads u p (names ++ [name]) (visited ++ [b]) (links + 0) b := by
  have hdir := (enter_eq_ok_iff.mp hb).1
  have ha : a ∉ visited := fun hmem => by
    obtain rfl := hway.end_of_file hmem h.entry
    cases h.entry.symm.trans hdir
  have hplain : ∀ target, u.entry? b ≠ some (.link target) := by
    rw [h.entry?_target]
    exact nofun
  exact (h.leads hway fun hne => ⟨ha, hpast hne⟩).append (.step (h.enter hb) hplain (.here b))

/-- The way through a link to a file that has been moved to another name in its directory. -/
theorem Moves.leads_link {d : Place} {n links' : Nat} {visited' : List Place}
    (h : Moves a b (.link path) t u) (hway : Leads t p names visited links d)
    (hb : t.enter d name = .ok b) (hbeside : a.dropLast = b.dropLast)
    (hmore : Leads t (start path a.dropLast) path.names visited' links' r)
    (hfile : t.entry? r = some (.file n)) (hpast : a ≠ b → b ∉ visited ∧ b ∉ visited') :
    Leads u p (names ++ [name]) (visited ++ b :: visited') (links + (links' + 1)) r := by
  have hdir := (enter_eq_ok_iff.mp hb).1
  have ha : a ∉ visited := hway.notMem_of_file hdir h.entry hmore hfile
  have ha' : a ∉ visited' := hmore.notMem_of_link h.entry
  have hfirst := h.leads hway fun hne => ⟨ha, (hpast hne).1⟩
  have hlast := h.leads hmore fun hne => ⟨ha', (hpast hne).2⟩
  rw [hbeside, ← List.append_nil path.names] at hlast
  exact hfirst.append (.link (h.enter hb) h.entry?_target hlast)

/-- What is moved from one path to another in one directory goes from name to name there. -/
theorem rename_beside (hroot : source.root = target.root) (hsource : source.names = names ++ [name'])
    (htarget : target.names = names ++ [name]) (hup : name' ≠ "..")
    (h : v.rename source target = .ok u) : ∃ d visited links a b e,
      Leads v (start source v.workingDirectory) names visited links d ∧ links ≤ linkLimit ∧
      v.enter d name' = .ok a ∧ v.enter d name = .ok b ∧ a.dropLast = b.dropLast ∧
      v.spot target = .ok b ∧ checkPath target = .ok () ∧
      start target u.workingDirectory = start source v.workingDirectory ∧ Moves a b e v u := by
  obtain ⟨a, b, e, ha, hb, hlast, hmoves⟩ := rename_eq_ok h
  obtain ⟨-, d, visited, links, -, hway, henter⟩ := (spot_eq_ok_iff hsource).mp ha
  obtain ⟨hcheck, _, _, _, hlimit, hway', henter'⟩ := (spot_eq_ok_iff htarget).mp hb
  have hstart : start target v.workingDirectory = start source v.workingDirectory := by
    unfold start
    rw [hroot]
  rw [hstart] at hway'
  obtain ⟨rfl, rfl, rfl⟩ := hway.unique hway'
  have hname : name ≠ ".." := by simpa [htarget] using hlast
  have hbeside : a.dropLast = b.dropLast := by
    rw [(enter_eq_ok_iff.mp henter).2.2, (enter_eq_ok_iff.mp henter').2.2, if_neg hup, if_neg hname]
    simp
  exact ⟨d, visited, links, a, b, e, hway, hlimit, henter, henter', hbeside, hb, hcheck,
    hmoves.workingDirectory ▸ hstart, hmoves⟩

/-- What a path leads to is what the path leads to that it is moved to, if they have the same
directory and the way does not pass the second one. -/
theorem read_of_rename (hroot : source.root = target.root) (hsource : source.names = names ++ [name'])
    (htarget : target.names = names ++ [name]) (hup : name' ≠ "..")
    (hpast : source ≠ target → ∀ b, v.spot target = .ok b → ¬ v.Passes source b)
    (hrename : v.rename source target = .ok u) (hread : v.read source = .ok bs) :
    u.read target = .ok bs := by
  obtain ⟨d, visited, links, a, b, e, hway, hlimit, henter, henter', hbeside, hb, hcheck, hstart,
    hmoves⟩ := rename_beside hroot hsource htarget hup hrename
  obtain ⟨r, n, hr, hfile, hopen, hbs⟩ := read_eq_ok_iff.mp hread
  obtain ⟨d', _, _, a', hway', hentered, ha, hon⟩ := place_cases hsource hr
  obtain ⟨rfl, rfl, rfl⟩ := hway.unique hway'
  obtain rfl := Except.ok.inj (henter.symm.trans hentered)
  have hpassed : ∀ {rest links'}, Leads v d [name'] rest links' r → a ≠ b →
      b ∉ r :: (visited ++ rest) := by
    intro rest links' hrest hne hmem
    have hother : source ≠ target := by
      rintro rfl
      exact hne (Except.ok.inj (ha.symm.trans hb))
    exact hpast hother b hb ⟨_, _, r, hsource ▸ hway.append hrest, hmem⟩
  have hnode : (u.nodes n).isReadable = true ∧ (u.nodes n).octets = bs := by
    rw [hmoves.nodes]
    exact ⟨hopen, hbs⟩
  rcases hon with ⟨rfl, hplain⟩ | ⟨path, visited', links', hlink, hmost, hmore⟩
  · obtain rfl : e = .file n := Option.some.inj (hmoves.entry.symm.trans hfile)
    have hpast' : r ≠ b → b ∉ visited := fun hne hmem =>
      hpassed (.step henter hplain (.here r)) hne
        (List.mem_cons_of_mem _ (List.mem_append_left _ hmem))
    have hleads := hmoves.leads_file hway henter' hpast'
    rw [← hstart, ← htarget] at hleads
    exact read_eq_ok_iff.mpr ⟨b, n, place_eq_ok_iff.mpr ⟨hcheck, _, _, hlimit, hleads⟩,
      hmoves.entry?_target, hnode⟩
  · obtain rfl : e = .link path := Option.some.inj (hmoves.entry.symm.trans hlink)
    have hpast' : a ≠ b → r ≠ b ∧ b ∉ visited ∧ b ∉ visited' := by
      intro hne
      have hmem := hpassed (.link henter hlink (by rwa [List.append_nil])) hne
      simp only [List.mem_cons, List.mem_append, not_or] at hmem
      exact ⟨Ne.symm hmem.1, hmem.2.1, hmem.2.2.2⟩
    have hstays : u.entry? r = some (.file n) := by
      rcases hmoves.moved with ⟨rfl, -⟩ | ⟨hne, -⟩
      · exact hfile
      · rw [hmoves.entry?_eq (fun heq => ?_) (hpast' hne).1, hfile]
        cases (heq ▸ hlink).symm.trans hfile
    have hleads := hmoves.leads_link hway henter' hbeside hmore hfile fun hne => (hpast' hne).2
    rw [← hstart, ← htarget] at hleads
    exact read_eq_ok_iff.mpr ⟨r, n, place_eq_ok_iff.mpr ⟨hcheck, _, _, hmost, hleads⟩, hstays, hnode⟩

end FileTree

namespace Settings

variable {s : Settings} {t t' : FileTree} {p : Path} {text : String}
  {environment : List (String × String)}

theorem staging_eq_ok {staging : Path} (h : p.withSuffix ".tmp" = .ok staging) :
    ∃ names name name', p.names = names ++ [name] ∧ staging.root = p.root ∧
      staging.names = names ++ [name'] ∧ name' ≠ ".." := by
  unfold Path.withSuffix at h
  split at h
  · cases h
  · next name hname =>
    obtain ⟨names, hnames⟩ := List.getLast?_eq_some_iff.mp hname
    extract_lets cs stem at h
    obtain rfl := Except.ok.inj h
    refine ⟨names, name, String.ofList stem ++ ".tmp", hnames, rfl, ?_, fun heq => ?_⟩
    · simp [Path.child, Path.parent, hnames]
    · have hlength := congrArg String.length heq
      rw [String.length_append] at hlength
      exact absurd hlength (Nat.ne_of_gt (Nat.lt_add_left _ (by decide)))

/-- The path that settings are written to first does not lead through the path of the settings, and
if it leads to a file, that may be read. -/
structure Clear (p : Path) (t : FileTree) : Prop where
  past : ∀ {staging b}, p.withSuffix ".tmp" = .ok staging → staging ≠ p → t.spot p = .ok b →
    ¬ t.Passes staging b
  isReadable : ∀ {staging q n}, p.withSuffix ".tmp" = .ok staging → t.place staging = .ok q →
    t.entry? q = some (.file n) → (t.nodes n).isReadable = true

/-- The way is clear if it leads past the path of the settings to a new file. -/
theorem Clear.of_leads {staging : Path} {visited : List Place} {links : Nat} {q b : Place}
    (hstaging : p.withSuffix ".tmp" = .ok staging)
    (hway : t.Leads (FileTree.start staging t.workingDirectory) staging.names visited links q)
    (hnew : t.entry? q = none) (hb : t.spot p = .ok b) (hpast : b ∉ q :: visited) : Clear p t := by
  refine ⟨fun {staging' b'} hstaging' _ hb' hpasses => ?_, fun {staging' q' n} hstaging' hq' hfile => ?_⟩
  · obtain rfl := Except.ok.inj (hstaging.symm.trans hstaging')
    obtain rfl := Except.ok.inj (hb.symm.trans hb')
    obtain ⟨_, _, _, hway', hmem⟩ := hpasses
    obtain ⟨rfl, -, rfl⟩ := hway.unique hway'
    exact hpast hmem
  · obtain rfl := Except.ok.inj (hstaging.symm.trans hstaging')
    obtain ⟨-, _, _, -, hway'⟩ := FileTree.place_eq_ok_iff.mp hq'
    obtain ⟨-, -, rfl⟩ := hway.unique hway'
    cases hnew.symm.trans hfile

/-- Where saving succeeds, the file has the text of the settings. -/
theorem read_of_save (hclear : Clear p (opened t p)) (h : (save p s).on t = (.ok (), t')) :
    ∃ text, Json.document true s.stored = .ok text ∧ t'.read p = .ok (Utf8.octets text) := by
  rcases save_cases h with ⟨f, hf, -⟩ |
    ⟨staging, hstaging, ⟨_, _, _, hf, -⟩ | ⟨text, v, -, htext, hwrite, hrename⟩⟩
  · cases hf
  · cases hf
  obtain ⟨q, n, hq, hwrites, hoctets⟩ := FileTree.write_eq_ok hwrite
  obtain ⟨names, name, name', hnames, hroot, hnames', hup⟩ := staging_eq_ok hstaging
  have hback := hwrites.keepsWays_back
  refine ⟨text, htext, FileTree.read_of_rename hroot hnames' hnames hup (fun hother b hb hpasses =>
    hclear.past hstaging hother (hback.spot hb) (hback.passes hpasses)) hrename ?_⟩
  exact FileTree.read_eq_ok_iff.mpr ⟨q, n, hwrites.keepsWays.place hq, hwrites.file,
    hwrites.isReadable (hclear.isReadable hstaging hq), hoctets⟩

/-- Settings with another value in every field than what holds in general. -/
def altered : Settings where
  listDepthCap := .whole 12
  markdownPreset := .jsDefault
  enableTables := .truth false
  enableStrikethrough := .truth false
  tokenCacheSize := .whole 0
  debugLogging := .truth true

theorem altered_declared : altered.Declared where
  valid := ⟨rfl, rfl⟩
  number f hf := by
    cases f with
    | listDepthCap | tokenCacheSize => exact ⟨_, rfl, by decide⟩
    | _ => cases hf
  switch f hf := by
    cases f with
    | enableTables | enableStrikethrough | debugLogging => exact ⟨_, rfl⟩
    | _ => cases hf

/-- A working directory with settings in it, and a link to them under the name that is written to
first. -/
def linkedSettings : FileTree :=
  (FileTree.oneFile "settings.json" (Utf8.octets "\x7b\x7d")).set ["work", "settings.tmp"]
    (.link ⟨"", ["settings.json"]⟩)

/-- A working directory with a file under that name, which may be written but not read. -/
def hiddenSettings : FileTree :=
  { FileTree.oneFile "settings.tmp" [] with nodes := fun _ => { isReadable := false } }

theorem standard_declared : standard.Declared where
  valid := ⟨rfl, rfl⟩
  number f hf := by
    cases f with
    | listDepthCap | tokenCacheSize => exact ⟨_, rfl, by decide⟩
    | _ => cases hf
  switch f hf := by
    cases f with
    | enableTables | enableStrikethrough | debugLogging => exact ⟨_, rfl⟩
    | _ => cases hf

end Settings

end Concentric
