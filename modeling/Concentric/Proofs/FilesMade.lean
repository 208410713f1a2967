import Concentric.Logging.Setup
import Concentric.Proofs.Stream
import Concentric.Proofs.Ways

/-! Files that are there to stay. What is made or written takes a place where nothing was, or changes
what a file holds, so that all ways through the tree stay. A directory and a log file that could be
made once are thus there after anything has been written to the file, and can be made again. -/

namespace Concentric

namespace FileTree

variable {t t' u : FileTree} {p q r : Place} {names : List String} {e : Entry} {path : Path}
  {bs : List UInt8} {n : Nat}

/-! ## Entries after a change -/

theorem isGiven_set (t : FileTree) (r : Place) (e : Entry) (p : Place) :
    (t.set r e).isGiven p = t.isGiven p := rfl

theorem isGiven_erase (t : FileTree) (r p : Place) : (t.erase r).isGiven p = t.isGiven p := rfl

theorem entry?_set_of_ne (e : Entry) (h : p ≠ r) : entry? (t.set r e) p = t.entry? p := by
  unfold entry?
  rw [isGiven_set, get?_set, if_neg h]

theorem entry?_erase_of_ne (h : p ≠ r) : entry? (t.erase r) p = t.entry? p := by
  unfold entry?
  rw [isGiven_erase, get?_erase, if_neg h]

/-- Only a directory can be in the place of one that is there in any case. -/
theorem not_isGiven (h : t.entry? r ≠ some .directory) : t.isGiven r = false := by
  rw [Bool.eq_false_iff]
  exact fun hgiven => h (if_pos hgiven)

theorem entry?_set_self (h : t.entry? r ≠ some .directory) (e : Entry) :
    entry? (t.set r e) r = some e := by
  unfold entry?
  rw [isGiven_set, not_isGiven h, get?_set, if_pos rfl, if_neg Bool.false_ne_true]

/-- An entry at a free place that is no link changes no way. -/
theorem keepsWays_set (hfree : t.entry? r = none) (hplain : ∀ target, e ≠ .link target) :
    t.KeepsWays (t.set r e) := by
  have hnot : t.entry? r ≠ some .directory := by rw [hfree]; exact nofun
  refine ⟨rfl, fun p hp => ?_, fun p target => ?_⟩
  · have hne : p ≠ r := fun heq => hnot (heq ▸ hp)
    rwa [entry?_set_of_ne e hne]
  · by_cases hp : p = r
    · subst hp
      rw [entry?_set_self hnot, hfree]
      exact iff_of_false (fun h => hplain target (Option.some.inj h)) nofun
    · rw [entry?_set_of_ne e hp]

/-! ## Looking up -/

theorem lookup_eq_ok_iff :
    t.lookup path = .ok e ↔ ∃ q, t.place path = .ok q ∧ t.entry? q = some e := by
  unfold lookup
  rw [Failure.bind_eq_ok]
  refine exists_congr fun q => and_congr_right fun _ => ?_
  cases t.entry? q with
  | none => simp [throw, throwThe, MonadExceptOf.throw]
  | some e' => simp [pure, Except.pure]

theorem read_eq_ok_iff : t.read path = .ok bs ↔ ∃ q n, t.place path = .ok q ∧
    t.entry? q = some (.file n) ∧ (t.nodes n).isReadable = true ∧ (t.nodes n).octets = bs := by
  have hread : t.read path = .ok bs ↔ ∃ n, t.lookup path = .ok (.file n) ∧
      (t.nodes n).isReadable = true ∧ (t.nodes n).octets = bs := by
    unfold read
    cases t.lookup path with
    | error fault => simp [bind, Except.bind]
    | ok e =>
      cases e with
      | directory | link => simp [bind, Except.bind, throw, throwThe, MonadExceptOf.throw]
      | file n =>
        simp only [bind, Except.bind, pure, Except.pure, throw, throwThe, MonadExceptOf.throw]
        split <;> simp_all
  rw [hread]
  simp only [lookup_eq_ok_iff]
  constructor
  · rintro ⟨n, ⟨q, hq, he⟩, hopen, hbs⟩
    exact ⟨q, n, hq, he, hopen, hbs⟩
  · rintro ⟨q, n, hq, he, hopen, hbs⟩
    exact ⟨n, ⟨q, hq, he⟩, hopen, hbs⟩

theorem isDirectory_iff : t.isDirectory path = true ↔ t.lookup path = .ok .directory := by
  unfold isDirectory
  cases t.lookup path with
  | error f => simp
  | ok e => cases e <;> simp

theorem KeepsWays.lookup (h : t.KeepsWays u) (hdir : t.lookup path = .ok .directory) :
    u.lookup path = .ok .directory := by
  obtain ⟨q, hq, he⟩ := lookup_eq_ok_iff.mp hdir
  exact lookup_eq_ok_iff.mpr ⟨q, h.place hq, h.directory q he⟩

/-- What is at the spot of a path is what the path leads to, if it is no link. -/
theorem place_of_spot (h : t.spot path = .ok q) (hplain : ∀ target, t.entry? q ≠ some (.link target)) :
    t.place path = .ok q := by
  rcases List.eq_nil_or_concat' path.names with hnil | ⟨names, name, hnames⟩
  · unfold spot at h
    unfold place
    rw [hnil] at h ⊢
    obtain ⟨_, hcheck, d, hd, h⟩ := by simpa only [Failure.bind_eq_ok] using h
    obtain rfl := Except.ok.inj h
    exact Failure.bind_eq_ok.mpr ⟨_, hcheck, hd⟩
  · obtain ⟨hcheck, d, visited, n, hn, hway, henter⟩ := (spot_eq_ok_iff hnames).mp h
    refine place_eq_ok_iff.mpr ⟨hcheck, visited ++ [q], n + 0, hn, ?_⟩
    rw [hnames]
    exact hway.append (.step henter hplain (.here q))

theorem KeepsWays.spot (h : t.KeepsWays u) (hq : t.spot path = .ok q) : u.spot path = .ok q := by
  rcases List.eq_nil_or_concat' path.names with hnil | ⟨names, name, hnames⟩
  · unfold FileTree.spot at hq ⊢
    rw [hnil] at hq ⊢
    simpa only [h.workingDirectory, List.dropLast_nil, follow_nil, List.getLast?_nil] using hq
  · obtain ⟨hcheck, d, visited, n, hn, hway, henter⟩ := (spot_eq_ok_iff hnames).mp hq
    obtain ⟨hdir, hname⟩ := enter_eq_ok_iff.mp henter
    exact (spot_eq_ok_iff hnames).mpr ⟨hcheck, d, visited, n, hn,
      h.workingDirectory ▸ h.leads hway, enter_eq_ok_iff.mpr ⟨h.directory d hdir, hname⟩⟩

/-! ## Directories that are made -/

theorem makeDirectory_eq_ok (h : t.makeDirectory path = .ok t') : ∃ q, t.spot path = .ok q ∧
    t.entry? q = none ∧ t' = t.set q .directory := by
  obtain ⟨q, hq, h⟩ := Failure.bind_eq_ok.mp h
  split at h
  · cases h
  · next hnone =>
    split at h
    · exact ⟨q, hq, hnone, (Except.ok.inj h).symm⟩
    · cases h

theorem keepsWays_makeDirectory (h : t.makeDirectory path = .ok t') : t.KeepsWays t' := by
  obtain ⟨q, -, hfree, rfl⟩ := makeDirectory_eq_ok h
  exact keepsWays_set hfree nofun

theorem lookup_of_makeDirectory (h : t.makeDirectory path = .ok t') :
    t'.lookup path = .ok .directory := by
  have hkeeps := keepsWays_makeDirectory h
  obtain ⟨q, hq, hfree, rfl⟩ := makeDirectory_eq_ok h
  have hthere : entry? (t.set q .directory) q = some .directory :=
    entry?_set_self (by rw [hfree]; exact nofun) _
  exact lookup_eq_ok_iff.mpr ⟨q, place_of_spot (hkeeps.spot hq) (by rw [hthere]; exact nofun), hthere⟩

/-! ## Files that are written -/

/-- Nothing is changed but the file at a place, which is new if nothing was there. It may be written
again, and read unless it could not be before. -/
structure Writes (q : Place) (n : Nat) (t u : FileTree) : Prop where
  workingDirectory : u.workingDirectory = t.workingDirectory
  entry : ∀ r, r ≠ q → u.entry? r = t.entry? r
  file : u.entry? q = some (.file n)
  before : t.entry? q = some (.file n) ∨ t.entry? q = none ∧ ∀ r, t.entry? r ≠ some (.file n)
  node : ∀ k, k ≠ n → u.nodes k = t.nodes k
  isWritable : (u.nodes n).isWritable = true
  isReadable : (t.entry? q = some (.file n) → (t.nodes n).isReadable = true) →
    (u.nodes n).isReadable = true

theorem Writes.keepsWays (h : Writes q n t u) : t.KeepsWays u := by
  have hfree : ∀ target, t.entry? q ≠ some (.link target) := by
    rcases h.before with hfile | ⟨hnone, -⟩
    · rw [hfile]
      exact nofun
    · rw [hnone]
      exact nofun
  refine ⟨h.workingDirectory, fun r hr => ?_, fun r target => ?_⟩
  · by_cases hq : r = q
    · subst hq
      rcases h.before with hfile | ⟨hnone, -⟩
      · cases hfile.symm.trans hr
      · cases hnone.symm.trans hr
    · rwa [h.entry r hq]
  · by_cases hq : r = q
    · subst hq
      rw [h.file]
      exact iff_of_false nofun (hfree target)
    · rw [h.entry r hq]

/-- No directory and no link is new. -/
theorem Writes.keepsWays_back (h : Writes q n t u) : u.KeepsWays t := by
  refine ⟨h.workingDirectory.symm, fun r hr => ?_, fun r target => (h.keepsWays.link r target).symm⟩
  have hq : r ≠ q := by
    rintro rfl
    cases h.file.symm.trans hr
  rwa [← h.entry r hq]

theorem Writes.fill (h : Writes q n t u) (bs : List UInt8) : Writes q n t (u.fill n bs) := by
  have hself : (u.fill n bs).nodes n = { u.nodes n with octets := bs } := if_pos rfl
  refine ⟨h.workingDirectory, h.entry, h.file, h.before, fun k hk => ?_, ?_, fun hopen => ?_⟩
  · exact (if_neg hk).trans (h.node k hk)
  · rw [hself]
    exact h.isWritable
  · rw [hself]
    exact h.isReadable hopen

theorem obtain_eq_ok (h : t.obtain q = .ok (n, u)) : Writes q n t u := by
  unfold obtain at h
  split at h
  · cases h
  · cases h
  · next k hfile =>
    split at h
    · next hw =>
      obtain ⟨rfl, rfl⟩ := Prod.mk.inj (Except.ok.inj h)
      exact ⟨rfl, fun _ _ => rfl, hfile, Or.inl hfile, fun _ _ => rfl, hw, fun hopen => hopen hfile⟩
    · cases h
  · next hnone =>
    split at h
    · obtain ⟨rfl, rfl⟩ := Prod.mk.inj (Except.ok.inj h)
      have hself : (t.addFile q).nodes t.freshNode = {} := if_pos rfl
      have hentry : ∀ r, entry? (t.addFile q) r = entry? (t.set q (.file t.freshNode)) r :=
        fun _ => rfl
      refine ⟨rfl, fun r hr => (hentry r).trans (entry?_set_of_ne _ hr), ?_, ?_, fun k hk => if_neg hk,
        by rw [hself], fun _ => by rw [hself]⟩
      · rw [hentry, entry?_set_self (by rw [hnone]; exact nofun)]
      · exact Or.inr ⟨hnone, fun r hr => ne_freshNode hr rfl⟩
    · cases h

theorem put_cases (t : FileTree) (n : Nat) (kept bs : List UInt8) :
    t.put n kept bs = (.ok (), t.fill n (kept ++ bs)) ∨
      bs ≠ [] ∧ ∃ part, t.put n kept bs = (.error .noRoom, t.fill n part) := by
  unfold put
  split
  · exact Or.inl rfl
  · split
    · exact Or.inl rfl
    · next hfull => exact Or.inr ⟨fun hnil => hfull (Or.inl hnil), _, rfl⟩

/-- Writing fails and changes nothing, or it changes the file that the path leads to, whether all of
it is written or not. -/
theorem putAt_cases {kept : List UInt8 → List UInt8} {x : Except FileFault Unit}
    (h : t.putAt path kept bs = (x, t')) :
    (∃ f, t.place path >>= t.obtain = .error f ∧ x = .error f ∧ t' = t) ∨
      ∃ q n, t.place path = .ok q ∧ Writes q n t t' ∧
        ((x = .ok () ∧ ∃ old, (t'.nodes n).octets = kept old ++ bs) ∨
          bs ≠ [] ∧ x = .error .noRoom) := by
  unfold putAt at h
  split at h
  · next f hf =>
    obtain ⟨rfl, rfl⟩ := Prod.mk.inj h
    exact Or.inl ⟨f, hf, rfl, rfl⟩
  · next n u hobtained =>
    obtain ⟨q, hq, hobtain⟩ := Failure.bind_eq_ok.mp hobtained
    have hwrites := obtain_eq_ok hobtain
    refine Or.inr ⟨q, n, hq, ?_⟩
    rcases put_cases u n (kept (u.nodes n).octets) bs with hput | ⟨hne, part, hput⟩
    · obtain ⟨rfl, rfl⟩ := Prod.mk.inj (hput.symm.trans h)
      exact ⟨hwrites.fill _, Or.inl ⟨rfl, _, congrArg FileNode.octets (if_pos rfl)⟩⟩
    · obtain ⟨rfl, rfl⟩ := Prod.mk.inj (hput.symm.trans h)
      exact ⟨hwrites.fill _, Or.inr ⟨hne, rfl⟩⟩

theorem write_eq_ok (h : t.write path bs = (.ok (), t')) : ∃ q n, t.place path = .ok q ∧
    Writes q n t t' ∧ (t'.nodes n).octets = bs := by
  rcases putAt_cases h with ⟨f, -, hf, -⟩ | ⟨q, n, hq, hwrites, ⟨-, _, hoctets⟩ | ⟨-, hf⟩⟩
  · cases hf
  · exact ⟨q, n, hq, hwrites, hoctets⟩
  · cases hf

/-- Where writing fails, nothing has been changed but the file. -/
theorem write_eq_error {f : FileFault} (h : t.write path bs = (.error f, t')) :
    t' = t ∨ ∃ q n, t.place path = .ok q ∧ Writes q n t t' := by
  rcases putAt_cases h with ⟨_, -, -, hsame⟩ | ⟨q, n, hq, hwrites, -⟩
  · exact Or.inl hsame
  · exact Or.inr ⟨q, n, hq, hwrites⟩

/-- There is a file at the path that may be written. -/
def Stands (t : FileTree) (path : Path) : Prop := ∃ q n, t.place path = .ok q ∧
  t.entry? q = some (.file n) ∧ (t.nodes n).isWritable = true

theorem Writes.stands (h : Writes q n t u) (hq : t.place path = .ok q) : u.Stands path :=
  ⟨q, n, h.keepsWays.place hq, h.file, h.isWritable⟩

theorem append_eq_ok (h : t.append path bs = (.ok (), t')) : t'.Stands path ∧ t.KeepsWays t' := by
  rcases putAt_cases h with ⟨f, -, hf, -⟩ | ⟨q, n, hq, hwrites, -⟩
  · cases hf
  · exact ⟨hwrites.stands hq, hwrites.keepsWays⟩

/-- What stands stands after anything has been appended to it, if only a part of that. -/
theorem Stands.append (h : t.Stands path) (bs : List UInt8) :
    (t.append path bs).2.Stands path ∧ t.KeepsWays (t.append path bs).2 := by
  have happend : t.append path bs = ((t.append path bs).1, (t.append path bs).2) := rfl
  rcases putAt_cases happend with ⟨f, -, -, hsame⟩ | ⟨q, n, hq, hwrites, -⟩
  · rw [hsame]
    exact ⟨h, .refl t⟩
  · exact ⟨hwrites.stands hq, hwrites.keepsWays⟩

/-- What stands can be opened to append to it. -/
theorem Stands.append_nil (h : t.Stands path) : (t.append path []).1 = .ok () := by
  obtain ⟨q, n, hq, hfile, hw⟩ := h
  have hobtain : t.obtain q = .ok (n, t) := by
    unfold obtain
    simp only [hfile, if_pos hw]
  have happend : t.append path [] = ((t.append path []).1, (t.append path []).2) := rfl
  rcases putAt_cases happend with ⟨f, hf, -⟩ | ⟨_, _, -, -, ⟨hok, -⟩ | ⟨hne, -⟩⟩
  · rw [hq, Failure.ok_bind, hobtain] at hf
    cases hf
  · exact hok
  · exact absurd rfl hne

/-- The directory need not be made. -/
def Keeps (t : FileTree) (dir : Path) : Prop := dir.names = [] ∨ t.lookup dir = .ok .directory

theorem KeepsWays.keeps {dir : Path} (h : t.KeepsWays u) (hkeeps : t.Keeps dir) : u.Keeps dir :=
  hkeeps.imp_right h.lookup

end FileTree

namespace FileAction

variable {t t' : FileTree} {dir : Path}

theorem bind_on_cases {α β : Type} {act : FileAction α} {next : α → FileAction β}
    {x : Except Failure β} (h : (act >>= next).on t = (x, t')) :
    (∃ f, act.on t = (.error f, t') ∧ x = .error f) ∨
      ∃ a u, act.on t = (.ok a, u) ∧ (next a).on u = (x, t') := by
  rw [on_bind] at h
  split at h
  · next a u ha => exact Or.inr ⟨a, u, ha, h⟩
  · next f u hf =>
    obtain ⟨rfl, rfl⟩ := Prod.mk.inj h
    exact Or.inl ⟨f, hf, rfl⟩

theorem bind_on_eq_ok {α β : Type} {act : FileAction α} {next : α → FileAction β} {b : β}
    (h : (act >>= next).on t = (.ok b, t')) :
    ∃ a u, act.on t = (.ok a, u) ∧ (next a).on u = (.ok b, t') := by
  refine (bind_on_cases h).resolve_left ?_
  rintro ⟨f, -, hf⟩
  cases hf

theorem change_on_eq_ok {f : FileTree → Except FileFault FileTree} {a : Unit}
    (h : (change f).on t = (.ok a, t')) : f t = .ok t' := by
  rw [on_change] at h
  split at h
  · next u hu => rw [hu, (Prod.mk.inj h).2]
  · cases (Prod.mk.inj h).1

theorem attempt_on_eq_ok {f : FileTree → Except FileFault Unit × FileTree} {a : Unit}
    (h : (attempt f).on t = (.ok a, t')) : f t = (.ok (), t') := by
  rw [on_attempt] at h
  obtain ⟨hok, rfl⟩ := Prod.mk.inj h
  cases hf : (f t).1 with
  | error fault =>
    rw [hf] at hok
    cases hok
  | ok _ => exact Prod.ext hf rfl

theorem makeDirectoriesFrom_eq_ok {root name : String} {most : Nat} {above : List String}
    (h : (makeDirectoriesFrom root most (name :: above)).on t = (.ok (), t')) :
    t'.lookup ⟨root, (name :: above).reverse⟩ = .ok .directory := by
  replace h : makeDirectoriesFrom root most (name :: above) t = (.ok (), t') := h
  unfold makeDirectoriesFrom at h
  extract_lets p finish at h
  have hfinish : ∀ u, finish u = (.ok (), t') → t'.lookup p = .ok .directory := by
    intro u hu
    unfold finish at hu
    split at hu
    · next v hv =>
      obtain rfl := (Prod.mk.inj hu).2
      exact FileTree.lookup_of_makeDirectory hv
    · split at hu
      · next hdir =>
        obtain rfl := (Prod.mk.inj hu).2
        exact FileTree.isDirectory_iff.mp hdir
      · cases (Prod.mk.inj hu).1
  split at h
  · split at h
    · cases (Prod.mk.inj h).1
    · split at h
      · exact hfinish _ h
      · cases (Prod.mk.inj h).1
  · exact hfinish t h

theorem keeps_of_makeDirectories (h : (makeDirectories dir).on t = (.ok (), t')) :
    t'.Keeps dir := by
  unfold makeDirectories at h
  cases hnames : dir.names.reverse with
  | nil => exact Or.inl (List.reverse_eq_nil_iff.mp hnames)
  | cons name above =>
    rw [hnames] at h
    have hdir := makeDirectoriesFrom_eq_ok h
    rw [← hnames, List.reverse_reverse] at hdir
    exact Or.inr hdir

theorem makeDirectories_of_keeps (h : t.Keeps dir) : (makeDirectories dir).on t = (.ok (), t) := by
  unfold makeDirectories
  cases hnames : dir.names.reverse with
  | nil => rfl
  | cons name above =>
    have hdir := h.resolve_left fun hnil => by
      rw [hnil] at hnames
      cases hnames
    have hpath : (⟨dir.root, (name :: above).reverse⟩ : Path) = dir := by
      rw [← hnames, List.reverse_reverse]
    have htaken : t.makeDirectory dir = .error .taken := by
      obtain ⟨r, hr, he⟩ := FileTree.lookup_eq_ok_iff.mp hdir
      have hlast : dir.names = above.reverse ++ [name] := by
        rw [← List.reverse_reverse dir.names, hnames, List.reverse_cons]
      obtain ⟨d, _, _, q, -, -, hq, hcase⟩ := FileTree.place_cases hlast hr
      have hthere : ∃ e, t.entry? q = some e := by
        rcases hcase with ⟨rfl, -⟩ | ⟨target, _, _, hlink, -⟩
        · exact ⟨_, he⟩
        · exact ⟨_, hlink⟩
      obtain ⟨e, hthere⟩ := hthere
      unfold FileTree.makeDirectory
      rw [hq, Failure.ok_bind, hthere]
      rfl
    show makeDirectoriesFrom dir.root missingLimit (name :: above) t = _
    unfold makeDirectoriesFrom
    simp only [hpath, htaken, FileTree.isDirectory_iff.mpr hdir, if_true]

end FileAction

namespace Logging

variable {home : Path} {environment : List (String × String)} {wish : Wish} {t t' : FileTree}
  {p : Path}

/-- The log file stands at the path, in a directory that need not be made. -/
def Made (home : Path) (environment : List (String × String)) (wish : Wish) (t : FileTree)
    (p : Path) : Prop :=
  ∃ dir, directory home environment wish = .ok dir ∧ p = dir.child (Program.name ++ ".log") ∧
    t.Keeps dir ∧ t.Stands p

theorem Made.append (h : Made home environment wish t p) (bs : List UInt8) :
    Made home environment wish (t.append p bs).2 p := by
  obtain ⟨dir, hdir, hp, hkeeps, hstands⟩ := h
  obtain ⟨hstands', hways⟩ := hstands.append bs
  exact ⟨dir, hdir, hp, hways.keeps hkeeps, hstands'⟩

/-- Where a log file is asked for and made, it is there. -/
theorem made_of_makeFile {file : Option Path} (hwants : wantsFile environment wish = true)
    (h : (makeFile home environment wish).on t = (.ok file, t')) :
    ∃ p, file = some p ∧ Made home environment wish t' p := by
  unfold makeFile at h
  rw [if_pos hwants] at h
  obtain ⟨dir, u, hdir, hmake⟩ := FileAction.bind_on_eq_ok h
  obtain ⟨_, v, hmade, hcheck⟩ := FileAction.bind_on_eq_ok hmake
  obtain ⟨_, x, hsize, hwrite⟩ := FileAction.bind_on_eq_ok hcheck
  obtain ⟨_, y, happend, hlast⟩ := FileAction.bind_on_eq_ok hwrite
  obtain ⟨hfile, rfl⟩ := Prod.mk.inj hlast
  rw [← (Prod.mk.inj hsize).2] at happend
  obtain ⟨hstands, hways⟩ := FileTree.append_eq_ok (FileAction.attempt_on_eq_ok happend)
  exact ⟨_, (Except.ok.inj hfile).symm, dir, (Prod.mk.inj hdir).1, rfl,
    hways.keeps (FileAction.keeps_of_makeDirectories hmade), hstands⟩

theorem makeFile_of_made (hwants : wantsFile environment wish = true)
    (hsize : checkSize wish = .ok ()) (h : Made home environment wish t p) :
    ∃ t', (makeFile home environment wish).on t = (.ok (some p), t') := by
  obtain ⟨dir, hdir, rfl, hkeeps, hstands⟩ := h
  refine ⟨(t.append (dir.child (Program.name ++ ".log")) []).2, ?_⟩
  unfold makeFile FileAction.append
  rw [if_pos hwants]
  simp only [FileAction.on_bind, FileAction.on_given, FileAction.on_attempt, FileAction.on_pure,
    hdir, hsize, FileAction.makeDirectories_of_keeps hkeeps, hstands.append_nil]
  rfl

end Logging

end Concentric
