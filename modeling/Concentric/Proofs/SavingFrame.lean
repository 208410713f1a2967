import Concentric.Proofs.FilesMade
import Concentric.Settings.Store

/-! What saving settings changes. The directories above the file are made where they are missing, a
file is written beside it, and what has the path of that one is moved to the path of the settings. So
no file is changed but the one that is written. That is whatever file the other path leads to, be it
through links or because it is the path of the settings itself. -/

namespace Concentric

namespace FileTree

variable {t t' u v : FileTree} {a b p q r : Place} {names : List String} {name : String}
  {path dir : Path} {bs : List UInt8} {n links : Nat} {e : Entry} {visited : List Place}

theorem file?_eq (hentry : u.entry? q = t.entry? q)
    (hnodes : ∀ n, t.entry? q = some (.file n) → u.nodes n = t.nodes n) : u.file? q = t.file? q := by
  unfold file?
  rw [hentry]
  split
  · next n hn => rw [hnodes n hn]
  · rfl

/-! ## Directories that are made -/

/-- The place is that of the directory, or of one on the way to it. -/
def LeadsOver (t : FileTree) (dir : Path) (q : Place) : Prop :=
  ∃ names, names <+: dir.names ∧ t.place ⟨dir.root, names⟩ = .ok q

/-- At the place both trees hold the same, or where the one holds nothing the other has a directory
on the way to `dir`. -/
def Agrees (dir : Path) (t u : FileTree) (q : Place) : Prop :=
  u.entry? q = t.entry? q ∨
    t.entry? q = none ∧ u.entry? q = some .directory ∧ u.LeadsOver dir q

theorem LeadsOver.transfer (h : t.LeadsOver dir q) (hu : t.KeepsWays u) : u.LeadsOver dir q := by
  obtain ⟨names, hnames, hq⟩ := h
  exact ⟨names, hnames, hu.place hq⟩

/-- A change elsewhere leaves what the trees agree in. -/
theorem Agrees.congr (h : Agrees dir t u q) (hv : u.KeepsWays v)
    (heq : v.entry? q = u.entry? q) : Agrees dir t v q := by
  rcases h with hsame | ⟨hnone, hdir, hover⟩
  · exact Or.inl (heq.trans hsame)
  · exact Or.inr ⟨hnone, heq.trans hdir, hover.transfer hv⟩

/-- The other tree has missing directories on the way to `dir`, and is the same otherwise. -/
structure Opens (dir : Path) (t u : FileTree) : Prop where
  workingDirectory : u.workingDirectory = t.workingDirectory
  nodes : u.nodes = t.nodes
  agrees : ∀ q, Agrees dir t u q

theorem Opens.refl (dir : Path) (t : FileTree) : Opens dir t t := ⟨rfl, rfl, fun _ => Or.inl rfl⟩

theorem Opens.keepsWays (h : Opens dir t u) : t.KeepsWays u := by
  refine ⟨h.workingDirectory, fun q hq => ?_, fun q target => ?_⟩
  · rcases h.agrees q with hsame | ⟨hnone, -⟩
    · exact hsame.trans hq
    · cases hnone.symm.trans hq
  · rcases h.agrees q with hsame | ⟨hnone, hdir, -⟩
    · rw [hsame]
    · rw [hnone, hdir]
      exact iff_of_false nofun nofun

theorem Opens.trans (h : Opens dir t u) (h' : Opens dir u v) : Opens dir t v := by
  refine ⟨h'.workingDirectory.trans h.workingDirectory, h'.nodes.trans h.nodes, fun q => ?_⟩
  rcases h'.agrees q with hsame | ⟨hnone, hdir, hover⟩
  · exact (h.agrees q).congr h'.keepsWays hsame
  · rcases h.agrees q with hsame | ⟨-, hdir', -⟩
    · exact Or.inr ⟨hsame.symm.trans hnone, hdir, hover⟩
    · cases hnone.symm.trans hdir'

/-- What is on the way to a directory is on the way to those in it. -/
theorem Opens.child (h : Opens dir t u) (name : String) : Opens (dir.child name) t u := by
  refine ⟨h.workingDirectory, h.nodes, fun q =>
    (h.agrees q).imp_right fun ⟨hnone, hdir, hover⟩ => ?_⟩
  obtain ⟨names, hnames, hq⟩ := hover
  exact ⟨hnone, hdir, names, hnames.trans (List.prefix_append _ _), hq⟩

theorem Opens.file?_eq (h : Opens dir t u) (q : Place) : u.file? q = t.file? q := by
  rcases h.agrees q with hsame | ⟨hnone, hdir, -⟩
  · exact FileTree.file?_eq hsame fun n _ => congrFun h.nodes n
  · unfold file?
    rw [hnone, hdir]

theorem opens_of_makeDirectory (h : t.makeDirectory path = .ok t') : Opens path t t' := by
  have hkeeps := keepsWays_makeDirectory h
  obtain ⟨r, hr, hnone, rfl⟩ := makeDirectory_eq_ok h
  have hmade : entry? (t.set r .directory) r = some .directory :=
    entry?_set_self (by rw [hnone]; exact nofun) _
  refine ⟨rfl, rfl, fun q => ?_⟩
  by_cases hq : q = r
  · subst hq
    refine Or.inr ⟨hnone, hmade, path.names, List.prefix_rfl, ?_⟩
    exact place_of_spot (hkeeps.spot hr) (by rw [hmade]; exact nofun)
  · exact Or.inl (entry?_set_of_ne _ hq)

/-! ## Files that are written -/

/-- Both places have the same file. -/
def Shares (t : FileTree) (q r : Place) : Prop :=
  ∃ n, t.entry? q = some (.file n) ∧ t.entry? r = some (.file n)

theorem Writes.file?_eq (h : Writes q n t u) (hq : r ≠ q) (hshares : ¬ t.Shares q r) :
    u.file? r = t.file? r := by
  refine FileTree.file?_eq (h.entry r hq) fun k hk => h.node k ?_
  rintro rfl
  rcases h.before with hfile | ⟨-, hnew⟩
  · exact hshares ⟨k, hfile, hk⟩
  · exact hnew r hk

/-! ## Entries that are moved -/

/-- An entry that is no directory is moved to a place, from another one or from another place of the
same file; then it stays where it is. -/
structure Moves (a b : Place) (e : Entry) (t u : FileTree) : Prop where
  entry : t.entry? a = some e
  plain : e ≠ .directory
  free : t.entry? b ≠ some .directory
  moved : u = t ∧ (a = b ∨ t.Shares a b) ∨ a ≠ b ∧ u = (t.erase a).set b e

theorem Moves.entry?_eq (h : Moves a b e t u) (ha : r ≠ a) (hb : r ≠ b) :
    u.entry? r = t.entry? r := by
  rcases h.moved with ⟨rfl, -⟩ | ⟨-, rfl⟩
  · rfl
  · rw [entry?_set_of_ne _ hb, entry?_erase_of_ne ha]

theorem Moves.nodes (h : Moves a b e t u) : u.nodes = t.nodes := by
  rcases h.moved with ⟨rfl, -⟩ | ⟨-, rfl⟩ <;> rfl

theorem Moves.workingDirectory (h : Moves a b e t u) :
    u.workingDirectory = t.workingDirectory := by
  rcases h.moved with ⟨rfl, -⟩ | ⟨-, rfl⟩ <;> rfl

theorem sameFile_iff {e' : Entry} :
    sameFile e e' = true ↔ ∃ n, e = .file n ∧ e' = .file n := by
  cases e <;> cases e' <;> grind [sameFile]

theorem move_eq_ok (h : t.move a b = .ok t') : ∃ e, Moves a b e t t' := by
  unfold move at h
  split at h
  · cases h
  · cases h
  · cases h
  next e hplain hentry hfree =>
  refine ⟨e, hentry, hplain, hfree, ?_⟩
  split at h
  · next hsame =>
    refine Or.inl ⟨(Except.ok.inj h).symm, hsame.imp_right fun hany => ?_⟩
    cases hold : t.entry? b with
    | none =>
      rw [hold] at hany
      cases hany
    | some e' =>
      rw [hold] at hany
      obtain ⟨n, rfl, rfl⟩ := sameFile_iff.mp hany
      exact ⟨n, hentry, hold⟩
  · next hother =>
    split at h
    · exact Or.inr ⟨fun heq => hother (Or.inl heq), (Except.ok.inj h).symm⟩
    · cases h

theorem rename_eq_ok {source target : Path} (h : t.rename source target = .ok t') :
    ∃ a b e, t.spot source = .ok a ∧ t.spot target = .ok b ∧
      target.names.getLast? ≠ some ".." ∧ Moves a b e t t' := by
  obtain ⟨a, ha, h⟩ := Failure.bind_eq_ok.mp h
  obtain ⟨b, hb, h⟩ := Failure.bind_eq_ok.mp h
  split at h
  · cases h
  · next hlast =>
    obtain ⟨e, hmoves⟩ := move_eq_ok h
    exact ⟨a, b, e, ha, hb, hlast, hmoves⟩

end FileTree

namespace Path

variable {p : Path} {names : List String} {name : String}

theorem slashed_concat (names : List String) (name : String) :
    ∃ between, slashed (names ++ [name]) = slashed names ++ between := by
  induction names with
  | nil => exact ⟨name, by simp [slashed]⟩
  | cons n rest ih =>
    obtain ⟨between, hbetween⟩ := ih
    cases rest with
    | nil => exact ⟨"/" ++ name, by simp [slashed, String.append_assoc]⟩
    | cons n' rest =>
      refine ⟨between, ?_⟩
      simp only [List.cons_append, slashed] at hbetween ⊢
      rw [hbetween]
      simp only [String.append_assoc]

theorem text_of_names (hnames : p.names ≠ []) : p.text = p.root ++ slashed p.names := by
  rw [text, if_neg fun h => hnames h.2]

end Path

namespace FileTree

variable {t : FileTree} {path : Path} {q : Place}

theorem checkPath_eq_ok_iff : checkPath path = .ok () ↔
    (path.names.any fun n => n.toList.contains '\x00') = false ∧
      path.text.utf8ByteSize ≤ pathLimit := by
  unfold checkPath
  rw [← Bool.not_eq_true]
  split
  · next h => exact iff_of_false nofun fun hand => hand.1 h
  · next h =>
    split
    · next hlong => exact iff_of_false nofun fun hand => Nat.not_le.mpr hlong hand.2
    · next hlong => exact iff_of_true rfl ⟨h, Nat.not_lt.mp hlong⟩

/-- The directory of a path that leads somewhere is there. -/
theorem keeps_parent_of_place (h : t.place path = .ok q) : t.Keeps path.parent := by
  rcases List.eq_nil_or_concat' path.names with hnil | ⟨names, name, hnames⟩
  · exact Or.inl (by simp [Path.parent, hnil])
  by_cases hempty : names = []
  · exact Or.inl (by simp [Path.parent, hnames, hempty])
  have hparent : path.parent.names = names := by simp [Path.parent, hnames]
  obtain ⟨hnul, hlong⟩ := checkPath_eq_ok_iff.mp (place_eq_ok_iff.mp h).1
  obtain ⟨_, _, _, q, -, -, hspot, -⟩ := place_cases hnames h
  obtain ⟨-, d, visited, n, hlimit, hway, henter⟩ := (spot_eq_ok_iff hnames).mp hspot
  have hcheck : checkPath path.parent = .ok () := by
    refine checkPath_eq_ok_iff.mpr ⟨?_, ?_⟩
    · rw [hnames, List.any_append, Bool.or_eq_false_iff] at hnul
      rw [hparent]
      exact hnul.1
    · obtain ⟨between, hbetween⟩ := Path.slashed_concat names name
      rw [Path.text_of_names (by rw [hnames]; simp), hnames, hbetween] at hlong
      rw [Path.text_of_names (by rwa [hparent]), hparent]
      simp only [String.utf8ByteSize_append] at hlong ⊢
      show path.root.utf8ByteSize + _ ≤ _
      omega
  refine Or.inr (lookup_eq_ok_iff.mpr ⟨d, ?_, (enter_eq_ok_iff.mp henter).1⟩)
  exact place_eq_ok_iff.mpr ⟨hcheck, visited, n, hlimit, hparent ▸ hway⟩

end FileTree

namespace FileAction

variable {t t' : FileTree}

/-- Whether all directories can be made or not, nothing but directories on the way is added. -/
theorem opens_of_makeDirectoriesFrom (root : String) (most : Nat) (names : List String)
    (t : FileTree) :
    FileTree.Opens ⟨root, names.reverse⟩ t ((makeDirectoriesFrom root most names).on t).2 := by
  induction names generalizing most t with
  | nil => exact .refl _ t
  | cons name above ih =>
    show FileTree.Opens _ t (makeDirectoriesFrom root most (name :: above) t).2
    unfold makeDirectoriesFrom
    extract_lets p finish
    have hfinish : ∀ u, FileTree.Opens p u (finish u).2 := by
      intro u
      unfold finish
      split
      · next v hv => exact FileTree.opens_of_makeDirectory hv
      · split <;> exact .refl p u
    have habove : FileTree.Opens p t ((makeDirectoriesFrom root (most - 1) above).on t).2 := by
      have hchild : p = (⟨root, above.reverse⟩ : Path).child name := by
        simp [p, Path.child]
      rw [hchild]
      exact (ih (most - 1) t).child name
    split
    · split
      · exact .refl p t
      · split
        · next u hu =>
          rw [hu] at habove
          exact habove.trans (hfinish u)
        · next f u hu =>
          rw [hu] at habove
          exact habove
    · exact hfinish t

theorem opens_of_makeDirectories (dir : Path) (t : FileTree) :
    FileTree.Opens dir t ((makeDirectories dir).on t).2 := by
  have hopens := opens_of_makeDirectoriesFrom dir.root missingLimit dir.names.reverse t
  rwa [List.reverse_reverse] at hopens

theorem on_eq_ok {α : Type} {act : FileAction α} {a : α}
    (h : (act.on t).1.toOption = some a) : act.on t = (.ok a, (act.on t).2) :=
  Prod.ext (Failure.eq_ok_of_toOption h) rfl

theorem attempt_on_eq_error {f : FileTree → Except FileFault Unit × FileTree} {g : Failure}
    (h : (attempt f).on t = (.error g, t')) : ∃ fault, f t = (.error fault, t') := by
  rw [on_attempt] at h
  obtain ⟨herror, rfl⟩ := Prod.mk.inj h
  cases hf : (f t).1 with
  | error fault => exact ⟨fault, Prod.ext hf rfl⟩
  | ok _ =>
    rw [hf] at herror
    cases herror

theorem change_on_eq_error {f : FileTree → Except FileFault FileTree} {g : Failure}
    (h : (change f).on t = (.error g, t')) : t' = t := by
  rw [on_change] at h
  split at h
  · cases (Prod.mk.inj h).1
  · exact (Prod.mk.inj h).2.symm

end FileAction

namespace Settings

open FileTree (Opens Agrees Moves Writes)

variable {s : Settings} {t t' u : FileTree} {p : Path} {q r : Place} {x : Except Failure Unit}

/-- The files with the directories above a path, as far as these could be made. -/
def opened (t : FileTree) (p : Path) : FileTree :=
  ((FileAction.makeDirectories p.parent).on t).2

theorem opens_opened (t : FileTree) (p : Path) : Opens p.parent t (opened t p) :=
  FileAction.opens_of_makeDirectories p.parent t

theorem opened_of_place (h : t.place p = .ok q) : opened t p = t := by
  rw [opened, FileAction.makeDirectories_of_keeps (FileTree.keeps_parent_of_place h)]

/-- Saving fails before anything is written; or the settings are written to the file beside, and it
fails with that or with moving the file; or all is done. -/
theorem save_cases (h : (save p s).on t = (x, t')) :
    (∃ f, x = .error f ∧ (t' = t ∨ t' = opened t p)) ∨
      ∃ staging, p.withSuffix ".tmp" = .ok staging ∧
        ((∃ f q n, x = .error f ∧ (opened t p).place staging = .ok q ∧
            Writes q n (opened t p) t') ∨
          ∃ text v, x = .ok () ∧ Json.document true s.stored = .ok text ∧
            (opened t p).write staging (Utf8.octets text) = (.ok (), v) ∧
            v.rename staging p = .ok t') := by
  rcases FileAction.bind_on_cases h with ⟨f, hf, rfl⟩ | ⟨_, _, hmap, h⟩
  · obtain ⟨-, rfl⟩ := Prod.mk.inj hf
    exact Or.inl ⟨f, rfl, Or.inl rfl⟩
  obtain ⟨-, rfl⟩ := Prod.mk.inj hmap
  rcases FileAction.bind_on_cases h with ⟨f, hf, rfl⟩ | ⟨_, u, hu, h⟩
  · exact Or.inl ⟨f, rfl, Or.inr (congrArg Prod.snd hf).symm⟩
  obtain rfl : opened t p = u := congrArg Prod.snd hu
  rcases FileAction.bind_on_cases h with ⟨f, hf, rfl⟩ | ⟨staging, _, hgiven, h⟩
  · obtain ⟨-, rfl⟩ := Prod.mk.inj hf
    exact Or.inl ⟨f, rfl, Or.inr rfl⟩
  obtain ⟨hstaging, rfl⟩ := Prod.mk.inj hgiven
  rcases FileAction.bind_on_cases h with ⟨f, hf, rfl⟩ | ⟨text, _, htext, h⟩
  · obtain ⟨-, rfl⟩ := Prod.mk.inj hf
    exact Or.inl ⟨f, rfl, Or.inr rfl⟩
  obtain ⟨hdocument, rfl⟩ := Prod.mk.inj htext
  rcases FileAction.bind_on_cases h with ⟨f, hf, rfl⟩ | ⟨_, v, hwrite, h⟩
  · obtain ⟨fault, hfault⟩ := FileAction.attempt_on_eq_error hf
    rcases FileTree.write_eq_error hfault with hsame | ⟨q, n, hq, hwrites⟩
    · exact Or.inl ⟨f, rfl, Or.inr hsame⟩
    · exact Or.inr ⟨staging, hstaging, Or.inl ⟨f, q, n, rfl, hq, hwrites⟩⟩
  have hwritten := FileAction.attempt_on_eq_ok hwrite
  refine Or.inr ⟨staging, hstaging, ?_⟩
  cases x with
  | error f =>
    obtain rfl := FileAction.change_on_eq_error h
    obtain ⟨q, n, hq, hwrites, -⟩ := FileTree.write_eq_ok hwritten
    exact Or.inl ⟨f, q, n, rfl, hq, hwrites⟩
  | ok _ => exact Or.inr ⟨text, v, rfl, hdocument, hwritten, FileAction.change_on_eq_ok h⟩

/-- The place is one of the file that settings for a path are written to. -/
def Written (p : Path) (t : FileTree) (r : Place) : Prop :=
  ∃ staging q, p.withSuffix ".tmp" = .ok staging ∧ t.place staging = .ok q ∧
    (r = q ∨ t.Shares q r)

/-- Settings for a path are moved to the place, or from there. -/
def Moved (p : Path) (t : FileTree) (r : Place) : Prop :=
  t.spot p = .ok r ∨ ∃ staging, p.withSuffix ".tmp" = .ok staging ∧ t.spot staging = .ok r

theorem kept_of_write {staging : Path} {n : Nat} (hstaging : p.withSuffix ".tmp" = .ok staging)
    (hq : t.place staging = .ok q) (h : Writes q n t u) (hwritten : ¬ Written p t r) :
    u.entry? r = t.entry? r ∧ u.file? r = t.file? r := by
  have hne : r ≠ q := fun heq => hwritten ⟨staging, q, hstaging, hq, Or.inl heq⟩
  have hshares : ¬ t.Shares q r := fun hs => hwritten ⟨staging, q, hstaging, hq, Or.inr hs⟩
  exact ⟨h.entry r hne, h.file?_eq hne hshares⟩

/-- Where settings are saved, no file is changed but the one that is written, and no entry but those
at the path of the settings and at the path of what is moved there. -/
theorem kept_of_save (h : (save p s).on t = (.ok (), t')) (hwritten : ¬ Written p (opened t p) r)
    (hmoved : ¬ Moved p (opened t p) r) :
    t'.entry? r = FileTree.entry? (opened t p) r ∧ t'.file? r = (opened t p).file? r := by
  rcases save_cases h with ⟨f, hf, -⟩ |
    ⟨staging, hstaging, ⟨_, _, _, hf, -⟩ | ⟨text, v, -, -, hwrite, hrename⟩⟩
  · cases hf
  · cases hf
  obtain ⟨q, n, hq, hwrites, -⟩ := FileTree.write_eq_ok hwrite
  obtain ⟨a, b, e, ha, hb, -, hmoves⟩ := FileTree.rename_eq_ok hrename
  have hback := hwrites.keepsWays_back
  have hra : r ≠ a := fun heq => hmoved (Or.inr ⟨staging, hstaging, heq ▸ hback.spot ha⟩)
  have hrb : r ≠ b := fun heq => hmoved (Or.inl (heq ▸ hback.spot hb))
  have hentry := hmoves.entry?_eq hra hrb
  obtain ⟨hwentry, hwfile⟩ := kept_of_write hstaging hq hwrites hwritten
  exact ⟨hentry.trans hwentry,
    (FileTree.file?_eq hentry fun k _ => congrFun hmoves.nodes k).trans hwfile⟩

/-- Where saving fails, no file is changed but the one that is written, and no entry is but for
directories that are added. -/
theorem kept_of_save_error {f : Failure} (h : (save p s).on t = (.error f, t'))
    (hwritten : ¬ Written p (opened t p) r) :
    Agrees p.parent t t' r ∧ t'.file? r = t.file? r ∧
      (t.place p = .ok r → t'.place p = .ok r ∧ t'.entry? r = t.entry? r) := by
  have hopens := opens_opened t p
  have hopened : Agrees p.parent t (opened t p) r ∧ (opened t p).file? r = t.file? r ∧
      (t.place p = .ok r → (opened t p).place p = .ok r ∧
        FileTree.entry? (opened t p) r = t.entry? r) := by
    refine ⟨hopens.agrees r, hopens.file?_eq r, fun hr => ?_⟩
    rw [opened_of_place hr]
    exact ⟨hr, rfl⟩
  rcases save_cases h with ⟨_, -, rfl | rfl⟩ |
    ⟨staging, hstaging, ⟨_, q, n, -, hq, hwrites⟩ | ⟨_, _, hf, -⟩⟩
  · exact ⟨Or.inl rfl, rfl, fun hr => ⟨hr, rfl⟩⟩
  · exact hopened
  · obtain ⟨hagrees, hfile, hplace⟩ := hopened
    obtain ⟨hwentry, hwfile⟩ := kept_of_write hstaging hq hwrites hwritten
    refine ⟨hagrees.congr hwrites.keepsWays hwentry, hwfile.trans hfile, fun hr => ?_⟩
    obtain ⟨hp, hsame⟩ := hplace hr
    exact ⟨hwrites.keepsWays.place hp, hwentry.trans hsame⟩
  · cases hf

theorem standard_document : ∃ text, Json.document true standard.stored = .ok text := ⟨_, rfl⟩

/-- Only with the files beside and in the way does saving depend on what is there. -/
theorem save_on {m : Value} {staging : Path} {text : String} (hmap : s.toMap = .ok m)
    (hstaging : p.withSuffix ".tmp" = .ok staging) (htext : Json.document true s.stored = .ok text)
    (hdirs : (FileAction.makeDirectories p.parent).on t = (.ok (), u)) : (save p s).on t =
      (FileAction.write staging (Utf8.octets text) >>= fun _ => FileAction.rename staging p).on u := by
  unfold save
  simp only [FileAction.on_bind, FileAction.on_given, hmap, hdirs, hstaging, htext]

/-- The text of settings begins with a bracket. -/
theorem octets_of_stored {text : String} (h : Json.document true s.stored = .ok text) :
    ∃ rest, Utf8.octets text = 0x7B :: rest := by
  unfold Json.document stored at h
  rw [Json.write] at h
  cases hentries : Json.writeEntries true 1 (s.entries ++ [("version", .whole 1)]) with
  | error f =>
    rw [hentries] at h
    cases h
  | ok ps =>
    rw [hentries] at h
    obtain rfl := Except.ok.inj h
    obtain ⟨cs, hcs⟩ := Json.bracket_eq_cons '\x7b' '\x7d' 0
      ((Json.sortEntries ps).map fun p => Json.writeText p.1.toList ++ ':' :: ' ' :: p.2)
    refine ⟨Utf8.encode cs, ?_⟩
    show Utf8.encode (String.ofList (Json.bracket '\x7b' '\x7d' 0 _)).toList = _
    rw [String.toList_ofList, if_pos rfl, hcs]
    rfl

/-- A tree with a file under a name that settings may be written to first. -/
def withNotes (room : Option Nat) : FileTree :=
  { FileTree.oneFile "settings.tmp" (Utf8.octets "notes") with room := room }

/-- A tree with a link to such a file. -/
def withLinkToNotes : FileTree :=
  (FileTree.oneFile "notes.txt" (Utf8.octets "notes")).set ["work", "settings.tmp"]
    (.link ⟨"", ["notes.txt"]⟩)

end Settings

end Concentric
