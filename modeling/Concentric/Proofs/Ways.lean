import Concentric.Files.Tree
import Mathlib.Data.List.Basic

/-! Ways through a file tree. Names lead through directories and links alone, so a way stays where
no directory is lost and no link on it is changed. A way is the same however it is come by, and where
names are followed for a path, all that counts is how many links are on the way. -/

namespace Concentric

namespace FileTree

/-- Names lead from a place to another past the places that are visited, in so many links. -/
inductive Leads (t : FileTree) : Place → List String → List Place → Nat → Place → Prop
  | here (p : Place) : Leads t p [] [] 0 p
  | step {p q r : Place} {name : String} {rest : List String} {visited : List Place} {links : Nat}
      (enters : t.enter p name = .ok q) (plain : ∀ target, t.entry? q ≠ some (.link target))
      (more : Leads t q rest visited links r) : Leads t p (name :: rest) (q :: visited) links r
  | link {p q r : Place} {name : String} {rest : List String} {visited : List Place} {links : Nat}
      {target : Path} (enters : t.enter p name = .ok q) (holds : t.entry? q = some (.link target))
      (more : Leads t (start target q.dropLast) (target.names ++ rest) visited links r) :
      Leads t p (name :: rest) (q :: visited) (links + 1) r

section

variable {t u : FileTree} {p q r base : Place} {name : String} {names more : List String}
  {visited : List Place} {links : Nat} {path : Path}

theorem enter_eq_ok_iff : t.enter p name = .ok q ↔ t.entry? p = some .directory ∧
    name.utf8ByteSize ≤ nameLimit ∧ q = if name = ".." then p.dropLast else p ++ [name] := by
  unfold enter
  cases t.entry? p with
  | none => simp
  | some e => cases e <;> grind

theorem follow_nil (t : FileTree) (links : Nat) (p : Place) : t.follow links p [] = .ok p := by
  unfold follow walk
  rfl

theorem follow_of_plain (henter : t.enter p name = .ok q)
    (hplain : ∀ target, t.entry? q ≠ some (.link target)) :
    t.follow links p (name :: names) = t.follow links q names := by
  have hwalk : t.walk p (name :: names) = t.walk q names := by
    rw [walk, henter]
    dsimp only
    split
    · next target hlink => exact absurd hlink (hplain target)
    · rfl
  unfold follow
  rw [hwalk]

theorem follow_of_link {target : Path} (henter : t.enter p name = .ok q)
    (hlink : t.entry? q = some (.link target)) : t.follow (links + 1) p (name :: names) =
      t.follow links (start target q.dropLast) (target.names ++ names) := by
  rw [follow, walk, henter]
  simp only [hlink]

/-- Names up to the first link lead to a place; or they lead on through the link, wherever that
does. -/
theorem leads_of_walk {leg : Leg} (h : t.walk p names = .ok leg) :
    (∃ q visited, leg = .arrived q ∧ Leads t p names visited 0 q) ∨
      ∃ q target rest, leg = .atLink q target rest ∧ ∀ {visited links r},
        Leads t (start target q.dropLast) (target.names ++ rest) visited links r →
          ∃ visited', Leads t p names visited' (links + 1) r := by
  induction names generalizing p with
  | nil => exact Or.inl ⟨p, [], (Except.ok.inj h).symm, .here p⟩
  | cons name rest ih =>
    unfold walk at h
    split at h
    · cases h
    · next q henter =>
      split at h
      · next target hlink =>
        refine Or.inr ⟨q, target, rest, (Except.ok.inj h).symm, fun hway => ?_⟩
        exact ⟨_, .link henter hlink hway⟩
      · next hplain =>
        refine (ih h).imp ?_ ?_
        · rintro ⟨r, visited, hleg, hway⟩
          exact ⟨r, _, hleg, .step henter hplain hway⟩
        · rintro ⟨r, target, rest', hleg, hways⟩
          refine ⟨r, target, rest', hleg, fun hway => ?_⟩
          obtain ⟨visited', hway'⟩ := hways hway
          exact ⟨_, .step henter hplain hway'⟩

/-- Names that are followed lead somewhere, in no more links than may be followed. -/
theorem leads_of_follow (h : t.follow links p names = .ok r) :
    ∃ visited n, n ≤ links ∧ Leads t p names visited n r := by
  fun_induction FileTree.follow t links p names with
  | case1 => cases h
  | case2 links p names q hwalk =>
    obtain rfl := Except.ok.inj h
    rcases leads_of_walk hwalk with ⟨q', visited, hleg, hway⟩ | ⟨_, _, _, hleg, -⟩
    · obtain rfl := Leg.arrived.inj hleg
      exact ⟨visited, 0, Nat.zero_le _, hway⟩
    · cases hleg
  | case3 => cases h
  | case4 p names q target rest hwalk links ih =>
    obtain ⟨visited, n, hn, hway⟩ := ih h
    rcases leads_of_walk hwalk with ⟨_, _, hleg, -⟩ | ⟨_, _, _, hleg, hways⟩
    · cases hleg
    · obtain ⟨rfl, rfl, rfl⟩ := Leg.atLink.inj hleg
      obtain ⟨visited', hway'⟩ := hways hway
      exact ⟨visited', n + 1, Nat.succ_le_succ hn, hway'⟩

theorem Leads.follow (h : Leads t p names visited links r) {n : Nat} (hn : links ≤ n) :
    t.follow n p names = .ok r := by
  induction h generalizing n with
  | here p => exact follow_nil t n p
  | step henter hplain _ ih => rw [follow_of_plain henter hplain, ih hn]
  | link henter hlink _ ih =>
    cases n with
    | zero => cases hn
    | succ n => rw [follow_of_link henter hlink, ih (Nat.le_of_succ_le_succ hn)]

theorem follow_eq_ok_iff : t.follow links p names = .ok r ↔
    ∃ visited n, n ≤ links ∧ Leads t p names visited n r :=
  ⟨leads_of_follow, fun ⟨_, _, hn, h⟩ => h.follow hn⟩

/-- From a place the same names lead to one place, on one way. -/
theorem Leads.unique {visited' : List Place} {links' : Nat} {r' : Place}
    (h : Leads t p names visited links r) (h' : Leads t p names visited' links' r') :
    visited = visited' ∧ links = links' ∧ r = r' := by
  induction h generalizing visited' links' with
  | here p =>
    cases h'
    exact ⟨rfl, rfl, rfl⟩
  | step henter hplain _ ih =>
    cases h' with
    | step henter' _ hmore =>
      obtain rfl := Except.ok.inj (henter.symm.trans henter')
      obtain ⟨rfl, rfl, rfl⟩ := ih hmore
      exact ⟨rfl, rfl, rfl⟩
    | link henter' hlink' _ =>
      obtain rfl := Except.ok.inj (henter.symm.trans henter')
      exact absurd hlink' (hplain _)
  | link henter hlink _ ih =>
    cases h' with
    | step henter' hplain' _ =>
      obtain rfl := Except.ok.inj (henter.symm.trans henter')
      exact absurd hlink (hplain' _)
    | link henter' hlink' hmore =>
      obtain rfl := Except.ok.inj (henter.symm.trans henter')
      obtain rfl := Entry.link.inj (Option.some.inj (hlink.symm.trans hlink'))
      obtain ⟨rfl, rfl, rfl⟩ := ih hmore
      exact ⟨rfl, rfl, rfl⟩

/-- A way along names and more names goes on where the first ones lead. -/
theorem Leads.append {visited' : List Place} {links' : Nat}
    (h : Leads t p names visited links q) (h' : Leads t q more visited' links' r) :
    Leads t p (names ++ more) (visited ++ visited') (links + links') r := by
  induction h with
  | here p => simpa using h'
  | step henter hplain _ ih => exact .step henter hplain (ih h')
  | link henter hlink _ ih =>
    rw [Nat.add_right_comm]
    exact .link henter hlink (List.append_assoc _ _ _ ▸ ih h')

theorem Leads.split (h : Leads t p (names ++ more) visited links r) :
    ∃ before before' n n' q, Leads t p names before n q ∧ Leads t q more before' n' r ∧
      visited = before ++ before' ∧ links = n + n' := by
  generalize hall : names ++ more = all at h
  induction h generalizing names with
  | here p =>
    obtain ⟨rfl, rfl⟩ := List.append_eq_nil_iff.mp hall
    exact ⟨_, _, _, _, _, .here p, .here p, rfl, rfl⟩
  | @step p q r name rest visited links henter hplain hmore ih =>
    cases names with
    | nil =>
      obtain rfl : more = name :: rest := hall
      exact ⟨_, _, _, _, _, .here p, .step henter hplain hmore, rfl, (Nat.zero_add _).symm⟩
    | cons first names =>
      obtain ⟨rfl, hrest⟩ := List.cons.inj hall
      obtain ⟨before, before', n, n', m, hfirst, hlast, rfl, rfl⟩ := ih hrest
      exact ⟨_, _, _, _, _, .step henter hplain hfirst, hlast, rfl, rfl⟩
  | @link p q r name rest visited links target henter hlink hmore ih =>
    cases names with
    | nil =>
      obtain rfl : more = name :: rest := hall
      exact ⟨_, _, _, _, _, .here p, .link henter hlink hmore, rfl, (Nat.zero_add _).symm⟩
    | cons first names =>
      obtain ⟨rfl, hrest⟩ := List.cons.inj hall
      have hthrough : (target.names ++ names) ++ more = target.names ++ rest :=
        (List.append_assoc _ _ _).trans (congrArg _ hrest)
      obtain ⟨before, before', n, n', m, hfirst, hlast, rfl, rfl⟩ := ih hthrough
      exact ⟨_, _, _, _, _, .link henter hlink hfirst, hlast, rfl, Nat.add_right_comm _ _ _⟩

/-- A way past a link goes on through the link, with fewer links before it. -/
theorem Leads.through (h : Leads t p names visited links r) {target : Path} (hq : q ∈ visited)
    (hlink : t.entry? q = some (.link target)) : ∃ rest visited' n, n < links ∧
      Leads t (start target q.dropLast) (target.names ++ rest) visited' n r := by
  induction h with
  | here p => cases hq
  | step henter hplain _ ih =>
    rcases List.mem_cons.mp hq with rfl | hq
    · exact absurd hlink (hplain target)
    · exact ih hq
  | @link p q' r name rest visited links target' henter hlink' hmore ih =>
    rcases List.mem_cons.mp hq with rfl | hq
    · obtain rfl := Entry.link.inj (Option.some.inj (hlink.symm.trans hlink'))
      exact ⟨rest, visited, links, Nat.lt_succ_self _, hmore⟩
    · obtain ⟨rest', visited', n, hn, hway⟩ := ih hq
      exact ⟨rest', visited', n, Nat.lt_succ_of_lt hn, hway⟩

/-- Names lead on only from a directory. -/
theorem Leads.nil_of_file {n : Nat} (h : Leads t p names visited links r)
    (hfile : t.entry? p = some (.file n)) : names = [] := by
  cases h with
  | here => rfl
  | step henter | link henter => cases hfile.symm.trans (enter_eq_ok_iff.mp henter).1

/-- A way ends where it meets a file. -/
theorem Leads.end_of_file {n : Nat} (h : Leads t p names visited links r) (hq : q ∈ visited)
    (hfile : t.entry? q = some (.file n)) : r = q := by
  induction h with
  | here => cases hq
  | step _ _ hmore ih =>
    rcases List.mem_cons.mp hq with rfl | hq
    · obtain rfl := hmore.nil_of_file hfile
      cases hmore
      rfl
    · exact ih hq
  | link _ hlink _ ih =>
    rcases List.mem_cons.mp hq with rfl | hq
    · cases hfile.symm.trans hlink
    · exact ih hq

section

variable {target : Path} {n : Nat}

/-- A link to a file is not on the way to a directory. -/
theorem Leads.notMem_of_file {d : Place} {visited' : List Place} {links' : Nat}
    (h : Leads t p names visited links d) (hdir : t.entry? d = some .directory)
    (hlink : t.entry? q = some (.link target))
    (hway : Leads t (start target q.dropLast) target.names visited' links' r)
    (hfile : t.entry? r = some (.file n)) : q ∉ visited := by
  intro hq
  obtain ⟨rest, _, _, -, hthrough⟩ := h.through hq hlink
  obtain ⟨_, _, _, _, _, hfirst, hlast, -, -⟩ := hthrough.split
  obtain ⟨-, -, rfl⟩ := hway.unique hfirst
  obtain rfl := hlast.nil_of_file hfile
  cases hlast
  cases hfile.symm.trans hdir

/-- A link that leads anywhere does not lead through itself. -/
theorem Leads.notMem_of_link (h : Leads t (start target q.dropLast) target.names visited links r)
    (hlink : t.entry? q = some (.link target)) : q ∉ visited := by
  intro hq
  obtain ⟨rest, _, k, hk, hthrough⟩ := h.through hq hlink
  obtain ⟨_, _, m, m', _, hfirst, -, -, rfl⟩ := hthrough.split
  obtain ⟨-, rfl, -⟩ := h.unique hfirst
  omega

end

/-- A way through a tree is one through another tree with its directories that has the same links on
the way. -/
theorem Leads.transfer (h : Leads t p names visited links r)
    (hdirs : ∀ q, t.entry? q = some .directory → u.entry? q = some .directory)
    (hlinks : ∀ q ∈ visited, ∀ target,
      u.entry? q = some (.link target) ↔ t.entry? q = some (.link target)) :
    Leads u p names visited links r := by
  have henters : ∀ {p q name}, t.enter p name = .ok q → u.enter p name = .ok q := fun h =>
    enter_eq_ok_iff.mpr ((enter_eq_ok_iff.mp h).imp_left (hdirs _))
  induction h with
  | here p => exact .here p
  | step henter hplain _ ih =>
    obtain ⟨hq, hrest⟩ := List.forall_mem_cons.mp hlinks
    exact .step (henters henter) (fun target hlink => hplain target ((hq target).mp hlink))
      (ih hrest)
  | link henter hlink _ ih =>
    obtain ⟨hq, hrest⟩ := List.forall_mem_cons.mp hlinks
    exact .link (henters henter) ((hq _).mpr hlink) (ih hrest)

/-! ## Places and spots -/

theorem place_eq_ok_iff : t.place path = .ok q ↔ checkPath path = .ok () ∧
    ∃ visited n, n ≤ linkLimit ∧
      Leads t (start path t.workingDirectory) path.names visited n q := by
  unfold place
  rw [Failure.bind_eq_ok]
  simp only [follow_eq_ok_iff]
  exact ⟨fun ⟨_, hcheck, h⟩ => ⟨hcheck, h⟩, fun ⟨hcheck, h⟩ => ⟨_, hcheck, h⟩⟩

/-- The spot of a path with a name is that of the name in the directory that the others lead to. -/
theorem spot_eq_ok_iff (hnames : path.names = names ++ [name]) : t.spot path = .ok q ↔
    checkPath path = .ok () ∧ ∃ d visited n, n ≤ linkLimit ∧
      Leads t (start path t.workingDirectory) names visited n d ∧ t.enter d name = .ok q := by
  unfold spot
  simp only [Failure.bind_eq_ok, hnames, List.dropLast_concat, List.getLast?_concat,
    follow_eq_ok_iff]
  constructor
  · rintro ⟨_, hcheck, d, ⟨visited, n, hn, hway⟩, henter⟩
    exact ⟨hcheck, d, visited, n, hn, hway, henter⟩
  · rintro ⟨hcheck, d, visited, n, hn, hway, henter⟩
    exact ⟨_, hcheck, d, ⟨visited, n, hn, hway⟩, henter⟩

/-- A path leads to its spot, or on through the link there. -/
theorem place_cases (hnames : path.names = names ++ [name]) (h : t.place path = .ok r) :
    ∃ d visited n q, Leads t (start path t.workingDirectory) names visited n d ∧
      t.enter d name = .ok q ∧ t.spot path = .ok q ∧
      ((r = q ∧ ∀ target, t.entry? q ≠ some (.link target)) ∨ ∃ target visited' n',
        t.entry? q = some (.link target) ∧ n + (n' + 1) ≤ linkLimit ∧
          Leads t (start target q.dropLast) target.names visited' n' r) := by
  obtain ⟨hcheck, visited, n, hn, hway⟩ := place_eq_ok_iff.mp h
  rw [hnames] at hway
  obtain ⟨before, before', m, m', d, hfirst, hlast, rfl, rfl⟩ := hway.split
  have hm : m ≤ linkLimit := Nat.le_trans (Nat.le_add_right _ _) hn
  cases hlast with
  | step henter hplain hmore =>
    cases hmore
    exact ⟨d, before, m, r, hfirst, henter,
      (spot_eq_ok_iff hnames).mpr ⟨hcheck, d, before, m, hm, hfirst, henter⟩, Or.inl ⟨rfl, hplain⟩⟩
  | @link _ q _ _ _ visited' links target henter hlink hmore =>
    rw [List.append_nil] at hmore
    exact ⟨d, before, m, q, hfirst, henter,
      (spot_eq_ok_iff hnames).mpr ⟨hcheck, d, before, m, hm, hfirst, henter⟩,
      Or.inr ⟨target, visited', links, hlink, hn, hmore⟩⟩

/-- The other tree has the same working directory, all directories of this one and the same links. -/
structure KeepsWays (t u : FileTree) : Prop where
  workingDirectory : u.workingDirectory = t.workingDirectory
  directory : ∀ r, t.entry? r = some .directory → u.entry? r = some .directory
  link : ∀ r target, u.entry? r = some (.link target) ↔ t.entry? r = some (.link target)

theorem KeepsWays.refl (t : FileTree) : t.KeepsWays t :=
  ⟨rfl, fun _ h => h, fun _ _ => Iff.rfl⟩

theorem KeepsWays.trans {v : FileTree} (h : t.KeepsWays u) (h' : u.KeepsWays v) : t.KeepsWays v :=
  ⟨h'.workingDirectory.trans h.workingDirectory, fun r hr => h'.directory r (h.directory r hr),
    fun r target => (h'.link r target).trans (h.link r target)⟩

theorem KeepsWays.leads (h : t.KeepsWays u) (hway : Leads t p names visited links r) :
    Leads u p names visited links r := hway.transfer h.directory fun q _ => h.link q

theorem KeepsWays.place (h : t.KeepsWays u) (hq : t.place path = .ok q) : u.place path = .ok q := by
  obtain ⟨hcheck, visited, n, hn, hway⟩ := place_eq_ok_iff.mp hq
  exact place_eq_ok_iff.mpr ⟨hcheck, visited, n, hn, h.workingDirectory ▸ h.leads hway⟩

end

end FileTree

end Concentric
