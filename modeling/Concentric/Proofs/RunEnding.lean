import Concentric.CommandLine.Run
import Concentric.Proofs.BatchAgreement
import Concentric.Proofs.Decoding
import Concentric.Proofs.PositionReading
import Concentric.Proofs.Printing

/-! How runs end. A run whose arguments are in order ends with one of two statuses, and prints
nothing if it was not asked for rightly, unless something is in its way that no stage takes care of.
What may be in the way is listed in full: a level that is no text, files and paths that cannot be
used, and documents that are nested too deep or begin with a mark that the rest does not bear out. -/

namespace Concentric.CommandLine

/-- The files once logging is set up. -/
def treeWithLog (w : Surroundings) (a : Arguments) (before : FileTree) : FileTree :=
  (({ tree := before } : Console).setUpLogging w (logLevel w a) false).2.tree

/-- What keeps a run from ending with a status, with the failure that it ends in. The files are as
they are before the run and after it. -/
inductive Obstacle (w : Surroundings) (a : Arguments) (before after : FileTree) : Failure → Prop
  | level (h : a.logLevel = some .dashes) : Obstacle w a before after .missingAttribute
  | logFile {f : Failure} (wanted : Logging.directoryOf w.environment ≠ "")
      (h : ((Logging.makeFile w.home w.environment {}).on before).1 = .error f) :
      Obstacle w a before after f
  | settingsHome {f : Failure} (h : settingsPath w a = .error f) : Obstacle w a before after f
  | settingsFile {p : Path} {fault : FileFault} (path : settingsPath w a = .ok p)
      (h : (treeWithLog w a before).read p = .error fault) (there : fault ≠ .notFound) :
      Obstacle w a before after (.file fault)
  | settingsDepth {p : Path} {bs : List UInt8} (path : settingsPath w a = .ok p)
      (octets : (treeWithLog w a before).read p = .ok bs) (h : Stored.TooDeep bs) :
      Obstacle w a before after .nestedTooDeep
  | dumpDepth {p : Path} {overrides : List (String × Value)} {s : Settings}
      (asked : a.dumpSettings = true) (path : settingsPath w a = .ok p)
      (given : Override.ofEntries (a.overrides.map Given.toValue) = .ok overrides)
      (loaded : Settings.load (treeWithLog w a before) p overrides w.environment = .ok s)
      (h : Settings.depthLimit < s.toValue.depth) : Obstacle w a before after .nestedTooDeep
  | documentPath {path : String} (asked : a.path = some path)
      (h : after.lookup (.ofText path) = .error .nameTooLong) :
      Obstacle w a before after (.file .nameTooLong)
  | documentFile {path : String} {n : Nat} {fault : FileFault} (asked : a.path = some path)
      (there : after.lookup (.ofText path) = .ok (.file n))
      (h : after.read (.ofText path) = .error fault) : Obstacle w a before after (.file fault)
  | preferred (h : ¬ Codec.IsName w.locale.preferred) :
      Obstacle w a before after (.refused .nulInEncoding)
  | mark {path : String} {bs : List UInt8} {m : List UInt8 × Codec} {f : Failure}
      (asked : a.path = some path) (octets : after.read (.ofText path) = .ok bs)
      (known : m ∈ Codec.marks) (front : m.1.isPrefixOf bs = true)
      (h : Codec.read w.locale m.2.name bs = .error f) : Obstacle w a before after f

/-! ## What is read from words -/

/-- There is a result, or a report of what is wrong. -/
abbrev Reportable {α : Type} : Except Failure α → Prop :=
  Answers (fun f => ∃ r, f = .report r) fun _ => True

theorem given_reportable (g : Given) : Reportable (Position.ofValue g.toValue) := by
  cases g with
  | dashes => exact ⟨_, rfl⟩
  | text s =>
    show Reportable (Position.ofText s)
    rcases Position.ofText_cases s with ⟨p, -, hok⟩ | ⟨-, f, herror, fault, v, rfl⟩
    · rw [hok]
      exact True.intro
    · rw [herror]
      exact ⟨_, rfl⟩

theorem positions_reportable (a : Arguments) :
    Reportable ((positionValues a).mapM Position.ofValue) := by
  have hvalues : ∀ v ∈ positionValues a, Reportable (Position.ofValue v) := by
    unfold positionValues
    split
    · exact List.forall_mem_singleton.mpr (given_reportable (.text "0:0"))
    · exact List.forall_mem_map.mpr fun g _ => given_reportable g
  exact (Answers.mapM hvalues).mono fun _ _ => True.intro

/-- A level that is given as a text or not at all is known or refused. -/
theorem logLevel_cases (w : Surroundings) (a : Arguments) {f : Failure}
    (h : Level.ofValue (logLevel w a) = .error f) :
    f.isRefusal = true ∨ (a.logLevel = some .dashes ∧ f = .missingAttribute) := by
  have htext : ∀ s, Level.ofValue (.text s) = .error f → f.isRefusal = true := by
    intro s hs
    unfold Level.ofValue at hs
    dsimp only at hs
    split at hs
    · cases hs
    · exact Except.error.inj hs ▸ rfl
  unfold logLevel at h
  split at h
  · next g hg =>
    cases g with
    | text s => exact Or.inl (htext s h)
    | dashes => exact Or.inr ⟨hg, (Except.error.inj h).symm⟩
  · exact Or.inl (htext _ h)

/-! ## Logging in a run -/

section

variable {w : Surroundings} {before : FileTree} {c : Console}

/-- Nothing has been printed, and without a directory for it no log has touched the files. -/
structure Quiet (w : Surroundings) (before : FileTree) (c : Console) : Prop where
  output : c.output = ""
  tree : Logging.directoryOf w.environment = "" → c.tree = before

/-- Logging is set up: there is no log file, or it is there to stay. -/
structure Logged (w : Surroundings) (before : FileTree) (c : Console) : Prop
    extends Quiet w before c where
  nowhere : Logging.directoryOf w.environment = "" → Logging.path? c.logging = none
  made : Logging.directoryOf w.environment ≠ "" →
    ∃ p, Logging.path? c.logging = some p ∧ Logging.Made w.home w.environment {} c.tree p

theorem Logged.tell (h : Logged w before c) (n : Notice) : Logged w before (c.tell w n) := by
  refine ⟨⟨h.output, fun hnone => ?_⟩, h.nowhere, fun hsome => ?_⟩
  · have hpath := h.nowhere hnone
    show Logging.record c.logging w.stamp n.logger (.whole n.level) n.message c.tree = before
    unfold Logging.record
    rw [hpath]
    split <;> exact h.tree hnone
  · obtain ⟨p, hpath, hmade⟩ := h.made hsome
    refine ⟨p, hpath, ?_⟩
    show Logging.Made w.home w.environment {}
      (Logging.record c.logging w.stamp n.logger (.whole n.level) n.message c.tree) p
    unfold Logging.record
    rw [hpath]
    split
    -- What cannot be written of a record is lost, and the file stands.
    · exact hmade.append _
    · exact hmade

theorem Logged.tellAll (h : Logged w before c) (ns : List Notice) :
    Logged w before (c.tellAll w ns) := by
  unfold Console.tellAll
  induction ns generalizing c with
  | nil => exact h
  | cons n ns ih => exact ih (h.tell n)

theorem makeFile_cases (w : Surroundings) (t : FileTree) :
    (Logging.directoryOf w.environment = "" ∧
      (Logging.makeFile w.home w.environment {}).on t = (.ok none, t)) ∨
    (Logging.directoryOf w.environment ≠ "" ∧
      ((∃ f t', (Logging.makeFile w.home w.environment {}).on t = (.error f, t')) ∨
        ∃ p t', (Logging.makeFile w.home w.environment {}).on t = (.ok (some p), t') ∧
          Logging.Made w.home w.environment {} t' p)) := by
  have hwants : Logging.wantsFile w.environment {} = (Logging.directoryOf w.environment != "") := rfl
  by_cases hnone : Logging.directoryOf w.environment = ""
  · refine Or.inl ⟨hnone, ?_⟩
    unfold Logging.makeFile
    rw [hwants, hnone]
    rfl
  · refine Or.inr ⟨hnone, ?_⟩
    cases hmake : (Logging.makeFile w.home w.environment {}).on t with
    | mk made t' =>
      cases made with
      | error f => exact Or.inl ⟨f, t', rfl⟩
      | ok file =>
        obtain ⟨p, rfl, hmade⟩ := Logging.made_of_makeFile (hwants.trans (bne_iff_ne.mpr hnone)) hmake
        exact Or.inr ⟨p, t', rfl, hmade⟩

theorem setUpLogging_eq {level : Value} {force : Bool} (h : c.logging = none ∨ force = true) :
    c.setUpLogging w level force = match Level.ofValue level with
      | .error f => (.error f, c)
      | .ok l => match (Logging.makeFile w.home w.environment {}).on c.tree with
        | (.error f, t) => (.error f, { c with tree := t })
        | (.ok file, t) => (.ok (), Console.tell w { c with
            tree := t
            logging := some ⟨l, file, true⟩ } (.loggingConfigured level.display)) := by
  have hgo : ¬ (c.logging.isSome && !(Value.truth force).truthy) = true := by
    rcases h with h | h
    · rw [h]
      exact Bool.false_ne_true
    · rw [h]
      simp [Value.truthy]
  have hmake : ∀ l f, Logging.makeFile w.home w.environment { level := l, force := f } =
      Logging.makeFile w.home w.environment {} := fun _ _ => rfl
  unfold Console.setUpLogging Logging.setUp
  dsimp only
  rw [if_neg hgo, hmake]
  simp only [FileAction.on_bind, FileAction.on_given, FileAction.on_pure]
  cases Level.ofValue level with
  | error f => rfl
  | ok l =>
    dsimp only
    rcases (Logging.makeFile w.home w.environment {}).on c.tree with ⟨f | file, t⟩ <;> rfl

/-- Logging is set up at a level, unless a log file is wanted that cannot be made. -/
theorem Quiet.setUpLogging (h : Quiet w before c) {level : Value} {l : Numeral} {force : Bool}
    (hgo : c.logging = none ∨ force = true) (hlevel : Level.ofValue level = .ok l) :
    (∃ c', c.setUpLogging w level force = (.ok (), c') ∧ Logged w before c') ∨
    ∃ f c', c.setUpLogging w level force = (.error f, c') ∧ Quiet w before c' ∧
      Logging.directoryOf w.environment ≠ "" ∧
      ((Logging.makeFile w.home w.environment {}).on c.tree).1 = .error f := by
  rw [setUpLogging_eq hgo, hlevel]
  dsimp only
  rcases makeFile_cases w c.tree with
    ⟨hnone, hmake⟩ | ⟨hsome, ⟨f, t, hmake⟩ | ⟨p, t, hmake, hmade⟩⟩
  · have hlogged : Logged w before { c with logging := some ⟨l, none, true⟩ } :=
      ⟨⟨h.output, h.tree⟩, fun _ => rfl, fun hsome => absurd hnone hsome⟩
    rw [hmake]
    exact Or.inl ⟨_, rfl, hlogged.tell _⟩
  · rw [hmake]
    exact Or.inr ⟨f, _, rfl, ⟨h.output, fun hnone => absurd hnone hsome⟩, hsome, rfl⟩
  · have hlogged : Logged w before { c with tree := t, logging := some ⟨l, some p, true⟩ } :=
      ⟨⟨h.output, fun hnone => absurd hnone hsome⟩, fun hnone => absurd hnone hsome,
        fun _ => ⟨p, rfl, hmade⟩⟩
    rw [hmake]
    exact Or.inl ⟨_, rfl, hlogged.tell _⟩

/-- Where logging is set up it can be set up once more, as the log file is there to stay. -/
theorem Logged.setUpAgain (h : Logged w before c) (n : Int) :
    ∃ c', c.setUpLogging w (.whole n) true = (.ok (), c') ∧ Logged w before c' := by
  refine (h.toQuiet.setUpLogging (Or.inr rfl) rfl).resolve_right ?_
  rintro ⟨f, c', -, -, hsome, hmake⟩
  obtain ⟨p, -, hmade⟩ := h.made hsome
  have hwants : Logging.wantsFile w.environment {} = true := bne_iff_ne.mpr hsome
  obtain ⟨t, ht⟩ := Logging.makeFile_of_made hwants rfl hmade
  rw [ht] at hmake
  cases hmake

/-! ## The stages of a run -/

variable {a : Arguments} {f : Failure}

/-- The outcome can be told of: a status, with nothing printed if the run was not asked for rightly,
or the failure that something in the way leads to. -/
structure Accounted (w : Surroundings) (a : Arguments) (before : FileTree) (o : Outcome) : Prop where
  tree : Logging.directoryOf w.environment = "" → o.console.tree = before
  ending : o.ending = .status succeeded ∨
    (o.ending = .status misused ∧ o.console.output = "" ∧ o.console.errors ≠ "") ∨
    ∃ f, o.ending = .failed f ∧ Obstacle w a before o.console.tree f

theorem Quiet.complain (h : Quiet w before c) (line : String) : Quiet w before (c.complain line) :=
  ⟨h.output, h.tree⟩

theorem Quiet.misuse (h : Quiet w before c) (line : String) :
    Accounted w a before (c.misuse line) := by
  refine ⟨h.tree, Or.inr (Or.inl ⟨rfl, h.output, ?_⟩)⟩
  show c.errors ++ line ++ "\n" ≠ ""
  simp

theorem Quiet.failed (h : Quiet w before c) (hf : Obstacle w a before c.tree f) :
    Accounted w a before ⟨.failed f, c⟩ := ⟨h.tree, Or.inr (Or.inr ⟨f, rfl, hf⟩)⟩

theorem Quiet.fail (h : Quiet w before c) (heading : String)
    (hf : f.isRefusal = true ∨ Obstacle w a before c.tree f) :
    Accounted w a before (c.fail heading f) := by
  unfold Console.fail
  split
  · exact h.misuse _
  · next hrefusal => exact h.failed (hf.resolve_left hrefusal)

theorem Quiet.finish (h : Quiet w before c) {p : Printed}
    (hp : p.Whole ∨ ∃ f, p.failure = some f ∧ Obstacle w a before c.tree f) :
    Accounted w a before (c.finish p) := by
  unfold Console.finish
  rcases hp with hwhole | ⟨f, hf, hobstacle⟩
  · rw [show p.failure = none from hwhole]
    exact ⟨h.tree, Or.inl rfl⟩
  · rw [hf]
    exact ⟨h.tree, Or.inr (Or.inr ⟨f, rfl, hobstacle⟩)⟩

/-- Under any set-up the parser has typed tokens for a document, with headings on ascending lines
of it. -/
def ParsesInOrder (parser : BlockParser) : Prop :=
  ∀ setup (d : Document), (∀ t ∈ parser setup d.text, t.Typed) ∧
    HeadingsAscend d (parser setup d.text)

/-- A batch has a chain for each position, with all its steps on lines of the document. -/
theorem Batch.chains_made {parser : BlockParser} (hparser : ParsesInOrder parser)
    (s : Settings) (d : Document) (ps : List Position) :
    ∃ cs, (Batch.run parser s d ps).chains = .ok cs ∧ ∀ e ∈ cs, e.2.All (Span.StartsIn d) := by
  have hparsed : (∀ t ∈ Tokenizer.tokensOf parser s d, t.Typed) ∧
      HeadingsAscend d (Tokenizer.tokensOf parser s d) := hparser (.ofSettings s) d
  obtain ⟨ht, ha⟩ := hparsed
  obtain ⟨outline, houtline, hs, -⟩ := Outline.ofTokens_sectioned ht ha
  rw [Batch.chains_run, houtline, Failure.ok_bind]
  induction ps with
  | nil => exact ⟨[], rfl, fun _ he => absurd he List.not_mem_nil⟩
  | cons p ps ih =>
    obtain ⟨c, hc, hstarts⟩ := Selection.chain_made hs ht s.listDepthCap p
    obtain ⟨cs, hcs, hall⟩ := ih
    refine ⟨(p, c) :: cs, ?_, List.forall_mem_cons.mpr ⟨hstarts, hall⟩⟩
    rw [Batch.pairs_cons, hc, Failure.ok_bind, hcs]
    rfl

theorem Logged.runChains (h : Logged w before c) (hparser : ParsesInOrder w.parser)
    (s : Settings) (d : Document) (ps : List Position) :
    Accounted w a before (runChains w c a s d ps) := by
  obtain ⟨cs, hcs, hstarts⟩ := Batch.chains_made hparser s d ps
  have hcalls : Logged w before { c with calls := (Batch.run w.parser s d ps).calls } :=
    ⟨⟨h.output, h.tree⟩, h.nowhere, h.made⟩
  unfold CommandLine.runChains
  dsimp only
  rw [hcs]
  refine (hcalls.tellAll _).toQuiet.finish (Or.inl ?_)
  split
  · exact Printed.ofValue_whole (Printed.chainsValue_isData cs)
  · exact Printed.ofChains_whole a.showText hstarts

/-- A request is not loaded if there is something to report, or something in the way. -/
theorem loadRequest_eq_error {path : String} (hpath : a.path = some path)
    (h : loadRequest w c a path = .error f) :
    (∃ r, f = .report r) ∨ Obstacle w a before c.tree f := by
  rcases Failure.bind_eq_error.mp h with hload | ⟨d, -, h⟩
  · rcases Document.load_eq_error hload with hreport | ⟨rfl, hlong⟩ |
      ⟨n, fault, rfl, hthere, hread⟩ | ⟨bs, hread, hoctets⟩
    · exact Or.inl hreport
    · exact Or.inr (.documentPath hpath hlong)
    · exact Or.inr (.documentFile hpath hthere hread)
    · refine Or.inr ?_
      rcases LoadedText.ofOctets_eq_error hoctets with ⟨hname, rfl⟩ | ⟨m, hm, hfront, hmark⟩
      · exact .preferred hname
      · exact .mark hpath hread hm hfront hmark
  · rcases Failure.bind_eq_error.mp h with hread | ⟨ps, -, hpure⟩
    · exact Or.inl ((positions_reportable a).error_of hread)
    · cases hpure

theorem Logged.runDocument (h : Logged w before c) (hparser : ParsesInOrder w.parser)
    (s : Settings) : Accounted w a before (runDocument w c a s) := by
  unfold CommandLine.runDocument
  cases hpath : a.path with
  | none => exact (h.toQuiet.complain w.usage).misuse _
  | some path =>
    dsimp only
    cases hload : loadRequest w c a path with
    | ok request => exact h.runChains hparser s request.1 request.2
    | error f =>
      rcases loadRequest_eq_error hpath hload with ⟨r, rfl⟩ | hobstacle
      · exact h.toQuiet.misuse r.text
      · cases f with
        | report r => exact h.toQuiet.misuse r.text
        | _ => exact h.toQuiet.failed hobstacle

theorem Logged.runSettings (h : Logged w before c) (hparser : ParsesInOrder w.parser)
    {p : Path} {overrides : List (String × Value)} {s : Settings} (hp : settingsPath w a = .ok p)
    (hgiven : Override.ofEntries (a.overrides.map Given.toValue) = .ok overrides)
    (hloaded : Settings.load (treeWithLog w a before) p overrides w.environment = .ok s)
    (hs : s.Filled) : Accounted w a before (runSettings w c a p overrides s) := by
  unfold CommandLine.runSettings
  split
  · next hdump =>
    refine h.toQuiet.finish ((Printed.settings_whole hs _ _ _).imp_right fun ⟨hdeep, hfailure⟩ => ?_)
    exact ⟨_, hfailure, .dumpDepth hdump hp hgiven hloaded hdeep⟩
  · split
    -- For debugging logging is set up a second time, which cannot fail after the first.
    · obtain ⟨c', hc', hlogged⟩ := h.setUpAgain Level.debug
      rw [hc']
      exact hlogged.runDocument hparser s
    · exact h.runDocument hparser s

theorem Logged.runLogged (h : Logged w before c) (hparser : ParsesInOrder w.parser)
    (htree : treeWithLog w a before = c.tree) : Accounted w a before (runLogged w c a) := by
  unfold CommandLine.runLogged
  cases hp : settingsPath w a with
  | error f => exact h.toQuiet.failed (.settingsHome hp)
  | ok p =>
    dsimp only
    have hrefusable := Override.ofEntries_refusable (a.overrides.map Given.toValue)
    cases hgiven : Override.ofEntries (a.overrides.map Given.toValue) with
    | error f => exact h.toQuiet.fail _ (Or.inl (hrefusable.error_of hgiven))
    | ok overrides =>
      have hfits := hrefusable.ok_of hgiven
      have htold := h.tellAll (Settings.loadNotices c.tree p overrides w.environment)
      dsimp only
      cases hload : Settings.load c.tree p overrides w.environment with
      | ok s =>
        exact htold.runSettings hparser hp hgiven (htree ▸ hload)
          (Settings.filled_of_load hfits hload)
      | error f =>
        -- Overrides and variables are refused at worst, so what is left comes of the file.
        refine htold.toQuiet.fail _ ((Settings.load_eq_error hfits hload).elim Or.inl fun hread => ?_)
        rcases Stored.read_eq_error hread with
          hrefusal | ⟨fault, rfl, hfault, hthere⟩ | ⟨bs, rfl, hbs, hdeep⟩
        · exact Or.inl hrefusal
        · exact Or.inr (.settingsFile hp (htree ▸ hfault) hthere)
        · exact Or.inr (.settingsDepth hp (htree ▸ hbs) hdeep)

theorem runArguments_accounted (hparser : ParsesInOrder w.parser) (a : Arguments) :
    Accounted w a before (runArguments w { tree := before } a) := by
  have hquiet : Quiet w before { tree := before } := ⟨rfl, fun _ => rfl⟩
  unfold runArguments
  cases hlevel : Level.ofValue (logLevel w a) with
  | error f =>
    have hfails : Console.setUpLogging w { tree := before } (logLevel w a) false =
        (.error f, { tree := before }) := by rw [setUpLogging_eq (Or.inl rfl), hlevel]
    rw [hfails]
    exact hquiet.fail _ ((logLevel_cases w a hlevel).imp_right fun ⟨hdashes, hf⟩ =>
      hf ▸ .level hdashes)
  | ok l =>
    rcases hquiet.setUpLogging (Or.inl rfl) hlevel with
      ⟨c, hc, hlogged⟩ | ⟨f, c, hc, hfailed, hwanted, hmake⟩
    · rw [hc]
      exact hlogged.runLogged hparser (by rw [treeWithLog, hc])
    · rw [hc]
      exact hfailed.fail _ (Or.inr (.logFile hwanted hmake))

/-- A run with arguments in order ends with one of two statuses, the one for misuse with nothing
printed, unless something is in its way. -/
theorem run_accounted (hparser : ParsesInOrder w.parser) {words : List String}
    (hwords : Arguments.ofTexts words = .ok a) : Accounted w a before (run w before words) := by
  unfold run
  rw [hwords]
  exact runArguments_accounted hparser a

/-- The parser has paragraphs for one text and nothing for others. -/
theorem apartParser_inOrder : ParsesInOrder Batch.apartParser := by
  have hparagraph : ∀ line content, ∀ t ∈ Batch.paragraphOn line content,
      t.Typed ∧ t.opensHeading = false := by
    intro line content
    unfold Batch.paragraphOn
    simp only [List.forall_mem_cons]
    refine ⟨?_, ?_, ?_, fun t ht => absurd ht List.not_mem_nil⟩ <;>
      exact ⟨⟨⟨_, rfl⟩, ⟨_, rfl⟩, ⟨_, rfl⟩, ⟨_, rfl⟩, ⟨_, rfl⟩⟩, rfl⟩
  intro setup d
  have hall : ∀ t ∈ Batch.apartParser setup d.text, t.Typed ∧ t.opensHeading = false := by
    unfold Batch.apartParser
    split
    · exact List.forall_mem_append.mpr ⟨hparagraph 0 "a", hparagraph 2 "b"⟩
    · exact fun t ht => absurd ht List.not_mem_nil
  have hnone : (Batch.apartParser setup d.text).filter Token.opensHeading = [] :=
    List.filter_eq_nil_iff.mpr fun t ht => by simp [(hall t ht).2]
  exact ⟨fun t ht => (hall t ht).1, .of_lines [] (by rw [hnone]; rfl) nofun .nil⟩

def bare : Surroundings where
  home := ⟨"/", ["home"]⟩
  environment := []
  locale := { preferred := Codec.utf8.name }
  base := "/work"
  usage := "usage: " ++ Program.name
  help := ""
  stamp := "12:00"
  parser := Batch.apartParser

/-- A working directory with a document in it. -/
def oneDocument (bs : List UInt8) : FileTree := .oneFile "a.md" bs

/-- The two paragraphs and a position on the second of them. -/
theorem apart_accounted :
    ParsesInOrder bare.parser ∧
    Arguments.ofTexts ["a.md", "-p", "2:0"] =
      .ok { path := some "a.md", positions := [.text "2:0"] } ∧
    Accounted bare { path := some "a.md", positions := [.text "2:0"] }
      (oneDocument (Utf8.octets Batch.apart.text))
      (run bare (oneDocument (Utf8.octets Batch.apart.text)) ["a.md", "-p", "2:0"]) ∧
    (run bare (oneDocument (Utf8.octets Batch.apart.text)) ["a.md", "-p", "2:0"]).console.output =
      "2:0\n  [0] 2:0-2:1\n" := by
  have hwords : Arguments.ofTexts ["a.md", "-p", "2:0"] =
      .ok { path := some "a.md", positions := [.text "2:0"] } := rfl
  exact ⟨apartParser_inOrder, hwords, run_accounted apartParser_inOrder hwords, by decide +kernel⟩

/-- A mark for UTF-16 with half a unit after it is no text, and the run ends without a status. -/
theorem half_unit_fails :
    Arguments.ofTexts ["a.md"] = .ok { path := some "a.md" } ∧
    ∀ code, (run bare (oneDocument [0xFF, 0xFE, 0x61]) ["a.md"]).ending ≠ .status code := by
  have hfailed : ((run bare (oneDocument [0xFF, 0xFE, 0x61]) ["a.md"]).ending matches
      .failed (.undecodable _)) = true := by decide +kernel
  refine ⟨rfl, fun code hcode => ?_⟩
  rw [hcode] at hfailed
  cases hfailed

end

end Concentric.CommandLine
