import Concentric.CommandLine.Printed
import Concentric.Proofs.ChainStarts
import Concentric.Proofs.SettingsLoading

/-! What is printed in full. Chains are, as lines if their steps start on lines of the document and
as a JSON document in any case, and so are settings unless values are nested too deep in them. -/

namespace Concentric.CommandLine.Printed

variable {d : Document} {p q : Printed}

/-- The text does not break off. -/
def Whole (p : Printed) : Prop := p.failure = none

theorem Whole.followedBy (hp : p.Whole) (hq : q.Whole) : (p.followedBy q).Whole := by
  unfold Printed.followedBy
  rw [hp]
  exact hq

theorem whole_all {ps : List Printed} (h : ∀ p ∈ ps, p.Whole) : (all ps).Whole := by
  induction ps with
  | nil => rfl
  | cons p ps ih =>
    obtain ⟨hp, hps⟩ := List.forall_mem_cons.mp h
    exact hp.followedBy (ih hps)

/-! ## Chains -/

theorem stepLine_ok (showText : Bool) (number : Nat) {s : Span} (h : s.start.line < d.lineCount) :
    ∃ line, stepLine showText d number s = .ok line := by
  unfold stepLine
  cases showText with
  | false => exact ⟨_, rfl⟩
  | true =>
    have hline : d.lineAt s.start.line = .ok ⟨s.start.line, d.lines.get ⟨s.start.line, h⟩⟩ := by
      unfold Document.lineAt Document.lineNumbered
      simp only [Numeral.whole?, Option.getD_some, Document.line?_of_lt h]
    unfold snippet Document.lineText
    rw [hline]
    exact ⟨_, rfl⟩

theorem ofChain_whole (showText : Bool) (pos : Position) {c : Chain} (h : c.All (Span.StartsIn d)) :
    (ofChain showText d pos c).Whole := by
  unfold ofChain
  dsimp only
  split
  · exact Whole.followedBy rfl rfl
  · refine Whole.followedBy rfl (whole_all fun line hline => ?_)
    obtain ⟨⟨s, i⟩, hmem, rfl⟩ := List.mem_map.mp hline
    obtain ⟨step, hstep, rfl⟩ := List.mem_map.mp (List.mem_zipIdx' hmem |>.2 ▸ List.getElem_mem _)
    obtain ⟨text, htext⟩ := stepLine_ok showText i (h step hstep)
    show (ofExcept (stepLine showText d i step.span)).failure = none
    rw [htext]
    rfl

theorem ofChains_whole (showText : Bool) {cs : List (Position × Chain)}
    (h : ∀ e ∈ cs, e.2.All (Span.StartsIn d)) : (ofChains showText d cs).Whole := by
  refine whole_all fun part hpart => ?_
  obtain ⟨e, he, rfl⟩ := List.mem_map.mp hpart
  exact ofChain_whole showText e.1 (h e he)

/-! ## Documents -/

theorem ofValue_whole {v : Value} (h : v.IsData) : (ofValue v).Whole := by
  obtain ⟨s, hs⟩ := Json.document_of_isData false h
  unfold ofValue
  rw [hs]
  rfl

/-- A map of two entries is data if both values are. -/
theorem isData_pair {k l : String} {v w : Value} (hv : v.IsData) (hw : w.IsData) :
    (Value.map [(k, v), (l, w)]).IsData :=
  .map (List.forall_mem_cons.mpr ⟨hv, List.forall_mem_singleton.mpr hw⟩)

theorem isData_position (pos : Position) : pos.toValue.IsData := isData_pair (.whole _) (.whole _)

theorem isData_span (s : Span) : s.toValue.IsData :=
  isData_pair (isData_position _) (isData_position _)

theorem chainsValue_isData (cs : List (Position × Chain)) : (chainsValue cs).IsData :=
  .list (List.forall_mem_map.mpr fun _ _ =>
    isData_pair (isData_position _) (.list (List.forall_mem_map.mpr fun s _ => isData_span s)))

theorem isData_settings {s : Settings} (hs : s.Filled) : s.toValue.IsData :=
  .map (List.forall_mem_map.mpr fun f _ => (hs f).isData.plain)

/-- Settings are printed in full, or not at all because they are nested too deep. -/
theorem settings_whole {s : Settings} (hs : s.Filled) (path : String)
    (overridden own : List String) :
    (ofValueOr (settingsValue s path overridden own)).Whole ∨
      (Settings.depthLimit < s.toValue.depth ∧
        (ofValueOr (settingsValue s path overridden own)).failure = some .nestedTooDeep) := by
  unfold settingsValue Settings.toMap
  split
  · next hdeep => exact Or.inr ⟨hdeep, rfl⟩
  · have hnames : ∀ names : List String, (Value.list (names.map .text)).IsData :=
      fun names => .list (List.forall_mem_map.mpr fun n _ => .text n)
    exact Or.inl (ofValue_whole (isData_pair (isData_settings hs)
      (.map (List.forall_mem_cons.mpr ⟨.text path, List.forall_mem_cons.mpr
        ⟨hnames _, List.forall_mem_singleton.mpr (hnames _)⟩⟩))))

end Concentric.CommandLine.Printed
