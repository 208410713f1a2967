import Concentric.Proofs.OutlineStack
import Concentric.Proofs.Rows

/-! The chain of headings by lines. Around a line the sections of an outline lie one within the
other, and the closest heading is the last one down to the line. So no section is left out of the
chain, no end comes before a start, and what is cut off begins below the line. -/

namespace Concentric

namespace Heading

/-- The lines of a section. -/
def rows (h : Heading) : Rows := ⟨h.top, h.bottom⟩

/-- The lines of a section below its heading. -/
def contentRows (h : Heading) : Rows := ⟨h.top + 1, h.bottom⟩

/-- The first heading within a section, below its own. -/
def nextInside? (h : Heading) (outline : List Heading) : Option Heading :=
  outline.find? fun t => decide (h.top < t.top) && decide (t.top ≤ h.bottom)

/-- The lines from a first one up to the first heading within a section. -/
def cutRows (h : Heading) (outline : List Heading) (first : Nat) : List Rows :=
  ((h.nextInside? outline).map fun t => ⟨first, t.top - 1⟩).toList

end Heading

namespace Headings

open Outline

/-- The lines of the closest heading's steps, from the innermost outwards. -/
def closestRows (outline : List Heading) (line : Nat) (h : Heading) : List Rows :=
  if h.top = line then h.cutRows outline h.top ++ [h.rows]
  else h.cutRows outline (h.top + 1) ++ [h.contentRows, h.rows]

/-- The lines of the steps of the headings around a line, the closest one first. -/
def rowsOf (outline : List Heading) (line : Nat) : List Heading → List Rows
  | [] => []
  | h :: outer => closestRows outline line h ++ outer.flatMap fun g => [g.contentRows, g.rows]

/-- The lines of the chain of headings around a line. -/
def rowsAround (outline : List Heading) (line : Nat) : List Rows :=
  rowsOf outline line (outline.filter (covers line)).reverse

section

variable {d : Document} {outline : List Heading} {line : Nat} {h : Heading}

/-! ## Sections around a line -/

theorem sectioned_of_mem (hs : Sectioned d outline) (hh : h ∈ outline) :
    ∃ pre rest, outline = pre ++ h :: rest ∧ Sectioned d (h :: rest) := by
  obtain ⟨pre, rest, rfl⟩ := List.append_of_mem hh
  exact ⟨pre, rest, rfl, hs.drop⟩

theorem span_of_mem (hs : Sectioned d outline) (hh : h ∈ outline) : h.span = h.rows.span d := by
  obtain ⟨pre, rest, rfl, hrest⟩ := sectioned_of_mem hs hh
  exact hrest.span_eq

theorem bottom_lt_of_mem (hs : Sectioned d outline) (hh : h ∈ outline) :
    h.bottom < d.lineCount := by
  obtain ⟨pre, rest, rfl, hrest⟩ := sectioned_of_mem hs hh
  exact ((hrest.le_bottom_iff h.bottom).mp (Nat.le_refl _)).1

theorem covers_iff : covers line h = true ↔ h.top ≤ line ∧ line ≤ h.bottom := by
  unfold covers Heading.top Heading.bottom
  simp

theorem rows_at (hs : Sectioned d outline) (hh : h ∈ outline) (hcov : covers line h = true) :
    h.rows.At d line :=
  ⟨(covers_iff.mp hcov).1, (covers_iff.mp hcov).2, bottom_lt_of_mem hs hh⟩

theorem contentRows_at (hs : Sectioned d outline) (hh : h ∈ outline) (hcov : covers line h = true)
    (hne : h.top ≠ line) : h.contentRows.At d line := by
  obtain ⟨htop, hbottom⟩ := covers_iff.mp hcov
  exact ⟨Nat.lt_of_le_of_ne htop hne, hbottom, bottom_lt_of_mem hs hh⟩

theorem split_of_lt (hs : Sectioned d outline) {g : Heading} (hg : g ∈ outline) (hh : h ∈ outline)
    (hlt : g.top < h.top) : ∃ pre mid post, outline = pre ++ g :: (mid ++ h :: post) := by
  obtain ⟨pre, rest, rfl⟩ := List.append_of_mem hg
  have hafter := (List.pairwise_append.mp hs.ascending).2.2
  rcases List.mem_append.mp hh with hh | hh
  · have := hafter h hh g List.mem_cons_self
    omega
  · rcases List.mem_cons.mp hh with rfl | hh
    · omega
    · obtain ⟨mid, post, rfl⟩ := List.append_of_mem hh
      exact ⟨pre, mid, post, rfl⟩

/-- A section that starts below a heading and within its section lies within that. -/
theorem contains_iff_of_lt (hs : Sectioned d outline) {g : Heading} (hg : g ∈ outline)
    (hh : h ∈ outline) (hlt : g.top < h.top) :
    g.span.contains h.span = true ↔ h.top ≤ g.bottom := by
  obtain ⟨pre, mid, post, rfl⟩ := split_of_lt hs hg hh hlt
  rw [nested_iff hs.drop, below_bottom_iff hs.drop]

theorem bottom_le_of_lt (hs : Sectioned d outline) {g : Heading} (hg : g ∈ outline)
    (hh : h ∈ outline) (hlt : g.top < h.top) (hle : h.top ≤ g.bottom) : h.bottom ≤ g.bottom := by
  obtain ⟨pre, mid, post, rfl⟩ := split_of_lt hs hg hh hlt
  exact bottom_le_of_top_le hs.drop hle

/-- The headings around a line, of which each later one lies below the earlier and within it. -/
theorem around_nested (hs : Sectioned d outline) (line : Nat) :
    (outline.filter (covers line)).Pairwise fun g h => g.top < h.top ∧ h.bottom ≤ g.bottom := by
  refine (hs.ascending.sublist List.filter_sublist).imp_of_mem ?_
  intro g h hg hh hlt
  obtain ⟨hg, hgcov⟩ := List.mem_filter.mp hg
  obtain ⟨hh, hhcov⟩ := List.mem_filter.mp hh
  have hle := Nat.le_trans (covers_iff.mp hhcov).1 (covers_iff.mp hgcov).2
  exact ⟨hlt, bottom_le_of_lt hs hg hh hlt hle⟩

/-- No heading stands between the closest one around a line and the line. -/
theorem top_le_closest (hs : Sectioned d outline)
    (hlast : (outline.filter (covers line)).getLast? = some h) :
    ∀ t ∈ outline, t.top ≤ line → t.top ≤ h.top := by
  intro t ht hle
  have hh := List.mem_of_getLast? hlast
  have hline : line < d.lineCount := by
    have hcov := (covers_iff.mp (List.mem_filter.mp hh).2).2
    have := bottom_lt_of_mem hs (List.mem_filter.mp hh).1
    omega
  rw [filter_covers_eq_unclosed hs hline, getLast?_unclosed] at hlast
  obtain ⟨pre, hpre⟩ := List.getLast?_eq_some_iff.mp hlast
  have hasc := hs.ascending.sublist (List.filter_sublist (p := fun h => decide (h.top ≤ line)))
  have htmem : t ∈ outline.filter fun h => decide (h.top ≤ line) :=
    List.mem_filter.mpr ⟨ht, decide_eq_true hle⟩
  rw [hpre] at hasc htmem
  rcases List.mem_append.mp htmem with htmem | htmem
  · exact Nat.le_of_lt ((List.pairwise_append.mp hasc).2.2 t htmem h List.mem_cons_self)
  · exact Nat.le_of_eq (congrArg Heading.top (List.mem_singleton.mp htmem))

/-- Where there are headings around a line, one stands on it if and only if the closest does. -/
theorem isHeadingLine_eq (hs : Sectioned d outline)
    (hlast : (outline.filter (covers line)).getLast? = some h) :
    isHeadingLine outline line = decide (h.top = line) := by
  obtain ⟨hh, hcov⟩ := List.mem_filter.mp (List.mem_of_getLast? hlast)
  have hon : ∀ t ∈ outline, t.line.isNumber line = decide (t.top = line) := by
    intro t ht
    rw [Value.isNumber_of_wholeNumber? (hs.line_eq t ht)]
    simp only [Int.natCast_inj]
  unfold isHeadingLine
  rw [Bool.eq_iff_iff, List.any_eq_true, decide_eq_true_eq]
  constructor
  · intro ⟨t, ht, htline⟩
    rw [hon t ht, decide_eq_true_eq] at htline
    have := top_le_closest hs hlast t ht (Nat.le_of_eq htline)
    have := (covers_iff.mp hcov).1
    omega
  · intro htop
    refine ⟨h, hh, ?_⟩
    rw [hon h hh]
    exact decide_eq_true htop

/-! ## Where the closest section is cut off -/

theorem children_eq (hs : Sectioned d outline) (hh : h ∈ outline) :
    children h outline =
      outline.filter fun t => decide (h.top < t.top) && decide (t.top ≤ h.bottom) := by
  refine List.filter_congr fun t ht => ?_
  show (h.span.contains t.span && decide (h.top < t.top)) = _
  by_cases hlt : h.top < t.top
  · have hiff := contains_iff_of_lt hs hh ht hlt
    rw [decide_eq_true hlt, Bool.and_true, Bool.true_and, Bool.eq_iff_iff, hiff, decide_eq_true_eq]
  · rw [decide_eq_false hlt, Bool.and_false, Bool.false_and]

theorem firstOf_eq (hs : Sectioned d outline) (hh : h ∈ outline) {cs : List Heading}
    (hcs : ∀ c ∈ cs, c ∈ outline ∧ h.top < c.top) : firstOf h cs = .ok h := by
  induction cs with
  | nil => rfl
  | cons c cs ih =>
    obtain ⟨hc, hlt⟩ := hcs c List.mem_cons_self
    have hnot : ¬ (c.top : Int) < h.top := by omega
    unfold firstOf
    rw [Value.lessThan_of_wholeNumber? (hs.line_eq c hc) (hs.line_eq h hh), decide_eq_false hnot]
    exact ih fun t ht => hcs t (List.mem_cons_of_mem _ ht)

theorem boundary_eq (hs : Sectioned d outline) (hh : h ∈ outline) :
    boundary d h outline =
      .ok ((h.nextInside? outline).map fun t => d.lineEnd ((t.top - 1 : Nat) : Int)) := by
  unfold boundary Heading.nextInside?
  rw [children_eq hs hh, ← List.head?_filter]
  have hasc := hs.ascending.sublist
    (List.filter_sublist (p := fun t => decide (h.top < t.top) && decide (t.top ≤ h.bottom)))
  have hmem : ∀ t ∈ outline.filter fun t => decide (h.top < t.top) && decide (t.top ≤ h.bottom),
      t ∈ outline ∧ h.top < t.top ∧ t.top ≤ h.bottom := by
    intro t ht
    obtain ⟨ht, hin⟩ := List.mem_filter.mp ht
    simp only [Bool.and_eq_true, decide_eq_true_eq] at hin
    exact ⟨ht, hin⟩
  cases hf : outline.filter fun t => decide (h.top < t.top) && decide (t.top ≤ h.bottom) with
  | nil => rfl
  | cons c cs =>
    rw [hf] at hasc hmem
    obtain ⟨hc, hlt, hle⟩ := hmem c List.mem_cons_self
    have hbottom := bottom_lt_of_mem hs hh
    have hfirst : firstOf c cs = .ok c := firstOf_eq hs hc fun t ht =>
      ⟨(hmem t (List.mem_cons_of_mem _ ht)).1, (List.pairwise_cons.mp hasc).1 t ht⟩
    -- a heading within the section does not stand on the first line, so there is one above it
    have hprev : c.top - 1 < d.lineCount := by omega
    have hline : (c.span.start.line : Int) - 1 = ((c.top - 1 : Nat) : Int) := by
      show (c.top : Int) - 1 = _
      omega
    obtain ⟨pre, rest, -, hrest⟩ := sectioned_of_mem hs hc
    have hmove : c.span.start.translate (-1) (d.nearestLength ((c.top - 1 : Nat) : Int)) =
        d.lineEnd ((c.top - 1 : Nat) : Int) := by
      rw [hrest.start_eq]
      unfold Position.translate Position.clamped Document.lineEnd
      rw [d.clampLine_of_lt hprev]
      ext <;> simp only <;> omega
    simp only [hfirst, Failure.ok_bind, hline, Document.lineLength_of_lt hprev]
    rw [hmove]
    rfl

/-! ## The lines of the chain -/

theorem mem_cutRows {first : Nat} {r : Rows} (hr : r ∈ h.cutRows outline first) :
    ∃ t ∈ outline, h.top < t.top ∧ t.top ≤ h.bottom ∧ r = ⟨first, t.top - 1⟩ := by
  obtain ⟨t, ht, rfl⟩ := Option.map_eq_some_iff.mp (Option.mem_toList.mp hr)
  have hin := List.find?_some ht
  simp only [Bool.and_eq_true, decide_eq_true_eq] at hin
  exact ⟨t, List.mem_of_find?_eq_some ht, hin.1, hin.2, rfl⟩

/-- The section of the closest heading is cut off below the line. -/
theorem cutRows_at (hs : Sectioned d outline)
    (hlast : (outline.filter (covers line)).getLast? = some h) {first : Nat} (hle : first ≤ line)
    {r : Rows} (hr : r ∈ h.cutRows outline first) : r.At d line := by
  obtain ⟨t, ht, hlt, hbottom, rfl⟩ := mem_cutRows hr
  have hcount := bottom_lt_of_mem hs (List.mem_filter.mp (List.mem_of_getLast? hlast)).1
  have hbelow : line < t.top := by
    by_contra hnot
    have := top_le_closest hs hlast t ht (Nat.not_lt.mp hnot)
    omega
  exact ⟨hle, by dsimp only; omega, by dsimp only; omega⟩

theorem rows_mem_closestRows (outline : List Heading) (line : Nat) (h : Heading) :
    h.rows ∈ closestRows outline line h := by
  unfold closestRows
  split
  · exact List.mem_append_right _ List.mem_cons_self
  · exact List.mem_append_right _ (List.mem_cons_of_mem _ List.mem_cons_self)

theorem closestRows_at (hs : Sectioned d outline)
    (hlast : (outline.filter (covers line)).getLast? = some h) :
    ∀ r ∈ closestRows outline line h, r.At d line := by
  obtain ⟨hh, hcov⟩ := List.mem_filter.mp (List.mem_of_getLast? hlast)
  have htop := (covers_iff.mp hcov).1
  intro r hr
  unfold closestRows at hr
  split at hr
  · rcases List.mem_append.mp hr with hr | hr
    · exact cutRows_at hs hlast htop hr
    · rw [List.mem_singleton.mp hr]
      exact rows_at hs hh hcov
  · next hne =>
    rcases List.mem_append.mp hr with hr | hr
    · exact cutRows_at hs hlast (Nat.lt_of_le_of_ne htop hne) hr
    · rcases List.mem_cons.mp hr with rfl | hr
      · exact contentRows_at hs hh hcov hne
      · rw [List.mem_singleton.mp hr]
        exact rows_at hs hh hcov

/-- All lines of the chain of headings around a line have it. -/
theorem rowsAround_at (hs : Sectioned d outline) (line : Nat) :
    ∀ r ∈ rowsAround outline line, r.At d line := by
  have hnested := around_nested hs line
  have hmem : ∀ g ∈ outline.filter (covers line), g ∈ outline ∧ covers line g = true :=
    fun g hg => List.mem_filter.mp hg
  unfold rowsAround
  rcases List.eq_nil_or_concat (outline.filter (covers line)) with hnil | ⟨pre, h, hpre⟩
  · rw [hnil]
    intro r hr
    cases hr
  · have hlast : (outline.filter (covers line)).getLast? = some h := by
      rw [hpre, List.concat_eq_append, List.getLast?_concat]
    rw [hpre, List.concat_eq_append] at hnested hmem
    rw [hpre, List.concat_eq_append, List.reverse_append]
    intro r hr
    rcases List.mem_append.mp hr with hr | hr
    · exact closestRows_at hs hlast r hr
    · obtain ⟨g, hg, hr⟩ := List.mem_flatMap.mp hr
      have hg : g ∈ pre := List.mem_reverse.mp hg
      obtain ⟨hgo, hgcov⟩ := hmem g (List.mem_append_left _ hg)
      have hlt := ((List.pairwise_append.mp hnested).2.2 g hg h List.mem_cons_self).1
      have htop := (covers_iff.mp (hmem h (by simp)).2).1
      rcases List.mem_cons.mp hr with rfl | hr
      · exact contentRows_at hs hgo hgcov (by omega)
      · rw [List.mem_singleton.mp hr]
        exact rows_at hs hgo hgcov

theorem rowsOf_concat {hs : List Heading} (hne : hs ≠ []) (g : Heading) :
    rowsOf outline line (hs ++ [g]) = rowsOf outline line hs ++ [g.contentRows, g.rows] := by
  cases hs with
  | nil => exact absurd rfl hne
  | cons h hs =>
    show closestRows outline line h ++ (hs ++ [g]).flatMap _ = _
    rw [List.flatMap_append, ← List.append_assoc]
    rfl

/-! ## The steps of the chain -/

theorem content_eq (hs : Sectioned d outline) (hh : h ∈ outline) :
    Span.between (h.span.start.translate 1 0) h.span.stop = h.contentRows.span d := by
  obtain ⟨pre, rest, -, hrest⟩ := sectioned_of_mem hs hh
  rw [hrest.start_eq, hrest.stop_eq]
  rfl

theorem extend_outer (hs : Sectioned d outline) (hh : h ∈ outline) (onLine : Bool) {os : List Rows}
    (hin : ∀ p ∈ os.head?, (p.span d).contains (h.rows.span d) = true) :
    extend h false onLine (os.map (Rows.step d)) none =
      (h.contentRows :: h.rows :: os).map (Rows.step d) := by
  unfold extend
  dsimp only
  rw [content_eq hs hh, span_of_mem hs hh, Bool.and_false, if_neg Bool.false_ne_true]
  cases os with
  | nil => rfl
  | cons p os =>
    have hp : ((p.step d).span.contains (h.rows.span d)) = true := hin p rfl
    simp only [List.map_cons, hp, if_true]
    rfl

theorem cut_steps {full : Rows} (hfull : full.At d line) (h : Heading) :
    (((h.nextInside? outline).map fun t => d.lineEnd ((t.top - 1 : Nat) : Int)).map fun p =>
        Step.fresh ((full.span d).withEnds none (some p))).toList =
      (h.cutRows outline full.first).map (Rows.step d) := by
  unfold Heading.cutRows
  cases h.nextInside? outline with
  | none => rfl
  | some t =>
    have hcut : (full.span d).withEnds none (some (d.lineEnd ((t.top - 1 : Nat) : Int))) =
        Rows.span d ⟨full.first, t.top - 1⟩ := by
      unfold Span.withEnds
      rw [Option.getD_none, hfull.proper.start_eq]
      rfl
    simp only [Option.map_some, Option.toList_some, hcut]
    rfl

theorem extend_closest (hs : Sectioned d outline)
    (hlast : (outline.filter (covers line)).getLast? = some h) {os : List Rows}
    (hin : ∀ p ∈ os.head?, (p.span d).contains (h.rows.span d) = true) :
    extend h true (isHeadingLine outline line) (os.map (Rows.step d))
        ((h.nextInside? outline).map fun t => d.lineEnd ((t.top - 1 : Nat) : Int)) =
      (closestRows outline line h ++ os).map (Rows.step d) := by
  obtain ⟨hh, hcov⟩ := List.mem_filter.mp (List.mem_of_getLast? hlast)
  unfold extend closestRows
  dsimp only
  rw [content_eq hs hh, span_of_mem hs hh, isHeadingLine_eq hs hlast, Bool.and_true]
  by_cases htop : h.top = line
  · rw [if_pos (decide_eq_true htop), if_pos htop, cut_steps (rows_at hs hh hcov), List.map_append,
      List.map_append, List.append_assoc]
    rfl
  · rw [if_neg (by simpa using htop), if_neg htop, if_pos rfl,
      cut_steps (contentRows_at hs hh hcov htop), List.map_append, List.map_append,
      List.append_assoc]
    cases os with
    | nil => rfl
    | cons p os =>
      have hp : ((p.step d).span.contains (h.rows.span d)) = true := hin p rfl
      simp only [List.map_cons, hp, if_true]
      rfl

theorem contains_of_within (hs : Sectioned d outline) (hh : h ∈ outline)
    (hcov : covers line h = true) {os : List Rows} (hos : ∀ r ∈ os, r.At d line)
    (hin : ∀ p ∈ os.head?, h.rows.Within p) :
    ∀ p ∈ os.head?, (p.span d).contains (h.rows.span d) = true := by
  intro p hp
  have hproper := (hos p (List.mem_of_mem_head? hp)).proper
  rw [Rows.contains_span_iff (rows_at hs hh hcov).proper hproper]
  exact hin p hp

/-- The closest heading, which is built last, adds its steps. -/
theorem build_closest (hs : Sectioned d outline)
    (hlast : (outline.filter (covers line)).getLast? = some h) {os : List Rows}
    (hos : ∀ r ∈ os, r.At d line) (hin : ∀ p ∈ os.head?, h.rows.Within p) :
    build d outline (isHeadingLine outline line) (os.map (Rows.step d)) [h] =
      .ok ((closestRows outline line h ++ os).map (Rows.step d)) := by
  obtain ⟨hh, hcov⟩ := List.mem_filter.mp (List.mem_of_getLast? hlast)
  unfold build
  rw [boundary_eq hs hh, Failure.ok_bind,
    extend_closest hs hlast (contains_of_within hs hh hcov hos hin)]
  rfl

/-- A heading with another one inside does not stand on the line, and its steps have the line. -/
theorem outerRows_at (hs : Sectioned d outline) (hh : h ∈ outline) (hcov : covers line h = true)
    (hne : h.top ≠ line) {os : List Rows} (hos : ∀ r ∈ os, r.At d line) :
    ∀ r ∈ h.contentRows :: h.rows :: os, r.At d line := by
  intro r hr
  rcases List.mem_cons.mp hr with rfl | hr
  · exact contentRows_at hs hh hcov hne
  rcases List.mem_cons.mp hr with rfl | hr
  · exact rows_at hs hh hcov
  · exact hos r hr

/-- Building inwards from the steps of the outer headings adds those of the headings left. -/
theorem build_eq (hs : Sectioned d outline) {pre rest : List Heading} {os : List Rows}
    (haround : outline.filter (covers line) = pre ++ rest) (hos : ∀ r ∈ os, r.At d line)
    (hin : ∀ p ∈ os.head?, ∀ h ∈ rest, h.rows.Within p) :
    build d outline (isHeadingLine outline line) (os.map (Rows.step d)) rest =
      .ok ((rowsOf outline line rest.reverse ++ os).map (Rows.step d)) := by
  induction rest generalizing pre os with
  | nil => rfl
  | cons h rest ih =>
    have hmem : ∀ g ∈ h :: rest, g ∈ outline ∧ covers line g = true := fun g hg =>
      List.mem_filter.mp (haround ▸ List.mem_append_right _ hg)
    obtain ⟨hh, hcov⟩ := hmem h List.mem_cons_self
    have hhin : ∀ p ∈ os.head?, h.rows.Within p := fun p hp => hin p hp h List.mem_cons_self
    cases rest with
    | nil =>
      have hlast : (outline.filter (covers line)).getLast? = some h := by
        rw [haround, List.getLast?_concat]
      have hone : rowsOf outline line [h].reverse = closestRows outline line h := by
        show closestRows outline line h ++ [] = _
        rw [List.append_nil]
      rw [hone]
      exact build_closest hs hlast hos hhin
    | cons g rest =>
      have hnested := around_nested hs line
      rw [haround] at hnested
      have hbelow := (List.pairwise_cons.mp (List.pairwise_append.mp hnested).2.1).1
      have hne : h.top ≠ line := by
        have := (hbelow g List.mem_cons_self).1
        have := (covers_iff.mp (hmem g (by simp)).2).1
        omega
      -- the headings left lie in the content of this one, which is the innermost step from here
      have hwithin : ∀ t ∈ g :: rest, t.rows.Within h.contentRows := by
        intro t ht
        obtain ⟨hlt, hle⟩ := hbelow t ht
        exact ⟨hlt, hle⟩
      have hsplit : outline.filter (covers line) = (pre ++ [h]) ++ g :: rest := by
        rw [haround, List.append_assoc]
        rfl
      have hinner := ih hsplit (outerRows_at hs hh hcov hne hos) fun p hp t ht =>
        Option.mem_some.mp hp ▸ hwithin t ht
      show build d outline _ (extend h false _ (os.map (Rows.step d)) none) (g :: rest) = _
      rw [extend_outer hs hh _ (contains_of_within hs hh hcov hos hhin), hinner]
      have hreverse : (h :: g :: rest).reverse = (g :: rest).reverse ++ [h] :=
        List.reverse_cons
      have hne' : (g :: rest).reverse ≠ [] :=
        fun hnil => List.cons_ne_nil _ _ (List.reverse_eq_nil_iff.mp hnil)
      rw [hreverse, rowsOf_concat hne', List.append_assoc]
      rfl

/-- The chain of headings is that of its lines. -/
theorem chain_eq (hs : Sectioned d outline) (p : Position) :
    chain d outline p = .ok ((rowsAround outline p.line).map (Rows.step d)) := by
  unfold chain
  rw [around_eq_filter hs, Failure.ok_bind]
  have hnil : ∀ r ∈ ([] : List Rows), r.At d p.line := fun r hr => absurd hr List.not_mem_nil
  have hbuild := build_eq hs (List.nil_append _).symm hnil fun p hp => by cases hp
  rw [List.append_nil] at hbuild
  exact hbuild

theorem rowsAround_eq_nil_iff (outline : List Heading) (line : Nat) :
    rowsAround outline line = [] ↔ ¬ ∃ h ∈ outline, covers line h = true := by
  unfold rowsAround
  constructor
  · rintro hnil ⟨h, hh, hcov⟩
    have hmem : h ∈ outline.filter (covers line) := List.mem_filter.mpr ⟨hh, hcov⟩
    cases hrev : (outline.filter (covers line)).reverse with
    | nil =>
      rw [List.reverse_eq_nil_iff.mp hrev] at hmem
      cases hmem
    | cons g outer =>
      have hrows : g.rows ∈ rowsOf outline line (g :: outer) :=
        List.mem_append_left _ (rows_mem_closestRows outline line g)
      rw [← hrev, hnil] at hrows
      cases hrows
  · intro hnone
    have hempty : outline.filter (covers line) = [] :=
      List.filter_eq_nil_iff.mpr fun h hh hcov => hnone ⟨h, hh, hcov⟩
    rw [hempty]
    rfl

theorem exists_covers_of_cons {r : Rows} {outer : List Rows}
    (h : rowsAround outline line = r :: outer) : ∃ h ∈ outline, covers line h = true := by
  by_contra hnone
  rw [(rowsAround_eq_nil_iff _ _).mpr hnone] at h
  cases h

end

/-- A stream whose headings ascend has an outline, and at every position the chain of headings has
exactly the lines of the sections around it, in their order: there is none outside of any section,
none is left out, and no end comes before a start. -/
theorem chain_exact {d : Document} {tokens : List Token} (ht : ∀ t ∈ tokens, t.Typed)
    (ha : HeadingsAscend d tokens) :
    ∃ outline, ofTokens d tokens = .ok outline ∧ ∀ p : Position,
      ∃ c, chain d outline p = .ok c ∧
        (c = [] ↔ ¬ ∃ h ∈ outline, covers p.line h = true) ∧
        (outline.filter (covers p.line)).Pairwise (fun g h => g.top < h.top) ∧
        c.map Step.ends = (rowsAround outline p.line).map (Rows.ends d) ∧
        ∀ r ∈ rowsAround outline p.line, r.At d p.line := by
  obtain ⟨outline, ho, hs, -⟩ := ofTokens_sectioned ht ha
  refine ⟨outline, ho, fun p => ⟨_, chain_eq hs p, ?_, ?_, ?_, rowsAround_at hs _⟩⟩
  · rw [List.map_eq_nil_iff]
    exact rowsAround_eq_nil_iff _ _
  · exact hs.ascending.sublist List.filter_sublist
  · rw [List.map_map]
    refine List.map_congr_left fun r hr => ?_
    exact (rowsAround_at hs _ r hr).proper.ends_eq

/-- On the line of the third of three headings the chain starts with its section. -/
theorem threeRanks_chain : ∃ outline, ofTokens threeRanks threeRanksTokens = .ok outline ∧
    ∃ c, chain threeRanks outline ⟨2, 0⟩ = .ok c ∧
      c.map Step.ends = (rowsAround outline 2).map (Rows.ends threeRanks) := by
  obtain ⟨outline, ho, hall⟩ := chain_exact (Token.typed_of_sketches _) threeRanks_ascend
  obtain ⟨c, hc, -, -, hends, -⟩ := hall ⟨2, 0⟩
  exact ⟨outline, ho, c, hc, hends⟩

end Headings

end Concentric
