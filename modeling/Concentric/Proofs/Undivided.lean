import Concentric.Proofs.BlockWalk

/-! Blocks that no heading divides. The blocks around a line lie one within the other in their
order, and where no heading stands in them all of them lie within the innermost step of the headings
around the line. Streams of any kind may have such blocks, not only those of a parser. -/

namespace Concentric

open Outline Headings

instance (r q : LineRange) : Decidable (r.Within q) := inferInstanceAs (Decidable (_ ∧ _))

/-- Blocks within the document, one within the other, with no heading on a line of theirs. Each
starts with text, and only the last may be cut down to some of its lines, as a fence or a paragraph
of two lines is. -/
structure Undivided (d : Document) (outline : List Heading) (ts : List Token) : Prop where
  labelled : ∀ t ∈ ts, t.Labelled
  inside : ∀ t ∈ ts, ∀ r ∈ t.lines?, 0 ≤ r.start ∧ r.stop ≤ d.lineCount
  nested : ts.Pairwise fun t u => ∀ r ∈ t.lines?, ∀ q ∈ u.lines?, r.Within q ∨ q.Within r
  clear : ∀ t ∈ ts, ∀ r ∈ t.lines?, ∀ h ∈ outline, ∀ n ∈ h.line.wholeNumber?, r.has n = false
  starts : ∀ t ∈ ts, d.hasBlank t.first = false
  leaf : ts.Pairwise fun t _ => t.isFence = false ∧ t.isPair = false

/-- Blocks around a line from the outermost inwards, each of which starts with text, and of which
only the last may be cut down to some of its lines. -/
structure Layered (d : Document) (line : Nat) (ts : List Token) : Prop where
  labelled : ∀ t ∈ ts, t.Labelled
  lies : ∀ t ∈ ts, t.Lies d line
  within : ts.Pairwise fun t u => u.rows.Within t.rows
  starts : ∀ t ∈ ts, d.hasBlank t.first = false
  leaf : ts.Pairwise fun t _ => t.isFence = false ∧ t.isPair = false

section

variable {d : Document} {outline : List Heading} {tokens ts : List Token} {t : Token} {line : Nat}

theorem Layered.tail (h : Layered d line (t :: ts)) : Layered d line ts :=
  ⟨fun u hu => h.labelled u (List.mem_cons_of_mem _ hu),
    fun u hu => h.lies u (List.mem_cons_of_mem _ hu), (List.pairwise_cons.mp h.within).2,
    fun u hu => h.starts u (List.mem_cons_of_mem _ hu), (List.pairwise_cons.mp h.leaf).2⟩

theorem Layered.rows_within (h : Layered d line (t :: ts)) : ∀ u ∈ ts, u.rows.Within t.rows :=
  (List.pairwise_cons.mp h.within).1

/-- Only the last block may be a fence or a paragraph of two lines. -/
theorem Layered.plain_or_last (h : Layered d line (t :: ts)) :
    t.isFence = false ∧ t.isPair = false ∨ ts = [] := by
  cases ts with
  | nil => exact Or.inr rfl
  | cons u us => exact Or.inl ((List.pairwise_cons.mp h.leaf).1 u List.mem_cons_self)

/-- The blocks that are found around a line enclose it, the longer ones first. -/
theorem enclosing_of_around (hts : Token.around id line tokens = .ok ts) :
    (∀ t ∈ ts, t.encloses line = true) ∧ ts.Pairwise fun t u => u.extent ≤ t.extent := by
  obtain rfl := Token.around_eq_ok hts
  refine ⟨fun t ht => ?_, Token.pairwise_enclosing id line tokens⟩
  exact (List.mem_filter.mp ((Token.enclosing_perm id line tokens).mem_iff.mp ht)).2

theorem Undivided.lies (hu : Undivided d outline ts) (hts : ∀ t ∈ ts, t.encloses line = true) :
    ∀ t ∈ ts, t.Lies d line := by
  intro t ht
  obtain ⟨-, r, hr, hhas⟩ := ParserShaped.lines_of_encloses (hts t ht)
  obtain ⟨hstart, hstop⟩ := hu.inside t ht r hr
  unfold LineRange.has at hhas
  simp only [Bool.and_eq_true, decide_eq_true_eq] at hhas
  have hfirst : (t.first : Int) = r.start := by
    unfold Token.first
    rw [hr]
    exact Int.toNat_of_nonneg hstart
  have hend : (t.stop : Int) = r.stop := by
    unfold Token.stop
    rw [hr]
    exact Int.toNat_of_nonneg (by omega)
  exact ⟨⟨r, hr, hfirst.symm, hend.symm⟩, by omega, by omega, by omega⟩

/-- The longer of two nested blocks has the other one within. -/
theorem Undivided.layered (hu : Undivided d outline ts)
    (hts : Token.around id line tokens = .ok ts) : Layered d line ts := by
  obtain ⟨henc, hextent⟩ := enclosing_of_around hts
  have hlies := hu.lies henc
  refine ⟨hu.labelled, hlies, ?_, hu.starts, hu.leaf⟩
  refine (hu.nested.and hextent).imp_of_mem ?_
  intro t u ht hu ⟨hnest, hle⟩
  obtain ⟨r, hr, hrs, hre⟩ := (hlies t ht).lines
  obtain ⟨q, hq, hqs, hqe⟩ := (hlies u hu).lines
  have hwithin := Token.within_of_extent hle hr hq (hnest r hr q hq)
  unfold LineRange.Within at hwithin
  unfold Rows.Within Token.rows
  dsimp only
  omega

/-! ## Blocks and headings -/

/-- No heading of the outline stands on a line of the block. -/
theorem Undivided.top_outside (hu : Undivided d outline ts) (hs : Sectioned d outline)
    (ht : t ∈ ts) (hlies : t.Lies d line) {h : Heading} (hh : h ∈ outline) :
    h.top < t.first ∨ t.stop ≤ h.top := by
  obtain ⟨r, hr, hstart, hstop⟩ := hlies.lines
  have hclear := hu.clear t ht r hr h hh _ (hs.line_eq h hh)
  unfold LineRange.has at hclear
  simp only [Bool.and_eq_false_iff, decide_eq_false_iff_not] at hclear
  omega

/-- A block around a line lies in the section of the closest heading, below the heading and above
the next one within the section. -/
theorem Undivided.within_closest (hu : Undivided d outline ts) (hs : Sectioned d outline)
    (ht : t ∈ ts) (hlies : t.Lies d line) {h : Heading}
    (hlast : (outline.filter (covers line)).getLast? = some h) :
    h.top ≠ line ∧ t.rows.Within h.contentRows ∧
      ∀ r ∈ h.cutRows outline (h.top + 1), t.rows.Within r := by
  obtain ⟨hh, hcov⟩ := List.mem_filter.mp (List.mem_of_getLast? hlast)
  obtain ⟨htop, hbottom⟩ := covers_iff.mp hcov
  have hfirst := hlies.first_le
  have hstop := hlies.lt_stop
  have hle := hlies.stop_le
  have habove := hu.top_outside hs ht hlies hh
  have hlt : h.top < t.first := by omega
  refine ⟨by omega, ⟨hlt, ?_⟩, ?_⟩
  · -- the section goes on to the end of the block, as no heading stands before that
    show t.stop - 1 ≤ h.bottom
    obtain ⟨pre, rest, hsplit, hrest⟩ := sectioned_of_mem hs hh
    rw [hrest.le_bottom_iff]
    refine ⟨by omega, fun g hg hlevel => ?_⟩
    have hgo : g ∈ outline := by
      rw [hsplit]
      exact List.mem_append_right _ (List.mem_cons_of_mem _ hg)
    have hgtop := ((hrest.le_bottom_iff line).mp hbottom).2 g hg hlevel
    have := hu.top_outside hs ht hlies hgo
    omega
  · intro r hr
    have hat := cutRows_at hs hlast (by omega) hr
    obtain ⟨g, hg, -, -, rfl⟩ := mem_cutRows hr
    have := hu.top_outside hs ht hlies hg
    have hbelow := hat.le_last
    dsimp only at hbelow
    refine ⟨hlt, ?_⟩
    show t.stop - 1 ≤ g.top - 1
    omega

/-- Blocks around a line lie within the innermost step of the headings around it. -/
theorem Undivided.inSection (hu : Undivided d outline ts) (hs : Sectioned d outline)
    (hlies : ∀ t ∈ ts, t.Lies d line) :
    ∀ r ∈ (rowsAround outline line).head?, ∀ t ∈ ts, t.rows.Within r := by
  intro r hr t ht
  unfold rowsAround at hr
  cases hrev : (outline.filter (covers line)).reverse with
  | nil =>
    rw [hrev] at hr
    cases hr
  | cons h outer =>
    have hlast : (outline.filter (covers line)).getLast? = some h := by
      rw [← List.head?_reverse, hrev]
      rfl
    obtain ⟨hne, hcontent, hcut⟩ := hu.within_closest hs ht (hlies t ht) hlast
    have hclosest : closestRows outline line h =
        h.cutRows outline (h.top + 1) ++ [h.contentRows, h.rows] := if_neg hne
    rw [hrev] at hr
    change r ∈ (closestRows outline line h ++ _).head? at hr
    rw [hclosest] at hr
    cases hrows : h.cutRows outline (h.top + 1) with
    | nil =>
      rw [hrows] at hr
      obtain rfl := Option.mem_some.mp hr
      exact hcontent
    | cons q qs =>
      rw [hrows] at hr
      obtain rfl := Option.mem_some.mp hr
      exact hcut q (hrows ▸ List.mem_cons_self)

end

end Concentric
