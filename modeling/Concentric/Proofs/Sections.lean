import Concentric.Chain.Headings
import Concentric.Proofs.Stream

/-! Sections of an outline by their lines. The outline of a stream whose headings ascend is
`Sectioned`: each section starts with its heading and ends before the next heading of the same or a
higher rank, at the latest with the document. -/

namespace Concentric

namespace Heading

/-- The first line of a section, which is that of its heading. -/
def top (h : Heading) : Nat := h.span.start.line

/-- The last line of a section. -/
def bottom (h : Heading) : Nat := h.span.stop.line

end Heading

theorem Document.lineEnd_line {d : Document} {n : Nat} (h : n < d.lineCount) :
    (d.lineEnd n).line = n := d.clampLine_of_lt h

theorem Document.lineNumbered_of_lt {d : Document} {n : Nat} (h : n < d.lineCount) :
    ∃ l, d.lineNumbered (.whole n) = .ok l ∧ l.length = d.nearestLength n := by
  have hlen := d.lineLength_of_lt h
  unfold lineLength lineAt at hlen
  cases hl : d.lineNumbered (.whole n) with
  | error f =>
    rw [hl] at hlen
    cases hlen
  | ok l =>
    rw [hl] at hlen
    exact ⟨l, rfl, Except.ok.inj hlen⟩

namespace Outline

/-- The last line of a section of a rank, from the headings after its own. -/
def sectionEnd (d : Document) (level : Int) (rest : List Heading) : Nat :=
  match rest.find? fun t => decide (t.level ≤ level) with
  | some t => t.top - 1
  | none => d.lineCount - 1

/-- Headings in the order of their lines, each with the lines up to the next heading of the same
or a higher rank. -/
inductive Sectioned (d : Document) : List Heading → Prop
  | nil : Sectioned d []
  | cons {h : Heading} {rest : List Heading}
      (line : h.line.wholeNumber? = some (h.top : Int))
      (start : h.span.start = ⟨h.top, 0⟩)
      (inside : h.top < d.lineCount)
      (below : ∀ t ∈ rest, h.top < t.top)
      (stop : h.span.stop = d.lineEnd (sectionEnd d h.level rest))
      (tail : Sectioned d rest) : Sectioned d (h :: rest)

namespace Sectioned

variable {d : Document} {h : Heading} {rest : List Heading}

theorem top_lt {outline : List Heading} (hs : Sectioned d outline) :
    ∀ h ∈ outline, h.top < d.lineCount := by
  induction hs with
  | nil =>
    intro h hh
    cases hh
  | cons _ _ inside _ _ _ ih =>
    intro t ht
    rcases List.mem_cons.mp ht with rfl | ht
    · exact inside
    · exact ih t ht

theorem ascending {outline : List Heading} (hs : Sectioned d outline) :
    outline.Pairwise fun g h => g.top < h.top := by
  induction hs with
  | nil => exact .nil
  | cons _ _ _ below _ _ ih => exact .cons below ih

theorem sectionEnd_lt (hs : Sectioned d rest) (level : Int) :
    sectionEnd d level rest < d.lineCount := by
  have hpos := d.lineCount_pos
  unfold sectionEnd
  split
  · next t ht =>
    have := hs.top_lt t (List.mem_of_find?_eq_some ht)
    omega
  · omega

theorem bottom_eq (hs : Sectioned d (h :: rest)) : h.bottom = sectionEnd d h.level rest := by
  cases hs with
  | cons _ _ _ _ stop tail =>
    unfold Heading.bottom
    rw [stop]
    exact Document.lineEnd_line (tail.sectionEnd_lt _)

/-- A section goes on as long as no later heading of the same or a higher rank has come. -/
theorem le_sectionEnd_iff (hs : Sectioned d rest) (hpos : ∀ t ∈ rest, 0 < t.top) (level : Int)
    (line : Nat) : line ≤ sectionEnd d level rest ↔
      line < d.lineCount ∧ ∀ t ∈ rest, t.level ≤ level → line < t.top := by
  have hcount := d.lineCount_pos
  unfold sectionEnd
  cases hf : rest.find? fun t => decide (t.level ≤ level) with
  | none =>
    have hnone := List.find?_eq_none.mp hf
    dsimp only
    constructor
    · intro hle
      refine ⟨by omega, fun t ht hlevel => ?_⟩
      exact absurd (decide_eq_true hlevel) (hnone t ht)
    · intro hlt
      omega
  | some u =>
    -- the first heading that ends the section stands above all others that could
    obtain ⟨hlevel, pre, post, rfl, hpre⟩ := List.find?_eq_some_iff_append.mp hf
    have hu : u ∈ pre ++ u :: post := by simp
    have := hpos u hu
    have := hs.top_lt u hu
    have hafter := (List.pairwise_append.mp hs.ascending).2.1
    dsimp only
    constructor
    · intro hle
      refine ⟨by omega, fun t ht htlevel => ?_⟩
      rcases List.mem_append.mp ht with ht | ht
      · have hne := hpre t ht
        simp only [Bool.not_eq_true', decide_eq_false_iff_not] at hne
        exact absurd htlevel hne
      · rcases List.mem_cons.mp ht with rfl | ht
        · omega
        · have := (List.pairwise_cons.mp hafter).1 t ht
          omega
    · intro ⟨_, hall⟩
      have := hall u hu (of_decide_eq_true hlevel)
      omega

theorem tops_pos (hs : Sectioned d (h :: rest)) : ∀ t ∈ rest, 0 < t.top := by
  cases hs with
  | cons _ _ _ below _ _ => exact fun t ht => Nat.lt_of_le_of_lt (Nat.zero_le _) (below t ht)

theorem tail_of_cons (hs : Sectioned d (h :: rest)) : Sectioned d rest := by
  cases hs with
  | cons _ _ _ _ _ tail => exact tail

theorem le_bottom_iff (hs : Sectioned d (h :: rest)) (line : Nat) : line ≤ h.bottom ↔
    line < d.lineCount ∧ ∀ t ∈ rest, t.level ≤ h.level → line < t.top := by
  rw [hs.bottom_eq]
  exact hs.tail_of_cons.le_sectionEnd_iff hs.tops_pos h.level line

theorem covers_iff (hs : Sectioned d (h :: rest)) (line : Nat) :
    Headings.covers line h = true ↔ h.top ≤ line ∧ line < d.lineCount ∧
      ∀ t ∈ rest, t.level ≤ h.level → line < t.top := by
  rw [← hs.le_bottom_iff]
  unfold Headings.covers Heading.top Heading.bottom
  simp

theorem top_le_bottom (hs : Sectioned d (h :: rest)) : h.top ≤ h.bottom := by
  rw [hs.le_bottom_iff]
  cases hs with
  | cons _ _ inside below _ _ => exact ⟨inside, fun t ht _ => below t ht⟩

theorem start_eq (hs : Sectioned d (h :: rest)) : h.span.start = ⟨h.top, 0⟩ := by
  cases hs with
  | cons _ start _ _ _ _ => exact start

/-- The end of a section is the end of its last line. -/
theorem stop_eq (hs : Sectioned d (h :: rest)) : h.span.stop = d.lineEnd h.bottom := by
  rw [hs.bottom_eq]
  cases hs with
  | cons _ _ _ _ stop _ => exact stop

/-- What follows a heading of a sectioned outline is sectioned. -/
theorem drop {pre : List Heading} (hs : Sectioned d (pre ++ rest)) : Sectioned d rest := by
  induction pre with
  | nil => exact hs
  | cons g pre ih => exact ih hs.tail_of_cons

end Sectioned

/-! ## The outline of a stream -/

/-- The heading has the rank of the title and starts on its line. -/
structure Heads (t : Title) (h : Heading) : Prop where
  level : h.level = t.level
  top : t.line.wholeNumber? = some (h.top : Int)

theorem lastLine_eq {d : Document} {titles : List Title} {headings : List Heading}
    (hf : List.Forall₂ Heads titles headings) (hpos : ∀ h ∈ headings, 0 < h.top) (level : Int) :
    lastLine d level titles = .ok (.whole (sectionEnd d level headings : Nat)) := by
  unfold lastLine sectionEnd
  induction hf with
  | nil =>
    have := d.lineCount_pos
    simp only [List.find?_nil]
    congr 2
    omega
  | @cons t h titles headings hth _ ih =>
    by_cases hlevel : t.level ≤ level
    · have := hpos h List.mem_cons_self
      rw [List.find?_cons_of_pos (by simpa using hlevel),
        List.find?_cons_of_pos (by simpa [hth.level] using hlevel)]
      dsimp only
      rw [Value.minus_of_wholeNumber? hth.top]
      congr 2
      omega
    · rw [List.find?_cons_of_neg (by simpa using hlevel),
        List.find?_cons_of_neg (by simpa [hth.level] using hlevel)]
      exact ih fun g hg => hpos g (List.mem_cons_of_mem _ hg)

theorem sectionOf_eq {d : Document} {t : Title} {rest : List Title} {first last : Nat} {s : String}
    (hline : t.line.wholeNumber? = some (first : Int)) (htext : t.text = .text s)
    (hlast : lastLine d t.level rest = .ok (.whole (last : Int))) (hle : first ≤ last)
    (hlt : last < d.lineCount) :
    ∃ span, sectionOf d t rest = .ok (s, span) ∧ span.start = ⟨first, 0⟩ ∧
      span.stop = d.lineEnd last := by
  obtain ⟨l, hl, hlen⟩ := Document.lineNumbered_of_lt hlt
  have hstop : d.lineEnd last = .clamped last l.length := by
    unfold Document.lineEnd Position.clamped
    rw [d.clampLine_of_lt hlt, hlen]
    rfl
  have hord : Position.clamped first 0 ≤ d.lineEnd last := by
    rw [Position.le_def, Document.lineEnd_line hlt]
    simp only [Position.clamped, Int.toNat_natCast]
    omega
  refine ⟨.between (.clamped first 0) (d.lineEnd last), ?_, ?_⟩
  · unfold sectionOf
    rw [hlast]
    simp only [Failure.ok_bind, hl, htext, textOf]
    rw [Position.ofCoordinates_of_wholeNumber? (m := last) rfl rfl,
      Position.ofCoordinates_of_wholeNumber? hline rfl, hstop]
    rfl
  · rw [Span.between_of_le hord]
    exact ⟨rfl, rfl⟩

/-- Titles with slugs and sections as headings. -/
def assemble (titles : List Title) (slugs : List String) (sections : List (String × Span)) :
    List Heading :=
  (titles.zip (slugs.zip sections)).map fun (t, slug, text, span) =>
    ⟨t.level, t.line, text, slug, span⟩

theorem assemble_cons (t : Title) (titles : List Title) (slug : String) (slugs : List String)
    (s : String × Span) (ss : List (String × Span)) :
    assemble (t :: titles) (slug :: slugs) (s :: ss) =
      ⟨t.level, t.line, s.1, slug, s.2⟩ :: assemble titles slugs ss := rfl

theorem related_of_mem {α β : Type} {R : α → β → Prop} {as : List α} {bs : List β}
    (h : List.Forall₂ R as bs) {b : β} (hb : b ∈ bs) : ∃ a ∈ as, R a b := by
  induction h with
  | nil => cases hb
  | @cons a c as bs hac _ ih =>
    rcases List.mem_cons.mp hb with rfl | hb
    · exact ⟨a, List.mem_cons_self, hac⟩
    · obtain ⟨x, hx, hxb⟩ := ih hb
      exact ⟨x, List.mem_cons_of_mem _ hx, hxb⟩

/-- The heading is that of the token: of its rank, on its first line. -/
structure HeadingOf (t : Token) (h : Heading) : Prop where
  level : Title.levelOf t = .ok h.level
  line : t.firstLine? = some (h.top : Int)

/-- Titles with texts, on ascending lines of the document, have sections, and these make a sectioned
outline whatever the slugs are. -/
theorem sections_ok {d : Document} {titles : List Title}
    (texts : ∀ t ∈ titles, ∃ s, t.text = .text s)
    (inside : ∀ t ∈ titles, ∃ n : Nat, t.line.wholeNumber? = some (n : Int) ∧ n < d.lineCount)
    (asc : titles.Pairwise fun s t =>
      ∀ m n : Int, s.line.wholeNumber? = some m → t.line.wholeNumber? = some n → m < n) :
    ∃ ss, sections d titles = .ok ss ∧ ss.length = titles.length ∧
      ∀ slugs : List String, slugs.length = titles.length →
        Sectioned d (assemble titles slugs ss) ∧
        List.Forall₂ Heads titles (assemble titles slugs ss) := by
  induction titles with
  | nil => exact ⟨[], rfl, rfl, fun _ _ => ⟨.nil, .nil⟩⟩
  | cons title titles ih =>
    obtain ⟨hbelow, hasc⟩ := List.pairwise_cons.mp asc
    obtain ⟨ss, hss, hlen, hall⟩ := ih (fun t ht => texts t (List.mem_cons_of_mem _ ht))
      (fun t ht => inside t (List.mem_cons_of_mem _ ht)) hasc
    obtain ⟨n, hline, hlt⟩ := inside title List.mem_cons_self
    obtain ⟨s, htext⟩ := texts title List.mem_cons_self
    -- every heading after this one is below it, whatever the slugs are
    have below : ∀ slugs : List String, slugs.length = titles.length →
        ∀ h ∈ assemble titles slugs ss, n < h.top := by
      intro slugs hslugs h hh
      obtain ⟨t, ht, hth⟩ := related_of_mem (hall slugs hslugs).2 hh
      exact Int.ofNat_lt.mp (hbelow t ht _ _ hline hth.top)
    have hlast : ∀ slugs : List String, slugs.length = titles.length →
        lastLine d title.level titles =
          .ok (.whole (sectionEnd d title.level (assemble titles slugs ss) : Nat)) :=
      fun slugs hslugs => lastLine_eq (hall slugs hslugs).2
        (fun h hh => Nat.lt_of_le_of_lt (Nat.zero_le _) (below slugs hslugs h hh)) _
    have hrep : (List.replicate titles.length "").length = titles.length := List.length_replicate
    obtain ⟨span, hspan, hstart, hstop⟩ := sectionOf_eq hline htext (hlast _ hrep)
      (((hall _ hrep).1.le_sectionEnd_iff
        (fun h hh => Nat.lt_of_le_of_lt (Nat.zero_le _) (below _ hrep h hh)) _ _).mpr
        ⟨hlt, fun h hh _ => below _ hrep h hh⟩)
      ((hall _ hrep).1.sectionEnd_lt _)
    refine ⟨(s, span) :: ss, by unfold sections; rw [hspan, hss]; rfl, by simp [hlen], ?_⟩
    intro slugs hslugs
    cases slugs with
    | nil => simp at hslugs
    | cons slug slugs =>
      have hslugs : slugs.length = titles.length := by simpa using hslugs
      obtain ⟨hsec, hheads⟩ := hall slugs hslugs
      have hend : sectionEnd d title.level (assemble titles (List.replicate titles.length "") ss) =
          sectionEnd d title.level (assemble titles slugs ss) := by
        have := (hlast _ hrep).symm.trans (hlast _ hslugs)
        simpa only [Except.ok.injEq, Numeral.whole.injEq, Int.natCast_inj] using this
      have htop : Heading.top ⟨title.level, title.line, s, slug, span⟩ = n := by
        unfold Heading.top
        rw [hstart]
      rw [assemble_cons]
      refine ⟨.cons (by rw [htop]; exact hline) (by rw [htop]; exact hstart)
        (by rw [htop]; exact hlt) (by rw [htop]; exact below slugs hslugs)
        (by rw [← hend]; exact hstop) hsec, ?_⟩
      exact .cons ⟨rfl, by rw [htop]; exact hline⟩ hheads

theorem headingOf_of_heads {tokens : List Token} {titles : List Title} {headings : List Heading}
    (hof : List.Forall₂ Title.Of tokens titles) (hheads : List.Forall₂ Heads titles headings) :
    List.Forall₂ HeadingOf tokens headings := by
  induction hof generalizing headings with
  | nil =>
    cases hheads
    exact .nil
  | cons htof _ ih =>
    cases hheads with
    | cons hth hrest =>
      obtain ⟨n, hfirst, hline⟩ := htof.line
      refine .cons ⟨hth.level ▸ htof.level, ?_⟩ (ih hrest)
      rw [hfirst, ← hline, hth.top]

theorem lines_of_titles {tokens : List Token} {titles : List Title}
    (hof : List.Forall₂ Title.Of tokens titles) :
    titles.map (fun t => t.line.wholeNumber?) = tokens.map Token.firstLine? := by
  induction hof with
  | nil => rfl
  | cons htof _ ih =>
    obtain ⟨n, hfirst, hline⟩ := htof.line
    rw [List.map_cons, List.map_cons, ih, hfirst, hline]

/-- A stream whose headings ascend has an outline, with one section for each token that opens a
heading. -/
theorem ofTokens_sectioned {d : Document} {tokens : List Token} (ht : ∀ t ∈ tokens, t.Typed)
    (ha : HeadingsAscend d tokens) :
    ∃ outline, ofTokens d tokens = .ok outline ∧ Sectioned d outline ∧
      List.Forall₂ HeadingOf (tokens.filter Token.opensHeading) outline := by
  obtain ⟨titles, htitles, hof⟩ := Title.ofTokens_typed ht ha
  have hlines := lines_of_titles hof
  have htexts : ∀ t ∈ titles, ∃ s, t.text = .text s := by
    intro t htt
    obtain ⟨u, -, hut⟩ := related_of_mem hof htt
    exact hut.text
  have hinside : ∀ t ∈ titles, ∃ n : Nat, t.line.wholeNumber? = some (n : Int) ∧
      n < d.lineCount := by
    intro t htt
    obtain ⟨u, hu, hut⟩ := related_of_mem hof htt
    obtain ⟨n, hn, hlt⟩ := ha.inside u (List.mem_filter.mp hu).1 (List.mem_filter.mp hu).2
    obtain ⟨m, hm, hline⟩ := hut.line
    exact ⟨n, hline.trans (hm.symm.trans hn), hlt⟩
  have hasc : ((tokens.filter Token.opensHeading).map Token.firstLine?).Pairwise fun a b =>
      ∀ m n : Int, a = some m → b = some n → m < n := List.pairwise_map.mpr ha.ascending
  rw [← hlines] at hasc
  obtain ⟨ss, hss, hlen, hall⟩ := sections_ok htexts hinside (List.pairwise_map.mp hasc)
  obtain ⟨hsec, hheads⟩ := hall (Slug.number [] (ss.map fun s => Slug.ofText s.1)) (by simp [hlen])
  refine ⟨_, ?_, hsec, headingOf_of_heads hof hheads⟩
  unfold ofTokens
  rw [htitles]
  simp only [Failure.ok_bind, hss]
  rfl

/-! ## Any outline -/

/-- The headings of an outline stand on lines that ascend. -/
def Ascending (outline : List Heading) : Prop :=
  outline.Pairwise fun g h =>
    ∀ m n : Int, g.line.wholeNumber? = some m → h.line.wholeNumber? = some n → m < n

/-- The headings of an outline stand on lines of the document, each below the one before. -/
structure Ascends (d : Document) (outline : List Heading) : Prop where
  inside : ∀ h ∈ outline, ∃ n : Nat, h.line.wholeNumber? = some (n : Int) ∧ n < d.lineCount
  ascending : Ascending outline

section

variable {d : Document} {titles : List Title} {ss : List (String × Span)}

theorem length_of_sections (h : sections d titles = .ok ss) : ss.length = titles.length := by
  induction titles generalizing ss with
  | nil =>
    cases h
    rfl
  | cons t rest ih =>
    obtain ⟨s, -, h⟩ := Failure.bind_eq_ok.mp h
    obtain ⟨ss', hss, h⟩ := Failure.bind_eq_ok.mp h
    cases h
    rw [List.length_cons, List.length_cons, ih hss]

theorem text_of_sections (h : sections d titles = .ok ss) :
    ∀ t ∈ titles, ∃ s, t.text = .text s := by
  induction titles generalizing ss with
  | nil => exact fun t ht => absurd ht List.not_mem_nil
  | cons t rest ih =>
    obtain ⟨s, hs, h⟩ := Failure.bind_eq_ok.mp h
    obtain ⟨ss', hss, -⟩ := Failure.bind_eq_ok.mp h
    intro u hu
    rcases List.mem_cons.mp hu with rfl | hu
    · obtain ⟨last, -, hs⟩ := Failure.bind_eq_ok.mp hs
      obtain ⟨line, -, hs⟩ := Failure.bind_eq_ok.mp hs
      obtain ⟨stop, -, hs⟩ := Failure.bind_eq_ok.mp hs
      obtain ⟨text, htext, -⟩ := Failure.bind_eq_ok.mp hs
      unfold textOf at htext
      split at htext
      · exact ⟨_, ‹_›⟩
      · cases htext
    · exact ih hss u hu

theorem assemble_lines {slugs : List String} (hslugs : slugs.length = titles.length)
    (hss : ss.length = titles.length) :
    (assemble titles slugs ss).map (·.line) = titles.map (·.line) := by
  induction titles generalizing slugs ss with
  | nil => rfl
  | cons t titles ih =>
    cases slugs with
    | nil => cases hslugs
    | cons slug slugs =>
      cases ss with
      | nil => cases hss
      | cons s ss =>
        rw [assemble_cons, List.map_cons, List.map_cons,
          ih (Nat.succ.inj hslugs) (Nat.succ.inj hss)]

end

/-- An outline whose headings ascend is sectioned, whatever stream it is made from. -/
theorem Ascends.sectioned {d : Document} {tokens : List Token} {outline : List Heading}
    (ha : Ascends d outline) (ho : ofTokens d tokens = .ok outline) : Sectioned d outline := by
  obtain ⟨titles, -, ho⟩ := Failure.bind_eq_ok.mp ho
  obtain ⟨ss, hss, ho⟩ := Failure.bind_eq_ok.mp ho
  have hlen := length_of_sections hss
  have hslugs : (Slug.number [] (ss.map fun s => Slug.ofText s.1)).length = titles.length := by
    rw [Slug.length_number, List.length_map, hlen]
  obtain rfl : outline = assemble titles _ ss := (Except.ok.inj ho).symm
  have hlines := assemble_lines hslugs hlen
  have hinside : ∀ t ∈ titles, ∃ n : Nat, t.line.wholeNumber? = some (n : Int) ∧
      n < d.lineCount := by
    intro t ht
    have hmem := List.mem_map_of_mem (f := fun t : Title => t.line) ht
    rw [← hlines] at hmem
    obtain ⟨h, hh, hht⟩ := List.mem_map.mp hmem
    exact hht ▸ ha.inside h hh
  have hasc : ((assemble titles _ ss).map (·.line)).Pairwise fun v w =>
      ∀ m n : Int, v.wholeNumber? = some m → w.wholeNumber? = some n → m < n :=
    List.pairwise_map.mpr ha.ascending
  rw [hlines] at hasc
  obtain ⟨ss', hss', -, hall⟩ :=
    sections_ok (text_of_sections hss) hinside (List.pairwise_map.mp hasc)
  obtain rfl : ss = ss' := Except.ok.inj (hss.symm.trans hss')
  exact (hall _ hslugs).1

/-- Headings of an outline ascend if their lines do. -/
theorem Ascends.of_lines {d : Document} {outline : List Heading} (lines : List Nat)
    (heq : (outline.map fun h => h.line.wholeNumber?) = lines.map fun n : Nat => some (n : Int))
    (hlt : ∀ n ∈ lines, n < d.lineCount) (hasc : lines.Pairwise (· < ·)) : Ascends d outline := by
  obtain ⟨hinside, hpairs⟩ := ascend_of_lines heq hlt hasc
  exact ⟨hinside, hpairs⟩

end Outline

end Concentric
