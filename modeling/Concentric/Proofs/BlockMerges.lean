import Concentric.Proofs.ListWalk
import Concentric.Proofs.WholeLines

/-! Merging one block. A block around a line joins a strictly nested chain of whole lines, wherever
it lies to the innermost step: in each of the relations that can hold between them the chain stays
strictly nested, up to two. A fence that starts above the innermost step and ends with it is put on
top of it with all its lines. And a block that starts above the innermost step and ends one line
below it is cut off at its lower end only. -/

namespace Concentric

/-! ## Steps of whole lines -/

/-- A step of whole lines that has a line is that of rows around the line. -/
theorem Step.Whole.exists_rows {d : Document} {line : Nat} {s : Step} (h : s.Whole d)
    (hline : s.span.HasLine line) : ∃ q : Rows, q.At d line ∧ s.span = q.span d := by
  have hat : (⟨s.span.start.line, s.span.stop.line⟩ : Rows).At d line :=
    ⟨hline.1, hline.2, h.stop_lt⟩
  refine ⟨_, hat, Span.ext ?_ ?_⟩
  · rw [hat.proper.start_eq]
    exact Position.ext rfl h.start_character
  · have hlength := (Document.lineLength_of_lt h.stop_lt).symm.trans h.stop_character
    rw [hat.proper.stop_eq]
    exact Position.ext (Document.lineEnd_line h.stop_lt).symm (Except.ok.inj hlength).symm

namespace Rows

variable {d : Document} {r q : Rows} {p : Step} {outer : Chain}

theorem inside_of_contains (h : relation r q = .contains) : r.Inside q := by
  unfold relation at h
  split_ifs at h with hsame hin
  exact ⟨hin, fun heq => hsame heq.symm⟩

theorem eq_of_equal (h : relation r q = .equal) : q = r := by
  unfold relation at h
  split_ifs at h with hsame
  exact hsame

theorem first_lt_of_sharedEnd (h : relation r q = .sharedEndLine) : r.first < q.first := by
  have hlast := last_eq_of_sharedEnd h
  unfold relation at h
  split_ifs at h with hsame hin
  exact Nat.not_le.mp fun hle => hin ⟨hle, Nat.le_of_eq hlast⟩

theorem relation_eq_sharedEnd (hfirst : r.first < q.first) (hlast : r.last = q.last) :
    relation r q = .sharedEndLine := by
  unfold relation
  rw [if_neg fun h => Nat.lt_irrefl _ (h ▸ hfirst), if_neg fun h => Nat.not_le.mpr hfirst h.1,
    if_neg fun h => by omega, if_pos hlast.symm]

theorem last_ne_of_disjoint (h : relation r q = .disjoint) : r.last ≠ q.last := by
  unfold relation at h
  split_ifs at h with hsame hin hextends hshared
  exact fun heq => hshared heq.symm

/-- A step of rows on top of a chain is linked if its rows lie inside of those of the next step. -/
theorem nested_cons_iff (hr : r.Proper d) (hq : q.Proper d) (hp : p.span = q.span d) :
    Chain.StrictlyNested (r.step d :: p :: outer) ↔
      r.Inside q ∧ Chain.StrictlyNested (p :: outer) := by
  have hlink : p.span.contains (r.span d) = true ∧ p.span ≠ r.span d ↔ r.Inside q := by
    rw [hp, contains_span_iff hr hq, ne_eq, span_inj hq hr]
    exact and_congr_right fun _ => not_congr eq_comm
  exact List.isChain_cons_cons.trans (and_congr_left fun _ => hlink)

end Rows

/-! ## Joins by relation -/

namespace Block

open Rows

variable {d : Document} {line : Nat} {r q : Rows} {content : Option Rows} {p : Step}
  {outer : Chain}

/-- A plain block that does not start above the innermost step while it ends one line below it keeps
the chain strictly nested. -/
theorem joinPlain_nested (hr : r.At d line) (hq : q.At d line) (hp : p.span = q.span d)
    (hchain : Chain.StrictlyNested (p :: outer))
    (hover : ¬ (r.first < q.first ∧ r.last = q.last + 1)) :
    (joinPlain (r.span d) (p :: outer)).StrictlyNested := by
  have hpush : ∀ {t : Rows}, t.Proper d → t.Inside q →
      Chain.StrictlyNested (t.step d :: p :: outer) :=
    fun ht hin => (nested_cons_iff ht hq.proper hp).mpr ⟨hin, hchain⟩
  unfold joinPlain
  dsimp only
  rw [hp, classify_span hr.proper hq.proper]
  cases hrel : relation r q with
  | contains => exact hpush hr.proper (inside_of_contains hrel)
  | equal => exact hchain
  | sameLines => exact absurd hrel (relation_ne_sameLines r q)
  | disjoint => exact hchain
  | extendsOneLine =>
    -- what is left of the block around the line lies within the step, as it starts there
    have hlast := last_eq_of_extends hrel
    have hcut : (⟨r.first, q.last⟩ : Rows).At d line := ⟨hr.first_le, hq.le_last, hq.last_lt⟩
    dsimp only
    rw [cut_span hr.proper hq.proper hlast]
    split
    · exact hchain
    · next hne =>
      refine hpush hcut.proper ⟨⟨Nat.not_lt.mp fun hlt => hover ⟨hlt, hlast⟩, Nat.le_refl _⟩, ?_⟩
      exact fun hsame => hne (congrArg (span d) hsame)
  | sharedEndLine =>
    have hsame : Span.between (q.span d).start (r.span d).stop = q.span d := by
      rw [hq.proper.start_eq, hr.proper.stop_eq, last_eq_of_sharedEnd hrel]
      rfl
    dsimp only
    rw [hsame, if_pos rfl]
    exact hchain

/-- What a fence puts on top of the innermost step. -/
theorem joinFence_eq (hr : r.Proper d) (hq : q.Proper d) (hp : p.span = q.span d) :
    joinFence (r.span d) (content.map (span d)) (p :: outer) =
      match relation r q with
      | .contains | .sharedEndLine => (content.map (step d)).toList ++ r.step d :: p :: outer
      | .equal => (content.map (step d)).toList ++ p :: outer
      | .sameLines | .extendsOneLine | .disjoint => p :: outer := by
  have hclass : Relation.classify (r.span d) p.span = relation r q :=
    hp.symm ▸ classify_span hr hq
  cases content with
  | none =>
    simp only [joinFence, Option.map_none, hclass]
    cases hrel : relation r q with
    | sameLines => exact absurd hrel (relation_ne_sameLines r q)
    | _ => rfl
  | some c =>
    simp only [joinFence, Option.map_some, hclass]
    cases hrel : relation r q with
    | sameLines => exact absurd hrel (relation_ne_sameLines r q)
    | _ => rfl

/-- The lines between the marks are linked to those of the fence. -/
theorem content_nested_iff (hp : p.span = r.span d) (hr : r.Proper d)
    (hc : ∀ c ∈ content, c.Proper d ∧ c.Inside r) :
    Chain.StrictlyNested ((content.map (step d)).toList ++ p :: outer) ↔
      Chain.StrictlyNested (p :: outer) := by
  cases content with
  | none => exact Iff.rfl
  | some c =>
    obtain ⟨hproper, hin⟩ := hc c rfl
    exact (nested_cons_iff hproper hr hp).trans (and_iff_right hin)

/-- A fence keeps the chain strictly nested, unless it starts above the innermost step and ends with
it. -/
theorem joinFence_nested_iff (hr : r.Proper d) (hq : q.Proper d) (hp : p.span = q.span d)
    (hc : ∀ c ∈ content, c.Proper d ∧ c.Inside r)
    (hchain : Chain.StrictlyNested (p :: outer)) :
    (joinFence (r.span d) (content.map (span d)) (p :: outer)).StrictlyNested ↔
      ¬ (r.first < q.first ∧ r.last = q.last) := by
  rw [joinFence_eq hr hq hp]
  cases hrel : relation r q with
  | sameLines => exact absurd hrel (relation_ne_sameLines r q)
  | contains =>
    have hin := inside_of_contains hrel
    refine iff_of_true ?_ fun h => absurd hin.1.1 (Nat.not_le.mpr h.1)
    exact (content_nested_iff rfl hr hc).mpr ((nested_cons_iff hr hq hp).mpr ⟨hin, hchain⟩)
  | equal =>
    obtain rfl := eq_of_equal hrel
    refine iff_of_true ?_ fun h => Nat.lt_irrefl _ h.1
    exact (content_nested_iff hp hr hc).mpr hchain
  | sharedEndLine =>
    have hfirst := first_lt_of_sharedEnd hrel
    refine iff_of_false (fun h => ?_) fun h => h ⟨hfirst, last_eq_of_sharedEnd hrel⟩
    have hlink := (nested_cons_iff hr hq hp).mp ((content_nested_iff rfl hr hc).mp h)
    exact absurd hlink.1.1.1 (Nat.not_le.mpr hfirst)
  | extendsOneLine =>
    have hlast := last_eq_of_extends hrel
    exact iff_of_true hchain fun h => by omega
  | disjoint => exact iff_of_true hchain fun h => last_ne_of_disjoint hrel h.2

end Block

/-! ## Blocks of tokens -/

namespace Token

/-- The fence starts above the span and ends with it. -/
def Overtops (t : Token) (s : Span) : Prop :=
  t.isFence = true ∧ t.first < s.start.line ∧ t.stop = s.stop.line + 1

/-- The block, of which all lines are taken, starts above the span and ends one line below it. -/
def Straddles (t : Token) (s : Span) : Prop :=
  t.isFence = false ∧ t.isPair = false ∧ t.first < s.start.line ∧ t.stop = s.stop.line + 2

instance (t : Token) (s : Span) : Decidable (t.Overtops s) := inferInstanceAs (Decidable (_ ∧ _))

instance (t : Token) (s : Span) : Decidable (t.Straddles s) := inferInstanceAs (Decidable (_ ∧ _))

end Token

namespace Blocks

open Block Rows

variable {d : Document} {line : Nat} {t : Token} {l : LineRange} {p : Step} {q : Rows}
  {seed outer : Chain}

/-- A block around the line joins a step of whole lines by the relation of the two. -/
theorem joinAlone_nested_iff (cap : Value) (ht : t.Lies d line) (hl : t.lines? = some l)
    (hstart : d.hasBlank t.first = false) (hq : q.At d line) (hp : p.span = q.span d)
    (hchain : Chain.StrictlyNested (p :: outer)) (hover : ¬ t.Straddles p.span) :
    (joinAlone ⟨d, line, cap⟩ ⟨false, t.type, t.level, l⟩ (p :: outer)).StrictlyNested ↔
      ¬ t.Overtops p.span := by
  have hat := ht.rows_at
  have hlt := ht.lt_stop
  have hfirst : p.span.start.line = q.first := by rw [hp, hq.proper.start_eq]
  have hlast : p.span.stop.line = q.last := by rw [hp, hq.proper.stop_line]
  rw [ht.joinAlone_eq cap hl hstart]
  unfold Token.Overtops
  unfold Token.Straddles at hover
  rw [hfirst, hlast] at hover ⊢
  by_cases hf : t.isFence = true
  · have hmarked : ∀ c ∈ t.markedRows? line, c.Proper d ∧ c.Inside t.rows := fun c hc =>
      ⟨(ht.markedRows_at c hc).proper, t.markedRows_inside line c hc⟩
    rw [if_pos hf, joinFence_nested_iff hat.proper hq.proper hp hmarked hchain]
    unfold Token.rows
    simp only [hf, true_and]
    exact not_congr (and_congr_right fun _ => by omega)
  · rw [if_neg hf]
    refine iff_of_true ?_ fun h => hf h.1
    split
    · exact joinPlain_nested ⟨Nat.le_refl _, Nat.le_refl _, ht.line_proper.last_lt⟩ hq hp hchain
        fun h => Nat.not_lt.mpr hq.first_le h.1
    · next hpair =>
      refine joinPlain_nested hat hq hp hchain fun h => hover ?_
      obtain ⟨hbelow, hend⟩ := h
      unfold Token.rows at hbelow hend
      dsimp only at hbelow hend
      exact ⟨Bool.eq_false_iff.mpr hf, Bool.eq_false_iff.mpr hpair, hbelow, by omega⟩

/-- A block around a line that starts with text joins any strictly nested chain whose innermost step
has whole lines around the line. Unless the block starts above that step and ends one line below it,
the chain stays strictly nested if and only if the block is no fence that starts above the step and
ends with it. Such a fence is put on top of the step with all its lines. -/
theorem ofToken_nested_iff (cap : Value) (hname : ∃ s, t.type = .named s) (ht : t.Lies d line)
    (hstart : d.hasBlank t.first = false) (hseed : seed.StrictlyNested)
    (hwhole : ∀ p ∈ seed.head?, p.Whole d ∧ p.span.HasLine line)
    (hover : ∀ p ∈ seed.head?, ¬ t.Straddles p.span) :
    ∃ c, ofToken ⟨d, line, cap⟩ t seed = .ok c ∧
      (c.StrictlyNested ↔ ∀ p ∈ seed.head?, ¬ t.Overtops p.span) ∧
      ∀ p ∈ seed.head?, t.Overtops p.span →
        c = ((t.markedRows? line).map (step d)).toList ++ t.rows.step d :: seed := by
  obtain ⟨l, hl, -⟩ := ht.lines
  refine ⟨joinAlone ⟨d, line, cap⟩ ⟨false, t.type, t.level, l⟩ seed, ?_, ?_, ?_⟩
  · show carryOut _ seed [.alone t] = _
    rw [Move.carryOut_cons (Token.block_alone hname hl)]
    rfl
  · cases seed with
    | nil =>
      refine iff_of_true ?_ fun p hp => by cases hp
      rw [ht.joinAlone_inner cap hl hstart fun p hp => by cases hp]
      have hempty : Chain.Deepened [] [] line := ⟨.nil, .refl []⟩
      exact (hempty.foldl_addInner ht.layers_at (t.layers_pairwise line)
        fun _ _ p hp => by cases hp).nested
    | cons p outer =>
      obtain ⟨hp, hline⟩ := hwhole p rfl
      obtain ⟨q, hq, hspan⟩ := hp.exists_rows hline
      rw [joinAlone_nested_iff cap ht hl hstart hq hspan hseed (hover p rfl)]
      simp only [List.head?_cons, Option.mem_some_iff, forall_eq']
  · rintro p hp ⟨hf, hbelow, hend⟩
    obtain ⟨outer, rfl⟩ := List.head?_eq_some_iff.mp hp
    obtain ⟨hp, hline⟩ := hwhole p rfl
    obtain ⟨q, hq, hspan⟩ := hp.exists_rows hline
    rw [hspan, hq.proper.start_eq] at hbelow
    rw [hspan, hq.proper.stop_line] at hend
    have hrel : relation t.rows q = .sharedEndLine :=
      relation_eq_sharedEnd hbelow (by unfold Token.rows; dsimp only; omega)
    rw [ht.joinAlone_eq cap hl hstart, if_pos hf,
      joinFence_eq ht.rows_at.proper hq.proper hspan, hrel]

def fourLines : Document := .ofText "```\na\nb\n```" "u" "markdown" (.whole 1) "h"

/-- A quotation of the last three lines. -/
def lowQuotation : Token := Token.Sketch.token ⟨"blockquote_open", 0, 1, 4, ""⟩

def highSeed : Chain := [⟨Rows.span fourLines ⟨0, 2⟩, some 0⟩]

theorem fourLines_whole {r : Rows} {line : Nat} {s : Step} (hr : r.At fourLines line)
    (hs : s.span = r.span fourLines) : s.Whole fourLines ∧ s.span.HasLine line := by
  obtain ⟨span, given⟩ := s
  obtain rfl : span = r.span fourLines := hs
  obtain ⟨hstart, hfirst, hlast, hstop⟩ := hr.proper.whole
  exact ⟨⟨hstart, hfirst, hlast, hstop⟩, hr.hasLine⟩

/-- The quotation loses its last line and stays within the lines above that. -/
theorem lowQuotation_nested :
    ∃ c, ofToken ⟨fourLines, 1, .whole 4⟩ lowQuotation highSeed = .ok c ∧
      c = Rows.step fourLines ⟨1, 2⟩ :: highSeed ∧ c.StrictlyNested := by
  have hlies : lowQuotation.Lies fourLines 1 :=
    ⟨⟨⟨1, 4, by decide⟩, rfl, rfl, rfl⟩, by decide, by decide, by decide⟩
  have hwhole : ∀ p ∈ highSeed.head?, p.Whole fourLines ∧ p.span.HasLine 1 := by
    intro p hp
    obtain rfl := Option.mem_some.mp hp
    exact fourLines_whole (r := ⟨0, 2⟩) ⟨by decide, by decide, by decide⟩ rfl
  obtain ⟨c, hc, hnested, -⟩ := ofToken_nested_iff (.whole 4) ⟨_, rfl⟩ hlies (by decide)
    (by decide) hwhole (by decide)
  have hsteps : ofToken ⟨fourLines, 1, .whole 4⟩ lowQuotation highSeed =
      .ok (Rows.step fourLines ⟨1, 2⟩ :: highSeed) := rfl
  exact ⟨c, hc, Except.ok.inj (hc.symm.trans hsteps), hnested.mpr (by decide)⟩

def wholeFence : Token := Token.Sketch.token ⟨"fence", 0, 0, 4, "code"⟩

def wholeQuotation : Token := Token.Sketch.token ⟨"blockquote_open", 0, 0, 4, ""⟩

def lowSeed : Chain := [⟨Rows.span fourLines ⟨1, 3⟩, some 0⟩]

def middleSeed : Chain := [⟨Rows.span fourLines ⟨1, 2⟩, some 0⟩]

/-- A fence sticks out at the top of the last three lines, and a quotation at the top of the two
lines in the middle. -/
theorem merge_not_nested :
    (wholeFence.Lies fourLines 2 ∧ fourLines.hasBlank wholeFence.first = false ∧
      lowSeed.StrictlyNested ∧ (∀ p ∈ lowSeed, p.Whole fourLines ∧ p.span.HasLine 2) ∧
      ∃ c, ofToken ⟨fourLines, 2, .whole 4⟩ wholeFence lowSeed = .ok c ∧
        c = [⟨1, 2⟩, ⟨0, 3⟩].map (Rows.step fourLines) ++ lowSeed ∧ ¬ c.StrictlyNested) ∧
    (wholeQuotation.Lies fourLines 1 ∧ fourLines.hasBlank wholeQuotation.first = false ∧
      middleSeed.StrictlyNested ∧ (∀ p ∈ middleSeed, p.Whole fourLines ∧ p.span.HasLine 1) ∧
      ∃ c, ofToken ⟨fourLines, 1, .whole 4⟩ wholeQuotation middleSeed = .ok c ∧
        c = Rows.step fourLines ⟨0, 2⟩ :: middleSeed ∧ ¬ c.StrictlyNested) := by
  refine ⟨⟨⟨⟨⟨0, 4, by decide⟩, rfl, rfl, rfl⟩, by decide, by decide, by decide⟩, by decide,
      by decide, fun p hp => ?_, _, rfl, rfl, by decide⟩,
    ⟨⟨⟨⟨0, 4, by decide⟩, rfl, rfl, rfl⟩, by decide, by decide, by decide⟩, by decide,
      by decide, fun p hp => ?_, _, rfl, rfl, by decide⟩⟩
  · obtain rfl := List.mem_singleton.mp hp
    exact fourLines_whole (r := ⟨1, 3⟩) ⟨by decide, by decide, by decide⟩ rfl
  · obtain rfl := List.mem_singleton.mp hp
    exact fourLines_whole (r := ⟨1, 2⟩) ⟨by decide, by decide, by decide⟩ rfl

end Blocks

end Concentric
