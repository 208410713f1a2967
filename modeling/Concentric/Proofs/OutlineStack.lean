import Concentric.Proofs.Sections

/-! The outline as a stack. The headings whose sections have a line are the stack that one pass
over the headings down to that line leaves, where each heading takes off those of the same or a
lower rank before it is put on. So ranks rise along them, and any two sections are nested or share
no line. -/

namespace Concentric.Outline

open Headings

/-! ## One pass with a stack -/

/-- Puts a heading on a stack, the innermost on top, after taking off those that it ends. -/
def push (stack : List Heading) (h : Heading) : List Heading :=
  h :: stack.dropWhile fun s => decide (h.level ≤ s.level)

/-- The stack after the headings down to a line. -/
def stackAt (line : Nat) (outline : List Heading) : List Heading :=
  (outline.filter fun h => decide (h.top ≤ line)).foldl push []

/-- The headings that none after them ends. -/
def unclosed : List Heading → List Heading
  | [] => []
  | h :: rest =>
    if rest.all fun t => decide (h.level < t.level) then h :: unclosed rest else unclosed rest

theorem unclosed_cons (h : Heading) (rest : List Heading) : unclosed (h :: rest) =
    if rest.all fun t => decide (h.level < t.level) then h :: unclosed rest
    else unclosed rest := rfl

theorem dropWhile_dropWhile_of_imp {α : Type} {p q : α → Bool} (h : ∀ a, p a = true → q a = true)
    (l : List α) : (l.dropWhile p).dropWhile q = l.dropWhile q := by
  induction l with
  | nil => rfl
  | cons a l ih =>
    by_cases hp : p a = true
    · rw [List.dropWhile_cons_of_pos hp, List.dropWhile_cons_of_pos (h a hp), ih]
    · rw [List.dropWhile_cons_of_neg hp]

theorem foldl_push (hs stack : List Heading) :
    hs.foldl push stack = (unclosed hs).reverse ++
      stack.dropWhile fun s => hs.any fun h => decide (h.level ≤ s.level) := by
  induction hs generalizing stack with
  | nil => cases stack <;> rfl
  | cons h rest ih =>
    rw [List.foldl_cons, ih, push, unclosed_cons, List.dropWhile_cons]
    by_cases hall : (rest.all fun t => decide (h.level < t.level)) = true
    · -- the heading stays, and what it takes off is all that is taken off
      have hkept : ¬ (rest.any fun t => decide (t.level ≤ h.level)) = true := by
        simpa using hall
      have hsame : (fun s : Heading => (h :: rest).any fun t => decide (t.level ≤ s.level)) =
          fun s => decide (h.level ≤ s.level) := by
        funext s
        simp only [List.any_cons, Bool.or_eq_left_iff_imp, List.any_eq_true, decide_eq_true_eq]
        intro ⟨t, ht, hts⟩
        have := of_decide_eq_true (List.all_eq_true.mp hall t ht)
        omega
      rw [if_pos hall, if_neg hkept, hsame, List.reverse_cons, List.append_assoc]
      rfl
    · -- a later heading takes it off, and with it all that it took off
      have hdropped : (rest.any fun t => decide (t.level ≤ h.level)) = true := by
        simpa using hall
      have hsame : (fun s : Heading => (h :: rest).any fun t => decide (t.level ≤ s.level)) =
          fun s => rest.any fun t => decide (t.level ≤ s.level) := by
        funext s
        simp only [List.any_cons, Bool.or_eq_right_iff_imp, decide_eq_true_eq]
        intro hs
        obtain ⟨t, ht, hth⟩ := List.any_eq_true.mp hdropped
        refine List.any_eq_true.mpr ⟨t, ht, decide_eq_true ?_⟩
        have := of_decide_eq_true hth
        omega
      rw [if_neg hall, if_pos hdropped, hsame, dropWhile_dropWhile_of_imp]
      intro s hs
      obtain ⟨t, ht, hth⟩ := List.any_eq_true.mp hdropped
      refine List.any_eq_true.mpr ⟨t, ht, decide_eq_true ?_⟩
      have := of_decide_eq_true hs
      have := of_decide_eq_true hth
      omega

theorem stackAt_eq_unclosed (line : Nat) (outline : List Heading) :
    stackAt line outline = (unclosed (outline.filter fun h => decide (h.top ≤ line))).reverse := by
  unfold stackAt
  rw [foldl_push]
  simp

theorem unclosed_sublist (hs : List Heading) : (unclosed hs).Sublist hs := by
  induction hs with
  | nil => exact .slnil
  | cons h rest ih =>
    rw [unclosed_cons]
    split
    · exact ih.cons_cons h
    · exact ih.cons h

theorem unclosed_ranks (hs : List Heading) :
    (unclosed hs).Pairwise fun g h => g.level < h.level := by
  induction hs with
  | nil => exact .nil
  | cons h rest ih =>
    rw [unclosed_cons]
    split
    · next hall =>
      refine .cons (fun t ht => ?_) ih
      exact of_decide_eq_true (List.all_eq_true.mp hall t ((unclosed_sublist rest).mem ht))
    · exact ih

theorem getLast?_unclosed (hs : List Heading) : (unclosed hs).getLast? = hs.getLast? := by
  induction hs with
  | nil => rfl
  | cons h rest ih =>
    rw [unclosed_cons]
    split
    · rw [List.getLast?_cons, ih, List.getLast?_cons]
    · next hall =>
      have hne : rest ≠ [] := by
        rintro rfl
        exact hall rfl
      rw [ih, List.getLast?_cons, List.getLast?_eq_some_getLast hne]
      rfl

/-! ## Sections around a line -/

section

variable {d : Document} {outline : List Heading}

/-- The headings whose sections have a line are those down to it that none of them ends. -/
theorem filter_covers_eq_unclosed (hs : Sectioned d outline) {line : Nat}
    (hline : line < d.lineCount) :
    outline.filter (covers line) = unclosed (outline.filter fun h => decide (h.top ≤ line)) := by
  induction outline with
  | nil => rfl
  | cons h rest ih =>
    have hrest := ih hs.tail_of_cons
    by_cases htop : h.top ≤ line
    · -- what ends the section above the line is what takes the heading off the stack
      have hiff : covers line h = true ↔
          ((rest.filter fun t => decide (t.top ≤ line)).all fun t => decide (h.level < t.level)) =
            true := by
        rw [hs.covers_iff]
        simp only [htop, hline, true_and, List.all_eq_true, List.mem_filter, decide_eq_true_eq,
          and_imp]
        constructor
        · intro hall t ht htline
          by_contra hlevel
          have := hall t ht (Int.not_lt.mp hlevel)
          omega
        · intro hall t ht hlevel
          by_contra htline
          have := hall t ht (Nat.not_lt.mp htline)
          omega
      have hkeep : ((h :: rest).filter fun t => decide (t.top ≤ line)) =
          h :: rest.filter fun t => decide (t.top ≤ line) :=
        List.filter_cons_of_pos (decide_eq_true htop)
      rw [hkeep, unclosed_cons]
      by_cases hcov : covers line h = true
      · rw [List.filter_cons_of_pos hcov, if_pos (hiff.mp hcov), hrest]
      · rw [List.filter_cons_of_neg hcov, if_neg (fun h => hcov (hiff.mpr h)), hrest]
    · have hcov : ¬ covers line h = true := fun hc => htop ((hs.covers_iff line).mp hc).1
      have hdrop : ((h :: rest).filter fun t => decide (t.top ≤ line)) =
          rest.filter fun t => decide (t.top ≤ line) :=
        List.filter_cons_of_neg (by simpa using htop)
      rw [List.filter_cons_of_neg hcov, hdrop, hrest]

theorem filter_covers_of_le (hs : Sectioned d outline) {line : Nat} (hline : d.lineCount ≤ line) :
    outline.filter (covers line) = [] := by
  induction outline with
  | nil => rfl
  | cons h rest ih =>
    have hcov : ¬ covers line h = true := fun hc => by
      have := ((hs.covers_iff line).mp hc).2.1
      omega
    rw [List.filter_cons_of_neg hcov, ih hs.tail_of_cons]

theorem mapM_eq_ok {α β : Type} {f : α → Except Failure β} {g : α → β} {l : List α}
    (h : ∀ a ∈ l, f a = .ok (g a)) : l.mapM f = .ok (l.map g) := by
  induction l with
  | nil => rfl
  | cons a l ih =>
    rw [List.mapM_cons, h a List.mem_cons_self, ih fun b hb => h b (List.mem_cons_of_mem _ hb)]
    rfl

theorem Sectioned.line_eq (hs : Sectioned d outline) :
    ∀ h ∈ outline, h.line.wholeNumber? = some (h.top : Int) := by
  induction hs with
  | nil =>
    intro h hh
    cases hh
  | cons line _ _ _ _ _ ih =>
    intro t ht
    rcases List.mem_cons.mp ht with rfl | ht
    · exact line
    · exact ih t ht

/-- Headings on whole-numbered lines are found in the order of these. -/
theorem around_eq_mergeSort {f : Heading → Int}
    (hline : ∀ h ∈ outline, h.line.wholeNumber? = some (f h)) (line : Nat) :
    around id line outline =
      .ok ((outline.filter (covers line)).mergeSort fun g h => decide (f g ≤ f h)) := by
  have hkeys : ((outline.filter fun x => covers line (id x)).mapM fun x => do
      return (← (id x).line.minus line, x)) =
        .ok ((outline.filter (covers line)).map fun x => (Numeral.whole (f x - line), x)) := by
    refine mapM_eq_ok fun x hx => ?_
    rw [id_eq, Value.minus_of_wholeNumber? (hline x (List.mem_filter.mp hx).1)]
    rfl
  have hsort := List.map_mergeSort (l := outline.filter (covers line))
    (f := fun x => (Numeral.whole (f x - line), x)) (r := fun g h => decide (f g ≤ f h))
    (s := fun a b => !b.1.lt a.1) fun g _ h _ => by
      rw [Numeral.lt_whole, Bool.eq_iff_iff, Bool.not_eq_true', decide_eq_false_iff_not,
        decide_eq_true_eq]
      omega
  unfold around
  rw [hkeys]
  simp only [Failure.ok_bind]
  rw [← hsort, List.map_map]
  exact congrArg Except.ok (List.map_id _)

/-- Headings on ascending lines are found in their order, so sorting them changes nothing. -/
theorem around_of_ascending {f : Heading → Int}
    (hline : ∀ h ∈ outline, h.line.wholeNumber? = some (f h))
    (hasc : outline.Pairwise fun g h => f g < f h) (line : Nat) :
    around id line outline = .ok (outline.filter (covers line)) := by
  have hsorted : (outline.filter (covers line)).Pairwise fun g h => decide (f g ≤ f h) = true := by
    refine (hasc.sublist List.filter_sublist).imp fun hgh => ?_
    exact decide_eq_true (Int.le_of_lt hgh)
  rw [around_eq_mergeSort hline, List.mergeSort_of_pairwise hsorted]

theorem around_eq_filter (hs : Sectioned d outline) (line : Nat) :
    around id line outline = .ok (outline.filter (covers line)) :=
  around_of_ascending hs.line_eq (hs.ascending.imp Int.ofNat_lt.mpr) line

/-! ## Two sections -/

/-- Of two headings the later lies in the section of the earlier as long as ranks stay lower. -/
theorem below_bottom_iff {g h : Heading} {mid post : List Heading}
    (hs : Sectioned d (g :: (mid ++ h :: post))) :
    h.top ≤ g.bottom ↔ ∀ t ∈ mid ++ [h], g.level < t.level := by
  rw [hs.le_bottom_iff]
  have hasc := (List.pairwise_cons.mp hs.ascending).2
  have hbefore := (List.pairwise_append.mp hasc).2.2
  have hafter := (List.pairwise_cons.mp (List.pairwise_append.mp hasc).2.1).1
  constructor
  · intro ⟨_, hall⟩ t ht
    by_contra hlevel
    rcases List.mem_append.mp ht with ht | ht
    · have := hall t (List.mem_append_left _ ht) (Int.not_lt.mp hlevel)
      have := hbefore t ht h List.mem_cons_self
      omega
    · obtain rfl := List.mem_singleton.mp ht
      have := hall t (by simp) (Int.not_lt.mp hlevel)
      omega
  · intro hall
    refine ⟨hs.top_lt h (by simp), fun t ht hlevel => ?_⟩
    rcases List.mem_append.mp ht with ht | ht
    · have := hall t (List.mem_append_left _ ht)
      omega
    · rcases List.mem_cons.mp ht with rfl | ht
      · have := hall t (by simp)
        omega
      · exact hafter t ht

/-- A section that starts within another one ends with it or before. -/
theorem bottom_le_of_top_le {g h : Heading} {mid post : List Heading}
    (hs : Sectioned d (g :: (mid ++ h :: post))) (hle : h.top ≤ g.bottom) :
    h.bottom ≤ g.bottom := by
  have hh : Sectioned d (h :: post) := (hs.tail_of_cons).drop
  have hlevels := (below_bottom_iff hs).mp hle
  have hbottom := (hh.le_bottom_iff h.bottom).mp (Nat.le_refl _)
  have htops := hh.top_le_bottom
  have hbefore := (List.pairwise_append.mp (List.pairwise_cons.mp hs.ascending).2).2.2
  rw [hs.le_bottom_iff]
  refine ⟨hbottom.1, fun t ht hlevel => ?_⟩
  rcases List.mem_append.mp ht with ht | ht
  · have := hlevels t (List.mem_append_left _ ht)
    omega
  · rcases List.mem_cons.mp ht with rfl | ht
    · have := hlevels t (by simp)
      omega
    · have := hlevels h (by simp)
      exact hbottom.2 t ht (by omega)

theorem nested_iff {g h : Heading} {mid post : List Heading}
    (hs : Sectioned d (g :: (mid ++ h :: post))) :
    g.span.contains h.span = true ↔ ∀ t ∈ mid ++ [h], g.level < t.level := by
  have hh : Sectioned d (h :: post) := (hs.tail_of_cons).drop
  have hgh := (List.pairwise_cons.mp hs.ascending).1 h (by simp)
  have hbottom := ((hs.le_bottom_iff g.bottom).mp (Nat.le_refl _)).1
  rw [← below_bottom_iff hs, Span.contains_iff, hs.start_eq, hh.start_eq, hs.stop_eq, hh.stop_eq]
  constructor
  · intro ⟨_, hstop⟩
    have htops := hh.top_le_bottom
    have hlt := ((hh.le_bottom_iff h.bottom).mp (Nat.le_refl _)).1
    rw [Position.le_def, Document.lineEnd_line hlt, Document.lineEnd_line hbottom] at hstop
    omega
  · intro hle
    have hends := bottom_le_of_top_le hs hle
    refine ⟨Or.inl hgh, ?_⟩
    rcases Nat.lt_or_eq_of_le hends with hlt | heq
    · refine Or.inl ?_
      rw [Document.lineEnd_line (by omega), Document.lineEnd_line hbottom]
      exact hlt
    · rw [heq]
      exact Position.le_refl _

end

/-! ## The outline of a stream -/

/-- What holds of an outline at a line: the headings around it are the stack, from the bottom up;
ranks fall along them, and the last of them is the last heading down to the line. -/
structure StackedAt (outline : List Heading) (line : Nat) : Prop where
  around : around id line outline = .ok (stackAt line outline).reverse
  ranks : (stackAt line outline).reverse.Pairwise fun g h => g.level < h.level
  last : (stackAt line outline).reverse.getLast? =
    (outline.filter fun h => decide (h.top ≤ line)).getLast?

/-- A stream whose headings ascend has an outline with its headings, and at every line of the
document the outline is the stack of one pass. Of two of its sections the later lies in the earlier
if and only if all ranks from there to the later are lower, and else they share no line. -/
theorem outline_stacked {d : Document} {tokens : List Token} (ht : ∀ t ∈ tokens, t.Typed)
    (ha : HeadingsAscend d tokens) :
    ∃ outline, ofTokens d tokens = .ok outline ∧
      List.Forall₂ HeadingOf (tokens.filter Token.opensHeading) outline ∧
      (∀ line < d.lineCount, StackedAt outline line) ∧
      (∀ line, d.lineCount ≤ line → around id line outline = .ok []) ∧
      ∀ (pre mid post : List Heading) (g h : Heading), outline = pre ++ g :: (mid ++ h :: post) →
        (g.span.contains h.span = true ↔ ∀ t ∈ mid ++ [h], g.level < t.level) ∧
        (g.span.contains h.span = false → g.span.stop.line < h.span.start.line) := by
  obtain ⟨outline, ho, hs, hof⟩ := ofTokens_sectioned ht ha
  refine ⟨outline, ho, hof, ?_, ?_, ?_⟩
  · intro line hline
    have hstack : (stackAt line outline).reverse = outline.filter (covers line) := by
      rw [stackAt_eq_unclosed, List.reverse_reverse, filter_covers_eq_unclosed hs hline]
    refine ⟨by rw [hstack]; exact around_eq_filter hs line, ?_, ?_⟩
    · rw [stackAt_eq_unclosed, List.reverse_reverse]
      exact unclosed_ranks _
    · rw [stackAt_eq_unclosed, List.reverse_reverse]
      exact getLast?_unclosed _
  · intro line hline
    rw [around_eq_filter hs, filter_covers_of_le hs hline]
  · rintro pre mid post g h rfl
    have hg := hs.drop
    refine ⟨nested_iff hg, fun hnot => ?_⟩
    by_contra hle
    have hin := (below_bottom_iff hg).mp (Nat.not_lt.mp hle)
    rw [(nested_iff hg).mpr hin] at hnot
    cases hnot

/-- Three headings with a text, the second of the lowest rank. -/
def threeRanks : Document := .ofText "# A\n### B\n## C\ntext" "u" "markdown" (.whole 1) "h"

def threeRanksTokens : List Token :=
  [⟨"heading_open", 0, 0, 1, "h1"⟩, ⟨"heading_open", 0, 1, 2, "h3"⟩,
    ⟨"heading_open", 0, 2, 3, "h2"⟩, ⟨"paragraph_open", 0, 3, 4, "p"⟩].map Token.Sketch.token

def threeRanksOutline : List Heading :=
  [⟨1, .whole 0, "", "section", .between ⟨0, 0⟩ ⟨3, 4⟩⟩,
    ⟨3, .whole 1, "", "section-1", .between ⟨1, 0⟩ ⟨1, 5⟩⟩,
    ⟨2, .whole 2, "", "section-2", .between ⟨2, 0⟩ ⟨3, 4⟩⟩]

theorem threeRanks_ascend : HeadingsAscend threeRanks threeRanksTokens :=
  .of_lines [0, 1, 2] rfl (by decide) (by decide)

/-- On the last line the stack is that of the first and the third heading. -/
theorem threeRanks_stacked : ∃ outline, ofTokens threeRanks threeRanksTokens = .ok outline ∧
    StackedAt outline 3 := by
  obtain ⟨outline, ho, -, hstack, -⟩ :=
    outline_stacked (Token.typed_of_sketches _) threeRanks_ascend
  exact ⟨outline, ho, hstack 3 (by decide)⟩

/-- Below the last line no section goes on, though the stack of the headings above is not empty. -/
theorem below_not_stacked : HeadingsAscend threeRanks threeRanksTokens ∧
    ofTokens threeRanks threeRanksTokens = .ok threeRanksOutline ∧ threeRanks.lineCount = 4 ∧
    (stackAt 4 threeRanksOutline).map Heading.level = [2, 1] ∧
    ¬ StackedAt threeRanksOutline 4 := by
  have hnone : around id 4 threeRanksOutline = .ok [] := by
    have hfar : threeRanksOutline.filter (fun h => covers 4 (id h)) = [] := by decide
    rw [around, hfar, List.mapM_nil]
    exact congrArg Except.ok (by simp)
  have hlevels : (stackAt 4 threeRanksOutline).map Heading.level = [2, 1] := by decide
  refine ⟨threeRanks_ascend, rfl, by decide, hlevels, fun h => ?_⟩
  have hempty := List.reverse_eq_nil_iff.mp (Except.ok.inj (hnone.symm.trans h.around)).symm
  rw [hempty] at hlevels
  cases hlevels

end Concentric.Outline
