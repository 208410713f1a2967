import Concentric.Proofs.ChainStarts

/-! Steps and the line of the cursor. The rows of the headings around a line have it, and so has what
the blocks around it ask for, with two exceptions: a block whose first line is blank is taken without
that line, and so starts on the one after it, and a list at the top is taken without its last. -/

namespace Concentric

namespace Span

/-- The span has the line, or starts on the one after it where that is allowed for. -/
structure Meets (line : Nat) (after : Prop) (s : Span) : Prop where
  start_le : s.start.line ≤ line ∨ s.start.line = line + 1 ∧ after
  le_stop : line ≤ s.stop.line

variable {line : Nat} {after : Prop} {p q : Position}

theorem between_meets (hp : p.line ≤ line ∨ p.line = line + 1 ∧ after) (hq : line ≤ q.line) :
    (between p q).Meets line after := by
  unfold between
  split
  · exact ⟨hp, hq⟩
  · next hnot =>
    have hle := Position.line_le ((Position.le_total p q).resolve_left hnot)
    refine ⟨?_, Nat.le_trans hq hle⟩
    rcases hp with hp | ⟨hp, hafter⟩
    · exact Or.inl (Nat.le_trans hle hp)
    · exact (Nat.le_or_eq_of_le_succ (Nat.le_trans hle (Nat.le_of_eq hp))).imp_right fun h => ⟨h, hafter⟩

theorem spliced_meets (line : Nat) (after : Prop) : Spliced (Meets line after) :=
  fun _ _ _ hs hp hq => between_meets hs.start_le (hq ▸ hp.le_stop)

end Span

section

variable {d : Document} {line : Nat} {after : Prop} {t : Token} {cap : Value} {r : Rows}

theorem Rows.At.meets (h : r.At d line) (after : Prop) : (r.span d).Meets line after := by
  refine Span.between_meets (Or.inl h.first_le) ?_
  rw [Document.lineEnd_line h.last_lt]
  exact h.le_last

theorem Token.At.asks_list (h : t.At d line) (hrows : t.listRows.At d line) {b : Block}
    (hb : (Move.list t).block = .ok b) : b.Asks (Span.Meets line after) ⟨d, line, cap⟩ := by
  obtain ⟨l, hl, hstart, -⟩ := h.lines
  obtain rfl := Except.ok.inj ((Token.block_list t hl).symm.trans hb)
  have hspan : Block.wholeLines ⟨d, line, cap⟩ l.start (Block.listEnd ⟨d, line, cap⟩
      ⟨true, t.type, t.level, l⟩) = t.listRows.span d := by
    rw [h.listEnd_eq hl, hstart]
    rfl
  refine ⟨fun _ => ?_, fun hlist _ => (nomatch hlist), fun hlist _ => (nomatch hlist)⟩
  dsimp only
  rw [hspan]
  exact hrows.meets after

/-- A plain block has the line, unless that is its first and blank. -/
theorem Token.Lies.plainSpan_meets (h : t.Lies d line) {l : LineRange} (hl : t.lines? = some l)
    (hblank : t.isPair = false → d.hasBlank t.first = true → t.first = line → after) :
    (Block.plainSpan ⟨d, line, cap⟩ ⟨false, t.type, t.level, l⟩).Meets line after := by
  obtain ⟨q, hq, hstart, hstop⟩ := h.lines
  obtain rfl := Option.some.inj (hl.symm.trans hq)
  have hfirst := h.first_le
  have hlt := h.lt_stop
  have hle := h.stop_le
  have hends : ∀ first last : Int, first ≤ line ∨ first = line + 1 ∧ after → (line : Int) ≤ last →
      (Block.wholeLines ⟨d, line, cap⟩ first last).Meets line after := by
    intro first last hfirst hlast
    refine Span.between_meets ?_ ?_
    · unfold Position.clamped
      refine hfirst.imp (fun h => ?_) fun ⟨h, hafter⟩ => ⟨?_, hafter⟩ <;>
      · dsimp only
        omega
    · unfold Document.lineEnd Document.clampLine
      dsimp only
      omega
  unfold Block.plainSpan
  dsimp only
  split
  · exact hends _ _ (Or.inl (Int.le_refl _)) (Int.le_refl _)
  · next hname =>
    have hpair : t.isPair = false := by
      unfold isPair
      simp only [Bool.and_eq_false_iff, beq_eq_false_iff_ne, decide_eq_false_iff_not]
      by_contra! hboth
      refine hname ⟨hboth.1, ?_⟩
      unfold LineRange.length
      omega
    rw [hstart, hstop]
    refine hends _ _ ?_ (by split <;> omega)
    split
    · next hb =>
      rcases Nat.lt_or_eq_of_le hfirst with hbefore | hat
      · exact Or.inl (by omega)
      · exact Or.inr ⟨by omega, hblank hpair hb hat⟩
    · exact Or.inl (by omega)

theorem Token.Lies.asks_alone (h : t.Lies d line) (hname : ∃ s, t.type = .named s)
    (hblank : t.isFence = false → t.isPair = false → d.hasBlank t.first = true → t.first = line →
      after) {b : Block} (hb : (Move.alone t).block = .ok b) :
    b.Asks (Span.Meets line after) ⟨d, line, cap⟩ := by
  obtain ⟨l, hl, -⟩ := h.lines
  obtain rfl := Except.ok.inj ((Token.block_alone hname hl).symm.trans hb)
  refine ⟨fun hlist => (nomatch hlist), fun _ _ => ⟨?_, fun c hc => ?_⟩, fun _ hfence => ?_⟩
  · rw [Token.fenceSpan_eq h hl]
    exact h.rows_at.meets after
  · rw [Token.fenceContent_eq h hl] at hc
    obtain ⟨r, hr, rfl⟩ := Option.map_eq_some_iff.mp hc
    exact (h.markedRows_at r hr).meets after
  · exact h.plainSpan_meets hl (hblank hfence)

end

namespace Selection

open Outline Headings

/-- The line is blank, and the first of a block that is taken on its own and without such a line. A
fence keeps all its lines, and of a paragraph of two lines the line of the cursor is taken. -/
def SkipsBlank (d : Document) (outline : List Heading) (tokens : List Token) (cap line : Nat) :
    Prop :=
  d.hasBlank line = true ∧ ∃ t, Move.alone t ∈ Move.all (.whole cap)
    (!(rowsAround outline line).isEmpty) (tokens.filter (Token.encloses line)) ∧
    t.isFence = false ∧ t.isPair = false ∧ t.first = line

/-- The line lies in a section and is the last one of a list at the top that has more lines. -/
def EndsTopList (outline : List Heading) (tokens : List Token) (line : Nat) : Prop :=
  (∃ h ∈ outline, covers line h = true) ∧
    ∃ t ∈ tokens, t.encloses line = true ∧ t.isList = true ∧ t.depth = 0 ∧
      t.first + 2 ≤ t.stop ∧ line + 1 = t.stop

section

variable {d : Document} {tokens : List Token} {outline : List Heading} {line cap : Nat} {t : Token}

/-- Without a chain to start from the first block stands on its own, so a list that is walked lies
within another block and is not at the top. -/
theorem unseeded_list (hp : ParserShaped d tokens)
    (hm : Move.list t ∈ Move.all (.whole cap) false (tokens.filter (Token.encloses line))) :
    t ∈ tokens.filter (Token.encloses line) ∧ t.listRows.At d line := by
  have hinner := hp.enclosing_inner line
  have hat : ∀ t ∈ tokens.filter (Token.encloses line), t.At d line := fun t => hp.at_of_mem
  cases hE : tokens.filter (Token.encloses line) with
  | nil =>
    rw [hE] at hm
    cases hm
  | cons u rest =>
    rw [hE] at hm hinner hat
    rcases List.mem_cons.mp hm with heq | hm
    · cases heq
    have hpicks := Move.mixed_picks cap fun u hu => (hat u (List.mem_cons_of_mem _ hu)).typed
    obtain ⟨v, hv, ⟨heq, -⟩ | heq⟩ := hpicks.mem _ hm
    · obtain rfl := Move.list.inj heq
      obtain ⟨-, -, hdeep⟩ := (List.pairwise_cons.mp hinner).1 t hv
      have hmem := List.mem_cons_of_mem u hv
      exact ⟨hmem, (hat t hmem).listRows_at fun htop => by omega⟩
    · cases heq

/-- A list that is walked has the line, unless that is the last one of a list at the top in a
section. -/
theorem list_of_moves (hp : ParserShaped d tokens) (hlast : ¬ EndsTopList outline tokens line)
    (hm : Move.list t ∈ Move.all (.whole cap) (!(rowsAround outline line).isEmpty)
      (tokens.filter (Token.encloses line))) :
    t ∈ tokens.filter (Token.encloses line) ∧ t.listRows.At d line := by
  cases hH : rowsAround outline line with
  | nil =>
    rw [hH] at hm
    exact unseeded_list hp hm
  | cons r outer =>
    rw [hH, List.isEmpty_cons, Bool.not_false, Move.all_seeded] at hm
    have hat : ∀ u ∈ tokens.filter (Token.encloses line), u.At d line := fun u => hp.at_of_mem
    have hpicks := Move.mixed_picks cap fun u hu => (hat u hu).typed
    obtain ⟨u, hu, ⟨heq, hl⟩ | heq⟩ := hpicks.mem _ hm
    · obtain rfl := Move.list.inj heq
      refine ⟨hu, (hp.at_of_mem hu).listRows_at fun htop hmore hend => ?_⟩
      obtain ⟨hmem, henc⟩ := List.mem_filter.mp hu
      exact hlast ⟨exists_covers_of_cons hH, t, hmem, henc, hl, htop, hmore, hend⟩
    · cases heq

end

/-- Every step of the chain of a position goes down to its line at least, and starts there or above:
only where the line is blank and the first of a block that is taken without it, a step may start on
the line after. This leaves open what a step has if the line is the last of a list at the top within
a section. -/
theorem chain_covers {d : Document} {tokens : List Token} {outline : List Heading} {cap : Nat}
    {p : Position} (hp : ParserShaped d tokens) (ho : ofTokens d tokens = .ok outline)
    (hlast : ¬ EndsTopList outline tokens p.line) :
    ∃ c, chain ⟨d, tokens, outline, .whole cap⟩ p = .ok c ∧
      ∀ s ∈ c, p.line ≤ s.span.stop.line ∧ (s.span.start.line ≤ p.line ∨
        s.span.start.line = p.line + 1 ∧ SkipsBlank d outline tokens cap p.line) := by
  have henclosing : Token.enclosing id p.line tokens = tokens.filter (Token.encloses p.line) :=
    Except.ok.inj ((Token.around_of_keys _ fun t ht => (hp.typed t ht).labelled.isKey).symm.trans
      hp.around_eq)
  have hpicks : Move.Picks _ (Move.all (.whole cap) (!(rowsAround outline p.line).isEmpty)
      (tokens.filter (Token.encloses p.line))) :=
    Move.all_picks rfl _ fun t ht => (hp.at_of_mem ht).typed.labelled
  obtain ⟨c, hc, hall⟩ := chain_all (hp.sectioned ho) hp.typed (.whole cap) p
    (Span.spliced_meets p.line (SkipsBlank d outline tokens cap p.line))
    (fun r hr => (rowsAround_at (hp.sectioned ho) _ r hr).meets _) (by
      rw [henclosing]
      intro m hm b hb
      obtain ⟨t, ht, ⟨rfl, -⟩ | rfl⟩ := hpicks.mem m hm
      · exact (hp.at_of_mem ht).asks_list (list_of_moves hp hlast hm).2 hb
      · refine (hp.at_of_mem ht).toLies.asks_alone (hp.at_of_mem ht).typed.name
          (fun hfence hpair hblank hfirst => ?_) hb
        exact ⟨hfirst ▸ hblank, t, hm, hfence, hpair, hfirst⟩)
  exact ⟨c, hc, fun s hs => ⟨(hall s hs).le_stop, (hall s hs).start_le⟩⟩

/-- On the first line of the list, which is not blank, every step has it. -/
theorem topList_covered : ∃ c,
    chain ⟨topList, topListTokens, topListOutline, .whole 4⟩ ⟨1, 0⟩ = .ok c ∧
      ∀ s ∈ c, s.span.start.line ≤ 1 ∧ 1 ≤ s.span.stop.line := by
  have hlast : ¬ EndsTopList topListOutline topListTokens 1 := by
    rintro ⟨-, h⟩
    revert h
    decide
  obtain ⟨c, hc, hcovers⟩ := @chain_covers _ _ _ 4 ⟨1, 0⟩ topList_shaped rfl hlast
  refine ⟨c, hc, fun s hs => ?_⟩
  have hfull : topList.hasBlank (1 : Nat) ≠ true := by decide
  obtain ⟨hstop, hstart | ⟨-, hblank, -⟩⟩ := hcovers s hs
  · exact ⟨hstart, hstop⟩
  · exact absurd hblank hfull

/-! ## Lines that a step misses -/

/-- A block with one blank line, and a line after it. -/
def blankBlock : Document := .ofText "\nx" "u" "markdown" (.whole 1) "h"

def blankBlockTokens : List Token := [⟨"html_block", 0, 0, 1, ""⟩].map Token.Sketch.token

theorem blankBlock_shaped : ParserShaped blankBlock blankBlockTokens :=
  .of_sketches (by decide) (by decide) (by decide)
    (.of_lines [] rfl (by decide) (by decide))

/-- On the blank line of the block the step is the line after it. On the last line of the list one
step is the line before. -/
theorem step_misses_cursor :
    (ParserShaped blankBlock blankBlockTokens ∧ ofTokens blankBlock blankBlockTokens = .ok [] ∧
      ∃ c, chain ⟨blankBlock, blankBlockTokens, [], .whole 4⟩ ⟨0, 0⟩ = .ok c ∧
        ∃ s ∈ c, 0 < s.span.start.line) ∧
    (ParserShaped topList topListTokens ∧ ofTokens topList topListTokens = .ok topListOutline ∧
      ∃ c, chain ⟨topList, topListTokens, topListOutline, .whole 4⟩ ⟨2, 0⟩ = .ok c ∧
        ∃ s ∈ c, s.span.stop.line < 2) := by
  have hblank : chain ⟨blankBlock, blankBlockTokens, [], .whole (4 : Nat)⟩ ⟨0, 0⟩ =
      .ok ([⟨1, 1⟩].map (Rows.step blankBlock)) :=
    chain_eq blankBlock_shaped rfl rfl (by simp)
  have hlist : chain ⟨topList, topListTokens, topListOutline, .whole (4 : Nat)⟩ ⟨2, 0⟩ =
      .ok ([⟨2, 2⟩, ⟨1, 1⟩, ⟨1, 2⟩, ⟨0, 2⟩].map (Rows.step topList)) :=
    chain_eq topList_shaped rfl rfl (by simp)
  refine ⟨⟨blankBlock_shaped, rfl, _, hblank, _, List.mem_cons_self, by decide⟩, ?_⟩
  exact ⟨topList_shaped, rfl, _, hlist, Rows.step topList ⟨1, 1⟩, by simp, by decide⟩

end Selection

end Concentric
