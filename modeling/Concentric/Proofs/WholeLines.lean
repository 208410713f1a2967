import Concentric.Proofs.StrictNesting

/-! Steps of whole lines. What a block asks for lies in the document and goes down to the line of
the cursor, and then no end of a step is moved above its start. There are two exceptions: a short
block that starts on the line with nothing but blanks is taken without it, and a list at the top
that leaves out the line leaves it to a block that is no item. -/

namespace Concentric

/-- The step goes from the start of a line of the document to the end of one. -/
structure Step.Whole (d : Document) (s : Step) : Prop where
  start_character : s.span.start.character = 0
  start_lt : s.span.start.line < d.lineCount
  stop_lt : s.span.stop.line < d.lineCount
  stop_character : d.lineLength s.span.stop.line = .ok s.span.stop.character

/-- Lines of the document that go down to a line. -/
structure Rows.Reaches (d : Document) (line : Nat) (r : Rows) : Prop where
  proper : r.Proper d
  le_last : line ≤ r.last

section

variable {d : Document} {line : Nat} {r : Rows} {t : Token}

theorem Rows.Proper.whole (h : r.Proper d) : (r.step d).Whole d := by
  have hstart : (r.step d).span.start = ⟨r.first, 0⟩ := h.start_eq
  have hstop : (r.step d).span.stop = d.lineEnd r.last := h.stop_eq
  have hline : (d.lineEnd r.last).line = r.last := Document.lineEnd_line h.last_lt
  refine ⟨congrArg Position.character hstart, ?_, ?_, ?_⟩
  · rw [hstart]
    exact Nat.lt_of_le_of_lt h.first_le_last h.last_lt
  · rw [hstop, hline]
    exact h.last_lt
  · rw [hstop, hline]
    exact Document.lineLength_of_lt h.last_lt

theorem Rows.At.reaches (h : r.At d line) : r.Reaches d line := ⟨h.proper, h.le_last⟩

/-- A block that starts on a blank line of the cursor goes on for two more lines at least, unless it
is a fence or only the line of the cursor is taken of it. -/
def Token.Long (d : Document) (line : Nat) (t : Token) : Prop :=
  t.isFence = false → t.isPair = false → d.hasBlank t.first = true → t.first = line →
    line + 3 ≤ t.stop

/-- What a plain block asks for goes down to the line, and is not just the line below. -/
theorem Token.Lies.plainRows_reaches (h : t.Lies d line) (hlong : t.Long d line)
    (hf : t.isFence = false) : (t.plainRows d line).Reaches d line ∧
      ((t.plainRows d line).first ≤ line ∨
        (t.plainRows d line).first < (t.plainRows d line).last) := by
  have hfirst := h.first_le
  have hlt := h.lt_stop
  have hmore : t.isPair = false → d.hasBlank t.first = true → t.first + 1 ≠ t.stop := by
    intro hpair hb hstop
    have := hlong hf hpair hb
    omega
  refine ⟨⟨h.plainRows_proper hmore, ?_⟩, ?_⟩
  · unfold Token.plainRows
    split
    · exact Nat.le_refl _
    · dsimp only
      omega
  · unfold Token.plainRows
    split
    · exact Or.inl (Nat.le_refl _)
    · next hpair =>
      dsimp only
      split
      · next hb =>
        have := hlong hf (Bool.eq_false_iff.mpr hpair) hb
        omega
      · exact Or.inl hfirst

end

namespace Move

/-! ## Runs over lines that go down to the cursor -/

/-- The move is for a token around a line, and what it asks for goes down to the line. -/
inductive Lands (d : Document) (line : Nat) : Move → Prop
  | list {t : Token} (token : t.At d line) (reaches : line ≤ t.listRows.last) :
      Lands d line (.list t)
  | alone {t : Token} (token : t.At d line) (long : t.Long d line) : Lands d line (.alone t)

section

open Rows

variable {d : Document} {line cap : Nat} {t u : Token} {m : Move} {ts rest : List Token}
  {ms : List Move} {rs : List Rows}

theorem Lands.joins (h : m.Lands d line) : m.Joins d line (Rows.Reaches d line) := by
  cases h with
  | list ht hreaches =>
    exact ⟨fun cap _ hrs => Token.join_list cap ht fun p hp => (hrs p hp).proper,
      fun _ => Rows.putList_grows ⟨ht.listRows_proper, hreaches⟩⟩
  | @alone t ht hlong =>
    have hlies := ht.toLies
    have hplain := hlies.plainRows_reaches hlong
    -- the end moves up to a line that is not above the start
    have hcut : t.isFence = false → ∀ {rs : List Rows}, (∀ p ∈ rs.head?, p.Reaches d line) →
        ∀ p ∈ rs.head?, (t.plainRows d line).last = p.last + 1 →
          (t.plainRows d line).first ≤ p.last := by
      intro hf rs hrs p hp hlast
      have hle := (hrs p hp).le_last
      rcases (hplain hf).2 with hfirst | hfirst <;> omega
    constructor
    · intro cap rs hrs
      refine Token.join_alone cap ht.typed.name hlies (fun hf hpair hb hstop => ?_)
        (fun p hp => (hrs p hp).proper) fun hf => hcut hf hrs
      have hlt := hlies.lt_stop
      have hle := hlies.first_le
      have := hlong hf hpair hb
      omega
    · intro rs hrs
      refine Token.put_grows (fun _ => ⟨hlies.rows_at.reaches, fun c hc => ?_⟩) fun hf => ?_
      · exact (hlies.markedRows_at c hc).reaches
      · exact ⟨(hplain hf).1, fun p hp hlast =>
          ⟨⟨hcut hf hrs p hp hlast, (hrs p hp).proper.last_lt⟩, (hrs p hp).le_last⟩⟩

theorem Runs.of_lands (hms : ∀ m ∈ ms, m.Lands d line) (hhead : ∀ p ∈ rs.head?, p.Reaches d line)
    (hrs : ∀ p ∈ rs, p.Proper d) : Runs d line cap rs ms :=
  have hjoins : ∀ m ∈ ms, m.Joins d line (Rows.Reaches d line) := fun m hm => (hms m hm).joins
  ⟨Joins.carryOut_eq hjoins hhead, Joins.putAll_all hjoins (fun _ h => h.proper) hhead hrs,
    Joins.putAll_ne_nil hjoins hhead⟩

theorem Picks.lands (hp : Picks ts ms) (hat : ∀ t ∈ ts, t.At d line)
    (hlong : ∀ t ∈ ts, t.Long d line)
    (hlist : ∀ t ∈ ts, t.isList = true → line ≤ t.listRows.last) : ∀ m ∈ ms, m.Lands d line := by
  intro m hm
  obtain ⟨t, ht, ⟨rfl, hl⟩ | rfl⟩ := hp.mem m hm
  · exact .list (hat t ht) (hlist t ht hl)
  · exact .alone (hat t ht) (hlong t ht)

theorem Runs.nil (hrs : ∀ p ∈ rs, p.Proper d) : Runs d line cap rs [] := ⟨rfl, hrs, fun h => h⟩

/-- Blocks around a line from the outermost inwards, none of which is too short where it starts on
the line with nothing but blanks. -/
structure Stacked (d : Document) (line : Nat) (ts : List Token) : Prop where
  around : ∀ t ∈ ts, t.At d line
  inner : ts.Pairwise Token.Inner
  long : ∀ t ∈ ts, t.Long d line

theorem Stacked.tail (h : Stacked d line (t :: ts)) : Stacked d line ts :=
  ⟨fun u hu => h.around u (List.mem_cons_of_mem _ hu), (List.pairwise_cons.mp h.inner).2,
    fun u hu => h.long u (List.mem_cons_of_mem _ hu)⟩

theorem Stacked.typed (h : Stacked d line ts) : ∀ t ∈ ts, t.Typed :=
  fun t ht => (h.around t ht).typed

/-- A list within another block is not at the top and leaves out no line. -/
theorem Stacked.lists_inner (h : Stacked d line (t :: ts)) :
    ∀ u ∈ ts, u.isList = true → u.listRows.At d line := by
  intro u hu _
  obtain ⟨-, -, hdeep⟩ := (List.pairwise_cons.mp h.inner).1 u hu
  exact (h.around u (List.mem_cons_of_mem _ hu)).listRows_at fun htop => by omega

/-- Outside of any section all steps are whole lines. -/
theorem Stacked.unseeded (cap : Nat) (h : Stacked d line ts) :
    Runs d line cap [] (all (.whole cap) false ts) := by
  cases ts with
  | nil => exact .nil fun p hp => absurd hp List.not_mem_nil
  | cons t rest =>
    have hpicks := mixed_picks cap h.tail.typed
    have hrest := hpicks.lands h.tail.around h.tail.long
      fun u hu hl => (h.lists_inner u hu hl).le_last
    refine .of_lands (fun m hm => ?_) (fun p hp => by cases hp) fun p hp => absurd hp
      List.not_mem_nil
    rcases List.mem_cons.mp hm with rfl | hm
    · exact .alone (h.around t List.mem_cons_self) (h.long t List.mem_cons_self)
    · exact hrest m hm

/-- After a list at the top that leaves out the line an item brings it back. -/
theorem Stacked.item (h : Stacked d line (u :: rest)) (hu : u.isList = true) (hdepth : u.depth = 1)
    (hrows : u.listRows.At d line) (hcap : 2 ≤ cap) (hrs : ∀ p ∈ rs, p.Proper d) :
    Runs d line cap rs (walk (.whole cap) (.whole (1 : Nat)) (u :: rest)) := by
  have hat := h.around u List.mem_cons_self
  have hput : (u.listRows.putList rs).head? = some u.listRows := head_putList _ _
  rw [walk_item hat.typed hu hdepth hcap]
  refine .list hat hrs (.of_lands ?_ (fun p hp => ?_) ((putList_grows hrows.proper).all hrs))
  · exact (walk_picks cap 2 h.tail.typed).lands h.tail.around h.tail.long
      fun v hv hl => (h.lists_inner v hv hl).le_last
  · rw [hput] at hp
    exact Option.mem_some.mp hp ▸ hrows.reaches

/-- Within a section all steps are whole lines, unless the line is the last one of a list at the top
and no item follows. -/
theorem Stacked.seeded (h : Stacked d line ts) (hcap : 1 ≤ cap)
    (hbare : ∀ t u us, ts = t :: u :: us → t.isList = true → t.depth = 0 → t.first + 2 ≤ t.stop →
      line + 1 = t.stop → 2 ≤ cap → u.isList = true ∧ u.depth = 1)
    (hrs : ∀ p ∈ rs, p.At d line) : Runs d line cap rs (mixed (.whole cap) ts) := by
  have hproper : ∀ p ∈ rs, p.Proper d := fun p hp => (hrs p hp).proper
  by_cases htop : ∃ t rest, ts = t :: rest ∧ t.isList = true ∧ t.depth = 0 ∧
      t.first + 2 ≤ t.stop ∧ line + 1 = t.stop
  · obtain ⟨t, rest, rfl, hl, hdepth, hmore, hend⟩ := htop
    have hat := h.around t List.mem_cons_self
    have hnext := (putList_grows hat.listRows_proper).all hproper
    rw [mixed_topList hat.typed hl hdepth hcap]
    refine .list hat hproper ?_
    by_cases hone : cap = 1
    · rw [hone, walk_eq_nil h.tail.typed]
      exact .nil hnext
    have hcap' : 2 ≤ cap := Nat.lt_of_le_of_ne hcap fun h => hone h.symm
    cases rest with
    | nil => exact .nil hnext
    | cons u us =>
      obtain ⟨hu, hudepth⟩ := hbare t u us rfl hl hdepth hmore hend hcap'
      exact h.tail.item hu hudepth (h.lists_inner u List.mem_cons_self hu) hcap' hnext
  · refine .of_lands ((mixed_picks cap h.typed).lands h.around h.long ?_)
      (fun p hp => (hrs p (List.mem_of_mem_head? hp)).reaches) hproper
    cases ts with
    | nil => exact fun u hu => absurd hu List.not_mem_nil
    | cons t rest =>
      intro u hu hl
      rcases List.mem_cons.mp hu with rfl | hu
      · refine ((h.around u List.mem_cons_self).listRows_at fun hdepth hmore hend => ?_).le_last
        exact htop ⟨u, rest, rfl, hl, hdepth, hmore, hend⟩
      · exact (h.lists_inner u hu hl).le_last

end

end Move

namespace Selection

open Outline Headings

/-- A block of one or two lines starts on the line, which is blank. -/
def StartsShort (d : Document) (tokens : List Token) (line : Nat) : Prop :=
  d.hasBlank line = true ∧ ∃ t ∈ tokens, t.encloses line = true ∧ t.isFence = false ∧
    t.isPair = false ∧ t.first = line ∧ t.stop ≤ line + 2

/-- The line lies in a section and is the last one of a list at the top that has more lines, and
what is within the list around the line is no item of it. -/
def EndsBareList (outline : List Heading) (tokens : List Token) (line cap : Nat) : Prop :=
  (∃ h ∈ outline, covers line h = true) ∧ 2 ≤ cap ∧
    ∃ t u us, tokens.filter (Token.encloses line) = t :: u :: us ∧ t.isList = true ∧ t.depth = 0 ∧
      t.first + 2 ≤ t.stop ∧ line + 1 = t.stop ∧ ¬ (u.isList = true ∧ u.depth = 1)

section

variable {d : Document} {tokens : List Token} {outline : List Heading} {line cap : Nat}

theorem enclosing_stacked (hp : ParserShaped d tokens) (hshort : ¬ StartsShort d tokens line) :
    Move.Stacked d line (tokens.filter (Token.encloses line)) := by
  refine ⟨fun _ ht => hp.at_of_mem ht, hp.enclosing_inner line, ?_⟩
  intro t ht hfence hpair hb hfirst
  obtain ⟨hmem, henc⟩ := List.mem_filter.mp ht
  by_contra hstop
  exact hshort ⟨hfirst ▸ hb, t, hmem, henc, hfence, hpair, hfirst, by omega⟩

/-- The moves around a line run over whole lines. -/
theorem moves_run_whole (hp : ParserShaped d tokens) (hs : Sectioned d outline) (hcap : 1 ≤ cap)
    (hshort : ¬ StartsShort d tokens line) (hbare : ¬ EndsBareList outline tokens line cap) :
    Move.Runs d line cap (rowsAround outline line)
      (Move.all (.whole cap) (!(rowsAround outline line).isEmpty)
        (tokens.filter (Token.encloses line))) := by
  have hstacked := enclosing_stacked hp hshort
  have hat := rowsAround_at hs line
  cases hH : rowsAround outline line with
  | nil => exact hstacked.unseeded cap
  | cons r outer =>
    rw [hH] at hat
    rw [List.isEmpty_cons, Bool.not_false, Move.all_seeded]
    refine hstacked.seeded hcap (fun t u us heq hl htop hmore hend hcap' => ?_) hat
    by_contra hitem
    exact hbare ⟨exists_covers_of_cons hH, hcap', t, u, us, heq, hl, htop, hmore, hend, hitem⟩

end

/-- Every step of the chain of a position goes from the start of a line of the document to the end
of one, as long as no block of one or two lines starts on the line with nothing but blanks on it,
and the line is not the last of a list at the top within a section that has no item there. -/
theorem chain_whole {d : Document} {tokens : List Token} {outline : List Heading} {cap : Nat}
    {p : Position} (hp : ParserShaped d tokens) (ho : ofTokens d tokens = .ok outline)
    (hcap : 1 ≤ cap) (hshort : ¬ StartsShort d tokens p.line)
    (hbare : ¬ EndsBareList outline tokens p.line cap) :
    ∃ c, chain ⟨d, tokens, outline, .whole cap⟩ p = .ok c ∧ ∀ s ∈ c, s.Whole d := by
  have hruns := moves_run_whole hp (hp.sectioned ho) hcap hshort hbare
  refine ⟨_, chain_eq hp ho hruns.carried hruns.ne_nil, fun s hs => ?_⟩
  obtain ⟨r, hr, rfl⟩ := List.mem_map.mp hs
  exact (hruns.proper r hr).whole

/-- On the last line of the list, which the list leaves out, every step is whole lines. -/
theorem topList_whole : ∃ c,
    chain ⟨topList, topListTokens, topListOutline, .whole 4⟩ ⟨2, 0⟩ = .ok c ∧
      ∀ s ∈ c, s.Whole topList := by
  have ho : ofTokens topList topListTokens = .ok topListOutline := rfl
  have hcap : 1 ≤ 4 := by decide
  refine chain_whole (p := ⟨2, 0⟩) topList_shaped ho hcap ?_ ?_
  · rintro ⟨hb, -⟩
    revert hb
    decide
  · rintro ⟨-, -, t, u, us, heq, -, -, -, -, hitem⟩
    cases heq
    exact hitem (by decide)

/-! ## Steps that are no lines -/

/-- A document of one line, which is blank. -/
def blankLine : Document := .ofText "\u00a0" "u" "markdown" (.whole 1) "h"

def blankLineTokens : List Token := [⟨"paragraph_open", 0, 0, 1, "p"⟩].map Token.Sketch.token

theorem blankLine_shaped : ParserShaped blankLine blankLineTokens :=
  .of_sketches (by decide) (by decide) (by decide) (.of_lines [] rfl (by decide) (by decide))

/-- Two sections, of which the first has only a blank line. -/
def blankSection : Document := .ofText "# A\n\u00a0\n# B" "u" "markdown" (.whole 1) "h"

def blankSectionTokens : List Token :=
  [⟨"heading_open", 0, 0, 1, "h1"⟩, ⟨"paragraph_open", 0, 1, 2, "p"⟩,
    ⟨"heading_open", 0, 2, 3, "h1"⟩].map Token.Sketch.token

def blankSectionOutline : List Heading :=
  [⟨1, .whole 0, "", "section", .between ⟨0, 0⟩ ⟨1, 1⟩⟩,
    ⟨1, .whole 2, "", "section-1", .between ⟨2, 0⟩ ⟨2, 3⟩⟩]

theorem blankSection_shaped : ParserShaped blankSection blankSectionTokens :=
  .of_sketches (by decide) (by decide) (by decide)
    (.of_lines [0, 2] rfl (by decide) (by decide))

/-- The tokens of a heading and a list that has a text without an item. -/
def bareListTokens : List Token :=
  [⟨"heading_open", 0, 0, 1, "h1"⟩, ⟨"bullet_list_open", 0, 1, 3, "ul"⟩,
    ⟨"paragraph_open", 1, 2, 3, "p"⟩].map Token.Sketch.token

theorem bareList_shaped : ParserShaped topList bareListTokens :=
  .of_sketches (by decide) (by decide) (by decide)
    (.of_lines [0] rfl (by decide) (by decide))

/-- On a blank last line of the document or of a section, and on the last line of a list without
items, a step goes from the end of a line to the start of the next one. -/
theorem step_not_whole :
    (ParserShaped blankLine blankLineTokens ∧ ofTokens blankLine blankLineTokens = .ok [] ∧
      ∃ c, chain ⟨blankLine, blankLineTokens, [], .whole 4⟩ ⟨0, 0⟩ = .ok c ∧
        ∃ s ∈ c, ¬ s.Whole blankLine) ∧
    (ParserShaped blankSection blankSectionTokens ∧
      ofTokens blankSection blankSectionTokens = .ok blankSectionOutline ∧
      ∃ c, chain ⟨blankSection, blankSectionTokens, blankSectionOutline, .whole 4⟩ ⟨1, 0⟩ = .ok c ∧
        ∃ s ∈ c, ¬ s.Whole blankSection) ∧
    (ParserShaped topList bareListTokens ∧ ofTokens topList bareListTokens = .ok topListOutline ∧
      ∃ c, chain ⟨topList, bareListTokens, topListOutline, .whole 4⟩ ⟨2, 0⟩ = .ok c ∧
        ∃ s ∈ c, ¬ s.Whole topList) := by
  have hline : chain ⟨blankLine, blankLineTokens, [], .whole (4 : Nat)⟩ ⟨0, 0⟩ =
      .ok ([⟨1, 0⟩].map (Rows.step blankLine)) :=
    chain_eq blankLine_shaped rfl rfl (by simp)
  have hsection : chain ⟨blankSection, blankSectionTokens, blankSectionOutline, .whole (4 : Nat)⟩
      ⟨1, 0⟩ = .ok ([⟨2, 1⟩, ⟨1, 1⟩, ⟨0, 1⟩].map (Rows.step blankSection)) :=
    chain_eq blankSection_shaped rfl rfl (by simp)
  have hlist : chain ⟨topList, bareListTokens, topListOutline, .whole (4 : Nat)⟩ ⟨2, 0⟩ =
      .ok ([⟨2, 1⟩, ⟨1, 1⟩, ⟨1, 2⟩, ⟨0, 2⟩].map (Rows.step topList)) :=
    chain_eq bareList_shaped rfl rfl (by simp)
  have hshift : ∀ {d : Document} {s : Step}, s.span.start.character ≠ 0 → ¬ s.Whole d :=
    fun hne hwhole => hne hwhole.start_character
  exact ⟨⟨blankLine_shaped, rfl, _, hline, _, List.mem_cons_self, hshift (by decide)⟩,
    ⟨blankSection_shaped, rfl, _, hsection, _, List.mem_cons_self, hshift (by decide)⟩,
    bareList_shaped, rfl, _, hlist, _, List.mem_cons_self, hshift (by decide)⟩

end Selection

end Concentric
