import Concentric.Proofs.HeadingSteps
import Concentric.Proofs.TokenRows
import Concentric.Selection

/-! Walks over the blocks around a line. The moves of a walk pick some of the blocks in their order,
and carrying them out is a run over rows: the chain of a position is what the moves make of the rows
of the headings around it. -/

namespace Concentric

namespace Move

/-! ## Moves over rows -/

/-- Puts the lines of a move into a chain of rows. -/
def put (d : Document) (line : Nat) : Move → List Rows → List Rows
  | list t, rs => t.listRows.putList rs
  | alone t, rs => t.put d line rs
  | stuck, rs => rs

/-- Puts the lines of moves into a chain of rows, one after another. -/
def putAll (d : Document) (line : Nat) (ms : List Move) (rs : List Rows) : List Rows :=
  ms.foldl (fun rs m => m.put d line rs) rs

/-- On innermost rows with a property the move joins a chain of rows by its lines, and what it puts
in has the property too. -/
structure Joins (d : Document) (line : Nat) (P : Rows → Prop) (m : Move) : Prop where
  join : ∀ (cap : Value) {rs : List Rows}, (∀ p ∈ rs.head?, P p) → ∃ b, m.block = .ok b ∧
    Block.join ⟨d, line, cap⟩ (rs.map (Rows.step d)) b = (m.put d line rs).map (Rows.step d)
  grows : ∀ {rs : List Rows}, (∀ p ∈ rs.head?, P p) → Rows.Grows P rs (m.put d line rs)

/-- The move is for a token around a line, and what it asks for has the line. -/
inductive Fits (d : Document) (line : Nat) : Move → Prop
  | list {t : Token} (token : t.At d line) (rows : t.listRows.At d line) : Fits d line (.list t)
  | alone {t : Token} (token : t.At d line)
      (blank : t.isFence = false → d.hasBlank t.first = true → t.first ≠ line) :
      Fits d line (.alone t)

section

variable {d : Document} {line : Nat} {t : Token} {m : Move} {ms : List Move} {rs : List Rows}
  {cap : Value}

/-! ## Runs over rows -/

section

variable {P Q : Rows → Prop}

/-- What holds of all rows with the property holds of all steps of a run, if it held before. -/
theorem Joins.putAll_all (hms : ∀ m ∈ ms, m.Joins d line P) (hPQ : ∀ r, P r → Q r)
    (hhead : ∀ p ∈ rs.head?, P p) (hrs : ∀ p ∈ rs, Q p) : ∀ p ∈ putAll d line ms rs, Q p := by
  induction ms generalizing rs with
  | nil => exact hrs
  | cons m ms ih =>
    have hgrows := (hms m List.mem_cons_self).grows hhead
    exact ih (fun m hm => hms m (List.mem_cons_of_mem _ hm)) (hgrows.head hhead)
      ((hgrows.mono hPQ).all hrs)

theorem Joins.putAll_ne_nil (hms : ∀ m ∈ ms, m.Joins d line P) (hrs : ∀ p ∈ rs.head?, P p)
    (hne : rs ≠ []) : putAll d line ms rs ≠ [] := by
  induction ms generalizing rs with
  | nil => exact hne
  | cons m ms ih =>
    have hgrows := (hms m List.mem_cons_self).grows hrs
    exact ih (fun m hm => hms m (List.mem_cons_of_mem _ hm)) (hgrows.head hrs) (hgrows.ne_nil hne)

theorem carryOut_cons {site : Site} {chain : Chain} {b : Block} (h : m.block = .ok b) :
    Blocks.carryOut site chain (m :: ms) =
      Blocks.carryOut site (Block.join site chain b) ms := by
  unfold Blocks.carryOut
  rw [List.mapM_cons, h]
  simp only [Failure.ok_bind]
  cases ms.mapM Move.block <;> rfl

/-- Carrying out moves that join by their lines is a run over rows. -/
theorem Joins.carryOut_eq (hms : ∀ m ∈ ms, m.Joins d line P) (hrs : ∀ p ∈ rs.head?, P p) :
    Blocks.carryOut ⟨d, line, cap⟩ (rs.map (Rows.step d)) ms =
      .ok ((putAll d line ms rs).map (Rows.step d)) := by
  induction ms generalizing rs with
  | nil => rfl
  | cons m ms ih =>
    have hm := hms m List.mem_cons_self
    obtain ⟨b, hb, hjoin⟩ := hm.join cap hrs
    rw [carryOut_cons hb, hjoin,
      ih (fun m hm => hms m (List.mem_cons_of_mem _ hm)) ((hm.grows hrs).head hrs)]
    rfl

end

/-! ## Moves that have the line -/

theorem Joins.alone (hname : ∃ s, t.type = .named s) (h : t.Lies d line)
    (hblank : t.isFence = false → d.hasBlank t.first = true → t.first ≠ line) :
    (Move.alone t).Joins d line (Rows.At d line) := by
  have hfirst := h.first_le
  have hlt := h.lt_stop
  constructor
  · intro cap rs hrs
    refine Token.join_alone cap hname h (fun hf _ hb => ?_) (fun p hp => (hrs p hp).proper)
      fun hf p hp _ => Nat.le_trans (h.plainRows_at (hblank hf)).first_le (hrs p hp).le_last
    have hne := hblank hf hb
    omega
  · intro rs hrs
    refine Token.put_grows (fun _ => ⟨h.rows_at, h.markedRows_at⟩) fun hf => ?_
    have hrows := h.plainRows_at (hblank hf)
    exact ⟨hrows, fun p hp _ => ⟨hrows.first_le, (hrs p hp).le_last, (hrs p hp).last_lt⟩⟩

theorem Fits.joins (h : m.Fits d line) : m.Joins d line (Rows.At d line) := by
  cases h with
  | list ht hrows =>
    exact ⟨fun cap _ hrs => Token.join_list cap ht fun p hp => (hrs p hp).proper,
      fun _ => Rows.putList_grows hrows⟩
  | alone ht hblank => exact .alone ht.typed.name ht.toLies hblank

/-- What holds of all rows that have the line holds of all steps of a run, if it held before. -/
theorem putAll_all {Q : Rows → Prop} (hQ : ∀ r : Rows, r.At d line → Q r)
    (hms : ∀ m ∈ ms, m.Fits d line) (hhead : ∀ p ∈ rs.head?, p.At d line) (hrs : ∀ p ∈ rs, Q p) :
    ∀ p ∈ putAll d line ms rs, Q p :=
  Joins.putAll_all (fun m hm => (hms m hm).joins) hQ hhead hrs

theorem putAll_ne_nil (hms : ∀ m ∈ ms, m.Fits d line) (hrs : ∀ p ∈ rs.head?, p.At d line)
    (hne : rs ≠ []) : putAll d line ms rs ≠ [] :=
  Joins.putAll_ne_nil (fun m hm => (hms m hm).joins) hrs hne

theorem carryOut_eq (hms : ∀ m ∈ ms, m.Fits d line) (hrs : ∀ p ∈ rs.head?, p.At d line) :
    Blocks.carryOut ⟨d, line, cap⟩ (rs.map (Rows.step d)) ms =
      .ok ((putAll d line ms rs).map (Rows.step d)) :=
  Joins.carryOut_eq (fun m hm => (hms m hm).joins) hrs

end

/-! ## Which tokens a walk picks -/

/-- The moves are for some of the tokens, in their order, and only lists join as lists. -/
inductive Picks : List Token → List Move → Prop
  | nil (ts : List Token) : Picks ts []
  | skip {t : Token} {ts : List Token} {ms : List Move} (h : Picks ts ms) : Picks (t :: ts) ms
  | list {t : Token} {ts : List Token} {ms : List Move} (isList : t.isList = true)
      (h : Picks ts ms) : Picks (t :: ts) (.list t :: ms)
  | alone {t : Token} {ts : List Token} {ms : List Move} (h : Picks ts ms) :
      Picks (t :: ts) (.alone t :: ms)

section

variable {cap level : Nat} {t : Token} {ts rest : List Token} {ms : List Move}

theorem Picks.mem (h : Picks ts ms) :
    ∀ m ∈ ms, ∃ t ∈ ts, (m = .list t ∧ t.isList = true) ∨ m = .alone t := by
  induction h with
  | nil =>
    intro m hm
    cases hm
  | skip _ ih =>
    intro m hm
    obtain ⟨t, ht, hcase⟩ := ih m hm
    exact ⟨t, List.mem_cons_of_mem _ ht, hcase⟩
  | list hl _ ih =>
    intro m hm
    rcases List.mem_cons.mp hm with rfl | hm
    · exact ⟨_, List.mem_cons_self, Or.inl ⟨rfl, hl⟩⟩
    · obtain ⟨t, ht, hcase⟩ := ih m hm
      exact ⟨t, List.mem_cons_of_mem _ ht, hcase⟩
  | alone _ ih =>
    intro m hm
    rcases List.mem_cons.mp hm with rfl | hm
    · exact ⟨_, List.mem_cons_self, Or.inr rfl⟩
    · obtain ⟨t, ht, hcase⟩ := ih m hm
      exact ⟨t, List.mem_cons_of_mem _ ht, hcase⟩

theorem picks_alone (ts : List Token) : Picks ts (ts.map alone) := by
  induction ts with
  | nil => exact .nil []
  | cons t ts ih => exact .alone ih

theorem walk_whole {cap level n : Int} (ht : t.Labelled) (hn : t.level = .whole n) :
    walk (.whole cap) (.whole level) (t :: rest) =
      if level < cap ∧ t.isList = true then
        if n = level then list t :: walk (.whole cap) (.whole (level + 1)) rest
        else walk (.whole cap) (.whole level) rest
      else if level = cap then [] else (t :: rest).map alone := by
  have hnext : (Numeral.whole level).next = .whole (level + 1) := rfl
  rw [walk, ht.isKey, hn, Value.equals_whole, hnext]
  simp only [Bool.not_true, Bool.and_false, Bool.false_eq_true, if_false, Numeral.lt_whole,
    Numeral.eq_whole, Bool.and_eq_true, decide_eq_true_eq]

theorem walk_cons (ht : t.Typed) : walk (.whole cap) (.whole level) (t :: rest) =
    if level < cap ∧ t.isList = true then
      if t.depth = level then list t :: walk (.whole cap) (.whole (level + 1 : Nat)) rest
      else walk (.whole cap) (.whole level) rest
    else if level = cap then [] else (t :: rest).map alone := by
  rw [walk_whole ht.labelled ht.level_eq]
  simp only [Int.ofNat_lt, Int.natCast_inj, Int.natCast_succ]

theorem walk_item (ht : t.Typed) (hl : t.isList = true) (hdepth : t.depth = level)
    (hlt : level < cap) : walk (.whole cap) (.whole level) (t :: rest) =
      list t :: walk (.whole cap) (.whole (level + 1 : Nat)) rest := by
  rw [walk_cons ht, if_pos ⟨hlt, hl⟩, if_pos hdepth]

/-- A walk picks from tokens of any levels, down to any depth. -/
theorem walk_picks_keyed (cap level : Numeral) (hts : ∀ t ∈ ts, t.type.isKey = true) :
    Picks ts (walk cap level ts) := by
  induction ts generalizing level with
  | nil => exact .nil []
  | cons t rest ih =>
    have hrest : ∀ u ∈ rest, u.type.isKey = true := fun u hu => hts u (List.mem_cons_of_mem _ hu)
    unfold walk
    rw [hts t List.mem_cons_self, Bool.not_true, Bool.and_false, if_neg Bool.false_ne_true]
    split
    · next hcond =>
      split
      · exact .list (Bool.and_eq_true_iff.mp hcond).2 (ih _ hrest)
      · exact .skip (ih _ hrest)
    · split
      · exact .nil _
      · exact picks_alone _

theorem walk_picks (cap level : Nat) (hts : ∀ t ∈ ts, t.Typed) :
    Picks ts (walk (.whole cap) (.whole level) ts) :=
  walk_picks_keyed _ _ fun t ht => (hts t ht).labelled.isKey

theorem walk_eq_nil (hts : ∀ t ∈ ts, t.Typed) : walk (.whole cap) (.whole cap) ts = [] := by
  cases ts with
  | nil => rfl
  | cons t rest =>
    rw [walk_cons (hts t List.mem_cons_self), if_neg fun h => Nat.lt_irrefl _ h.1, if_pos rfl]

/-- Lists of other levels are passed over. -/
theorem walk_eq_alone (hlt : level < cap) (hts : ∀ t ∈ ts, t.Typed)
    (hlevel : ∀ t ∈ ts, t.isList = true → t.depth ≠ level) :
    walk (.whole cap) (.whole level) ts = (ts.dropWhile Token.isList).map alone := by
  induction ts with
  | nil => rfl
  | cons t rest ih =>
    rw [walk_cons (hts t List.mem_cons_self)]
    by_cases hl : t.isList = true
    · rw [if_pos ⟨hlt, hl⟩, if_neg (hlevel t List.mem_cons_self hl),
        List.dropWhile_cons_of_pos hl]
      exact ih (fun u hu => hts u (List.mem_cons_of_mem _ hu))
        fun u hu => hlevel u (List.mem_cons_of_mem _ hu)
    · rw [if_neg fun h => hl h.2, if_neg (by omega), List.dropWhile_cons_of_neg hl]

theorem lists_numeral {cap : Value} {c : Numeral} {n : Int} (hcap : cap.numeral? = some c)
    (hn : t.level = .whole n) : lists cap (t :: rest) = walk c (.whole n) (t :: rest) := by
  simp only [lists, hcap]
  rw [hn]
  rfl

theorem lists_cons (ht : t.Typed) : lists (.whole cap) (t :: rest) =
    walk (.whole cap) (.whole t.depth) (t :: rest) := lists_numeral rfl ht.level_eq

/-- With a list at the top the walk starts with it. -/
theorem mixed_topList (ht : t.Typed) (hl : t.isList = true) (htop : t.depth = 0) (hcap : 1 ≤ cap) :
    mixed (.whole cap) (t :: rest) = list t :: walk (.whole cap) (.whole (1 : Nat)) rest := by
  unfold mixed
  rw [if_pos hl, lists_cons ht, htop, walk_item ht hl htop hcap]

theorem mixed_picks_numeral {cap : Value} {c : Numeral} (hcap : cap.numeral? = some c)
    (hts : ∀ t ∈ ts, t.Labelled) : Picks ts (mixed cap ts) := by
  induction ts with
  | nil => exact .nil []
  | cons t rest ih =>
    unfold mixed
    split
    · obtain ⟨n, hn⟩ := (hts t List.mem_cons_self).level
      rw [lists_numeral hcap hn]
      exact walk_picks_keyed _ _ fun u hu => (hts u hu).isKey
    · exact .alone (ih fun u hu => hts u (List.mem_cons_of_mem _ hu))

theorem mixed_picks_labelled (cap : Int) (hts : ∀ t ∈ ts, t.Labelled) :
    Picks ts (mixed (.whole cap) ts) := mixed_picks_numeral rfl hts

theorem mixed_picks (cap : Nat) (hts : ∀ t ∈ ts, t.Typed) : Picks ts (mixed (.whole cap) ts) :=
  mixed_picks_labelled cap fun t ht => (hts t ht).labelled

theorem all_seeded (cap : Value) (ts : List Token) : all cap true ts = mixed cap ts := by
  cases ts <;> rfl

end

end Move

/-! ## The chain of a position -/

theorem ParserShaped.sectioned {d : Document} {tokens : List Token} {outline : List Heading}
    (hp : ParserShaped d tokens) (ho : Outline.ofTokens d tokens = .ok outline) :
    Outline.Sectioned d outline := by
  obtain ⟨outline', ho', hs, -⟩ := Outline.ofTokens_sectioned hp.typed hp.headings
  obtain rfl : outline = outline' := Except.ok.inj (ho.symm.trans ho')
  exact hs

/-- The chain of a position is that of its blocks, or that of its headings if there is no block. -/
theorem Selection.chain_of_blocks {s : Selection} {p : Position} {headings c : Chain}
    (hheadings : Headings.chain s.document s.outline p = .ok headings)
    (hc : Blocks.chain (s.site p) s.tokens headings = .ok c) :
    s.chain p = .ok (if c.isEmpty then headings else c) := by
  unfold Selection.chain
  rw [hheadings, Failure.ok_bind, hc]
  rfl

/-- The chain of a position comes from the rows of the headings around it by the moves for the
blocks around it. -/
theorem Selection.chain_of_run {d : Document} {tokens ts : List Token} {outline : List Heading}
    {cap : Numeral} {p : Position} {rs : List Rows} (hs : Outline.Sectioned d outline)
    (hts : Token.around id p.line tokens = .ok ts)
    (hrun : Blocks.carryOut ⟨d, p.line, .ofNumeral cap⟩
      ((Headings.rowsAround outline p.line).map (Rows.step d))
      (Move.all (.ofNumeral cap) (!(Headings.rowsAround outline p.line).isEmpty) ts) =
        .ok (rs.map (Rows.step d)))
    (hne : Headings.rowsAround outline p.line ≠ [] → rs ≠ []) :
    Selection.chain ⟨d, tokens, outline, cap⟩ p = .ok (rs.map (Rows.step d)) := by
  have hheadings := Headings.chain_eq hs p
  cases ts with
  | nil =>
    have hblocks : Blocks.chain ⟨d, p.line, .ofNumeral cap⟩ tokens
        ((Headings.rowsAround outline p.line).map (Rows.step d)) = .ok [] := by
      unfold Blocks.chain
      simp only [hts]
    exact (chain_of_blocks (s := ⟨d, tokens, outline, cap⟩) hheadings hblocks).trans hrun
  | cons t rest =>
    have hseed : ((Headings.rowsAround outline p.line).map (Rows.step d)).isEmpty =
        (Headings.rowsAround outline p.line).isEmpty := List.isEmpty_map
    have hblocks : Blocks.chain ⟨d, p.line, .ofNumeral cap⟩ tokens
        ((Headings.rowsAround outline p.line).map (Rows.step d)) = .ok (rs.map (Rows.step d)) := by
      unfold Blocks.chain
      simp only [hts, hseed]
      exact hrun
    refine (chain_of_blocks (s := ⟨d, tokens, outline, cap⟩) hheadings hblocks).trans ?_
    cases rs with
    | cons r rs => rfl
    | nil =>
      have hnil : Headings.rowsAround outline p.line = [] := by
        by_contra hnot
        exact hne hnot rfl
      rw [hnil]
      rfl

theorem Selection.chain_eq {d : Document} {tokens : List Token} {outline : List Heading} {cap : Nat}
    {p : Position} {rs : List Rows} (hp : ParserShaped d tokens)
    (ho : Outline.ofTokens d tokens = .ok outline)
    (hrun : Blocks.carryOut ⟨d, p.line, .whole cap⟩
      ((Headings.rowsAround outline p.line).map (Rows.step d))
      (Move.all (.whole cap) (!(Headings.rowsAround outline p.line).isEmpty)
        (tokens.filter (Token.encloses p.line))) = .ok (rs.map (Rows.step d)))
    (hne : Headings.rowsAround outline p.line ≠ [] → rs ≠ []) :
    Selection.chain ⟨d, tokens, outline, .whole cap⟩ p = .ok (rs.map (Rows.step d)) :=
  chain_of_run (hp.sectioned ho) hp.around_eq hrun hne

namespace Selection

/-- A heading with a list of two items. -/
def topList : Document := .ofText "# H\n- a\n- b" "u" "markdown" (.whole 1) "h"

def topListTokens : List Token :=
  [⟨"heading_open", 0, 0, 1, "h1"⟩, ⟨"bullet_list_open", 0, 1, 3, "ul"⟩,
    ⟨"list_item_open", 1, 1, 2, "li"⟩, ⟨"paragraph_open", 2, 1, 2, "p"⟩,
    ⟨"list_item_open", 1, 2, 3, "li"⟩, ⟨"paragraph_open", 2, 2, 3, "p"⟩].map Token.Sketch.token

def topListOutline : List Heading :=
  [⟨1, .whole 0, "", "section", .between ⟨0, 0⟩ ⟨2, 3⟩⟩]

theorem topList_shaped : ParserShaped topList topListTokens :=
  .of_sketches (by decide) (by decide) (by decide)
    (.of_lines [0] rfl (by decide) (by decide))

end Selection

end Concentric
