import Concentric.Proofs.ListWalk

/-! Caps on the depth of lists. Each move of a walk ends the chain further inwards, or where it ended
before, and a walk to a lower cap makes the first moves of one to a higher cap. So raising the cap
only refines the innermost range, except for lists that start deeper than the lower cap and not
deeper than the higher one. A walk that starts deeper than its cap does not end but puts all blocks
into the chain, and one that starts at its cap puts in none: there raising the cap coarsens. -/

namespace Concentric

namespace Chain

/-- The span of the innermost step. -/
def innermost? (c : Chain) : Option Span := c.head?.map (·.span)

/-- Where the other chain has an innermost span, the chain has one that lies within it. -/
def Refines (c outer : Chain) : Prop :=
  ∀ s ∈ outer.innermost?, ∃ s' ∈ c.innermost?, s.contains s' = true

instance (c outer : Chain) : Decidable (c.Refines outer) :=
  inferInstanceAs (Decidable (∀ s ∈ outer.innermost?, ∃ s' ∈ c.innermost?, _ = true))

variable {c c' : Chain}

theorem Refines.of_eq (h : c.innermost? = c'.innermost?) : c.Refines c' := by
  intro s hs
  exact ⟨s, h ▸ hs, s.contains_refl⟩

theorem Refines.mem_of_both (h : c.Refines c') (h' : c'.Refines c) :
    ∀ s ∈ c'.innermost?, s ∈ c.innermost? := by
  intro s hs
  obtain ⟨s', hs', hcontains⟩ := h s hs
  obtain ⟨s'', hs'', hcontains'⟩ := h' s' hs'
  obtain rfl : s = s'' := Option.some.inj (hs.symm.trans hs'')
  exact Span.contains_antisymm hcontains hcontains' ▸ hs'

theorem Refines.antisymm (h : c.Refines c') (h' : c'.Refines c) :
    c.innermost? = c'.innermost? :=
  Option.ext fun s => ⟨h'.mem_of_both h s, h.mem_of_both h' s⟩

theorem innermost_addInner (c : Chain) (s : Span) : (c.addInner s).innermost? = some s := by
  unfold addInner
  split
  · assumption
  · rfl

/-- Of two chains that end where spans going inwards end, one refines the other if each span of the
other has one of its spans in it. -/
theorem Refines.of_inwards {ss ss' : List Span} (hc : c.innermost? = ss.getLast?)
    (hc' : c'.innermost? = ss'.getLast?)
    (hinwards : ss.Pairwise fun s s' => s.contains s' = true)
    (hcover : ∀ s' ∈ ss', ∃ s ∈ ss, s'.contains s = true) : c.Refines c' := by
  intro s' hs'
  obtain ⟨s, hs, hcontains⟩ := hcover s' (List.mem_of_getLast? (hc' ▸ hs'))
  have hlast := hinwards.rel_getLast_of_rel_getLast_getLast hs (Span.contains_refl _)
  refine ⟨_, ?_, Span.contains_trans hcontains hlast⟩
  rw [hc]
  exact List.getLast?_eq_some_getLast _

end Chain

/-! ## Where a move ends -/

namespace Token

variable {d : Document} {line : Nat} {t : Token} {l : LineRange} {c : Chain}

theorem layers_ne_nil (t : Token) (line : Nat) : t.layers line ≠ [] := by
  unfold layers
  split
  · exact List.cons_ne_nil _ _
  · split <;> exact List.cons_ne_nil _ _

/-- The innermost lines that a block adds around a line. -/
def core (line : Nat) (t : Token) : Rows := (t.layers line).getLast (t.layers_ne_nil line)

theorem core_of_plain (h : t.isFence = false ∧ t.isPair = false) : t.core line = t.rows := by
  simp only [core, layers_of_plain h, List.getLast_singleton]

theorem Lies.contains_core (h : t.Lies d line) :
    (t.rows.span d).contains ((t.core line).span d) = true := by
  have hcore : t.core line ∈ t.layers line := List.getLast_mem _
  exact (Rows.contains_span_iff (h.layers_at _ hcore).proper h.rows_at.proper).mpr
    (h.layers_within _ hcore)

/-- A block on its own that lies within the innermost step ends the chain with its core. -/
theorem Lies.joinAlone_innermost (cap : Value) (h : t.Lies d line) (hl : t.lines? = some l)
    (hstart : d.hasBlank t.first = false)
    (hin : ∀ p ∈ c.head?, p.span.contains (t.rows.span d) = true) :
    (Block.joinAlone ⟨d, line, cap⟩ ⟨false, t.type, t.level, l⟩ c).innermost? =
      some ((t.core line).span d) := by
  rw [h.joinAlone_inner cap hl hstart hin, ← List.dropLast_append_getLast (t.layers_ne_nil line),
    List.map_append, List.foldl_append]
  exact Chain.innermost_addInner _ _

end Token

/-! ## Walks to two caps -/

namespace Move

variable {cap cap' level : Int} {ts : List Token} {ms : List Move} {d : Document} {line : Nat}

/-- A walk that starts deeper than its cap has all blocks on their own. -/
theorem walk_beyond (hlevel : cap < level) (hts : ∀ t ∈ ts, t.Labelled) :
    walk (.whole cap) (.whole level) ts = ts.map alone := by
  cases ts with
  | nil => rfl
  | cons t rest =>
    obtain ⟨n, hn⟩ := (hts t List.mem_cons_self).level
    rw [walk_whole (hts t List.mem_cons_self) hn, if_neg fun h => by omega, if_neg (by omega)]

/-- A walk to a cap makes the first moves of one to a higher cap. -/
theorem walk_first_moves (hcap : cap ≤ cap') (hlevel : level ≤ cap) (hts : ∀ t ∈ ts, t.Labelled) :
    walk (.whole cap) (.whole level) ts <+: walk (.whole cap') (.whole level) ts := by
  induction ts generalizing level with
  | nil => exact List.prefix_rfl
  | cons t rest ih =>
    have hrest : ∀ t ∈ rest, t.Labelled := fun u hu => hts u (List.mem_cons_of_mem _ hu)
    obtain ⟨n, hn⟩ := (hts t List.mem_cons_self).level
    rw [walk_whole (hts t List.mem_cons_self) hn, walk_whole (hts t List.mem_cons_self) hn]
    rcases Int.lt_or_eq_of_le hlevel with hbelow | rfl
    · have hbelow' : level < cap' := Int.lt_of_lt_of_le hbelow hcap
      simp only [hbelow, hbelow', Int.ne_of_lt, true_and, if_false]
      split
      · split
        · exact List.cons_prefix_cons.mpr ⟨rfl, ih hbelow hrest⟩
        · exact ih hlevel hrest
      · exact List.prefix_rfl
    · rw [if_neg fun h => Int.lt_irrefl _ h.1, if_pos rfl]
      exact List.nil_prefix

/-- The span at which a chain ends when the move is made. -/
def span? (d : Document) (line : Nat) : Move → Option Span
  | list t => some (t.rows.span d)
  | alone t => some ((t.core line).span d)
  | stuck => none

/-- Moves for blocks end between the lines of a block and its core. -/
theorem Picks.between (hl : Layered d line ts) (h : Picks ts ms) :
    ∀ s ∈ ms.filterMap (span? d line), ∃ t ∈ ts, (t.rows.span d).contains s = true ∧
      s.contains ((t.core line).span d) = true := by
  intro s hs
  obtain ⟨m, hm, hspan⟩ := List.mem_filterMap.mp hs
  obtain ⟨t, ht, ⟨rfl, -⟩ | rfl⟩ := h.mem m hm
  · obtain rfl := Option.some.inj hspan
    exact ⟨t, ht, Span.contains_refl _, (hl.lies t ht).contains_core⟩
  · obtain rfl := Option.some.inj hspan
    exact ⟨t, ht, (hl.lies t ht).contains_core, Span.contains_refl _⟩

theorem Picks.inwards (hl : Layered d line ts) (h : Picks ts ms) :
    (ms.filterMap (span? d line)).Pairwise fun s s' => s.contains s' = true := by
  induction h with
  | nil => exact .nil
  | skip _ ih => exact ih hl.tail
  | @list t ts ms _ h ih =>
    refine .cons (fun s hs => ?_) (ih hl.tail)
    obtain ⟨u, hu, hcontains, -⟩ := h.between hl.tail s hs
    exact Span.contains_trans (Blocks.span_contains hl u hu) hcontains
  | @alone t ts ms h ih =>
    refine .cons (fun s hs => ?_) (ih hl.tail)
    obtain ⟨u, hu, hcontains, -⟩ := h.between hl.tail s hs
    rcases hl.plain_or_last with hplain | rfl
    · rw [Token.core_of_plain hplain]
      exact Span.contains_trans (Blocks.span_contains hl u hu) hcontains
    · cases hu

end Move

namespace Blocks

open Move

variable {d : Document} {line : Nat} {t : Token} {ts : List Token} {ms : List Move}
  {c c' seed : Chain}

/-- Where a chain ends, at first and after each of the moves. -/
def trail (d : Document) (line : Nat) (c : Chain) (ms : List Move) : List Span :=
  c.innermost?.toList ++ ms.filterMap (Move.span? d line)

theorem trail_next {m : Move} {s : Span} (hm : m.span? d line = some s)
    (hc : c'.innermost? = some s) :
    (trail d line c' ms).getLast? = (trail d line c (m :: ms)).getLast? := by
  unfold trail
  rw [hc, List.filterMap_cons_some hm, List.getLast?_append_cons]
  rfl

theorem trail_inwards (hl : Layered d line ts) (h : Picks ts ms)
    (hin : ∀ t ∈ ts, ∀ p ∈ c.head?, p.span.contains (t.rows.span d) = true) :
    (trail d line c ms).Pairwise fun s s' => s.contains s' = true := by
  refine List.pairwise_append.mpr ⟨?_, h.inwards hl, fun s hs s' hs' => ?_⟩
  · cases c with
    | nil => exact .nil
    | cons p outer => exact List.pairwise_singleton _ _
  · obtain ⟨t, ht, hcontains, -⟩ := h.between hl s' hs'
    obtain ⟨p, hp, rfl⟩ := Option.map_eq_some_iff.mp (Option.mem_toList.mp hs)
    exact Span.contains_trans (hin t ht p hp) hcontains

/-- Carrying out moves for blocks within the innermost step ends where their trail ends. -/
theorem carryOut_innermost (cap : Value) (hl : Layered d line ts) (hpicks : Picks ts ms)
    (hlists : ∀ t, .list t ∈ ms → t.level.isNumber 0 = false)
    (hin : ∀ t ∈ ts, ∀ p ∈ c.head?, p.span.contains (t.rows.span d) = true) :
    ∃ c', carryOut ⟨d, line, cap⟩ c ms = .ok c' ∧
      c'.innermost? = (trail d line c ms).getLast? := by
  induction hpicks generalizing c with
  | nil =>
    refine ⟨c, rfl, ?_⟩
    cases c <;> rfl
  | skip _ ih => exact ih hl.tail hlists fun t ht => hin t (List.mem_cons_of_mem _ ht)
  | @list t ts ms _ _ ih =>
    have ht := hl.lies t List.mem_cons_self
    obtain ⟨l, hlines, -⟩ := ht.lines
    obtain ⟨outer, hjoin, -⟩ :=
      ht.joinList_eq cap hlines (hlists t List.mem_cons_self) c
    rw [Move.carryOut_cons (Token.block_list t hlines)]
    show ∃ c', carryOut _ (Block.joinList _ _ c) ms = _ ∧ _
    rw [hjoin]
    obtain ⟨c', hc', hlast⟩ := ih (c := .fresh (t.rows.span d) :: outer) hl.tail
      (fun u hu => hlists u (List.mem_cons_of_mem _ hu)) fun u hu p hp => by
        obtain rfl := Option.mem_some.mp hp
        exact span_contains hl u hu
    exact ⟨c', hc', hlast.trans (trail_next rfl rfl)⟩
  | @alone t ts ms _ ih =>
    have ht := hl.lies t List.mem_cons_self
    obtain ⟨l, hlines, -⟩ := ht.lines
    have hcore := ht.joinAlone_innermost cap hlines (hl.starts t List.mem_cons_self)
      (hin t List.mem_cons_self)
    rw [Move.carryOut_cons (Token.block_alone (hl.labelled t List.mem_cons_self).name hlines)]
    obtain ⟨c', hc', hlast⟩ := ih hl.tail
      (fun u hu => hlists u (List.mem_cons_of_mem _ hu)) fun u hu p hp => by
        have hp' : p.span = (t.core line).span d :=
          Option.some.inj ((Option.map_eq_some_iff.mpr ⟨p, hp, rfl⟩).symm.trans hcore)
        rcases hl.plain_or_last with hplain | rfl
        · rw [hp', Token.core_of_plain hplain]
          exact span_contains hl u hu
        · cases hu
    exact ⟨c', hc', hlast.trans (trail_next rfl hcore)⟩

/-- Blocks within the innermost step that start below the top are walked down to any cap without a
failure, and the chain ends where the trail of the walk ends, which goes inwards. -/
theorem ofLists_innermost {n : Int} (cap : Int) (hl : Layered d line (t :: ts))
    (hlevel : t.level = .whole n) (hn : 1 ≤ n)
    (hin : ∀ p ∈ seed.head?, p.span.contains (t.rows.span d) = true) :
    ∃ c, ofLists ⟨d, line, .whole cap⟩ (t :: ts) seed = .ok c ∧
      c.innermost? = (trail d line seed (walk (.whole cap) (.whole n) (t :: ts))).getLast? ∧
      (trail d line seed (walk (.whole cap) (.whole n) (t :: ts))).Pairwise
        fun s s' => s.contains s' = true := by
  have hpicks : Picks (t :: ts) (walk (.whole cap) (.whole n) (t :: ts)) :=
    walk_picks_keyed _ _ fun u hu => (hl.labelled u hu).isKey
  obtain ⟨c, hc, hlast⟩ := carryOut_innermost (.whole cap) hl hpicks
    (walk_list_level hn hl.labelled) (head_contains hl hin)
  refine ⟨c, ?_, hlast, trail_inwards hl hpicks (head_contains hl hin)⟩
  show carryOut _ seed (Move.lists (.whole cap) (t :: ts)) = _
  rw [Move.lists_numeral rfl hlevel]
  exact hc

/-- The trail of a walk to a lower cap that does not start deeper is part of that to a higher one. -/
theorem trail_subset {n cap cap' : Int} (hcap : cap ≤ cap') (hn : n ≤ cap)
    (hl : Layered d line ts) (c : Chain) : trail d line c (walk (.whole cap) (.whole n) ts) ⊆
      trail d line c (walk (.whole cap') (.whole n) ts) := by
  have hfirst := (walk_first_moves hcap hn hl.labelled).filterMap (Move.span? d line)
  exact ((List.prefix_append_right_inj _).mpr hfirst).subset

/-- Each span of the trail of moves has one of the trail of all blocks on their own in it. -/
theorem trail_covers_alone (hl : Layered d line ts) (h : Picks ts ms) :
    ∀ s ∈ trail d line c ms, ∃ s' ∈ trail d line c (ts.map .alone), s.contains s' = true := by
  intro s hs
  rcases List.mem_append.mp hs with hs | hs
  · exact ⟨s, List.mem_append_left _ hs, Span.contains_refl _⟩
  · obtain ⟨t, ht, -, hcore⟩ := h.between hl s hs
    refine ⟨_, List.mem_append_right _ ?_, hcore⟩
    exact List.mem_filterMap.mpr ⟨.alone t, List.mem_map_of_mem ht, rfl⟩

/-- Blocks around a line that start below the top, and whose lines lie within the innermost step of
a chain, are walked down to each of two caps without a failure. The walk to the higher cap refines
the innermost range if the blocks do not start deeper than the lower cap, or start deeper than both.
Otherwise it is the walk to the lower cap that refines it, and both do only if they end in the same
range. -/
theorem ofLists_refines_iff {n cap cap' : Int} (hcap : cap ≤ cap') (hl : Layered d line (t :: ts))
    (hlevel : t.level = .whole n) (hn : 1 ≤ n)
    (hin : ∀ p ∈ seed.head?, p.span.contains (t.rows.span d) = true) :
    ∃ outer inner, ofLists ⟨d, line, .whole cap⟩ (t :: ts) seed = .ok outer ∧
      ofLists ⟨d, line, .whole cap'⟩ (t :: ts) seed = .ok inner ∧
      (inner.Refines outer ↔ n ≤ cap ∨ cap' < n ∨ inner.innermost? = outer.innermost?) ∧
      (cap < n → outer.Refines inner) := by
  obtain ⟨outer, houter, hlast, hinwards⟩ := ofLists_innermost cap hl hlevel hn hin
  obtain ⟨inner, hinner, hlast', hinwards'⟩ := ofLists_innermost cap' hl hlevel hn hin
  have hforward : n ≤ cap → inner.Refines outer := fun hle =>
    .of_inwards hlast' hlast hinwards' fun s hs =>
      ⟨s, trail_subset hcap hle hl seed hs, Span.contains_refl _⟩
  have hback : cap < n → outer.Refines inner := fun hlt => by
    rw [walk_beyond hlt hl.labelled] at hlast hinwards
    refine .of_inwards hlast hlast' hinwards (trail_covers_alone hl ?_)
    exact walk_picks_keyed _ _ fun u hu => (hl.labelled u hu).isKey
  have hbeyond : cap' < n → inner.Refines outer := fun hlt => .of_eq <| by
    rw [hlast, hlast', walk_beyond hlt hl.labelled,
      walk_beyond (Int.lt_of_le_of_lt hcap hlt) hl.labelled]
  refine ⟨outer, inner, houter, hinner, ⟨fun hrefines => ?_, ?_⟩, hback⟩
  · by_cases hle : n ≤ cap
    · exact Or.inl hle
    · exact Or.inr (Or.inr (hrefines.antisymm (hback (Int.not_le.mp hle))))
  · rintro (hle | hlt | hsame)
    · exact hforward hle
    · exact hbeyond hlt
    · exact .of_eq hsame

/-- Capped at the third level, the walk ends with the outer item; at the fifth, with the inner one. -/
theorem nestedList_refines : ∃ outer inner,
    ofLists ⟨nestedList, 2, .whole 3⟩ nestedListBlocks nestedListSeed = .ok outer ∧
    ofLists ⟨nestedList, 2, .whole 5⟩ nestedListBlocks nestedListSeed = .ok inner ∧
    outer.innermost? = some (Rows.span nestedList ⟨1, 3⟩) ∧
    inner.innermost? = some (Rows.span nestedList ⟨2, 2⟩) ∧ inner.Refines outer := by
  have hin : ∀ p ∈ nestedListSeed.head?, p.span.contains (Rows.span nestedList ⟨1, 4⟩) = true := by
    decide
  obtain ⟨outer, inner, houter, hinner, hrefines, -⟩ :=
    ofLists_refines_iff (show (3 : Int) ≤ 5 by decide) nestedList_layered rfl (by decide) hin
  refine ⟨outer, inner, houter, hinner, ?_, ?_, hrefines.mpr (Or.inl (by decide))⟩
  · exact Except.ok.inj ((congrArg (Except.map Chain.innermost?) houter).symm.trans rfl)
  · exact Except.ok.inj ((congrArg (Except.map Chain.innermost?) hinner).symm.trans rfl)

/-- A list of two items in two quotations. -/
def quotedList : Document := .ofText "> > - a\n> > - b" "u" "markdown" (.whole 1) "h"

def quotedListBlocks : List Token :=
  [⟨"bullet_list_open", 2, 0, 2, "ul"⟩, ⟨"list_item_open", 3, 0, 1, "li"⟩,
    ⟨"paragraph_open", 4, 0, 1, "p"⟩].map Token.Sketch.token

def quotedListSeed : Chain := [⟨Rows.span quotedList ⟨0, 1⟩, some 0⟩]

theorem quotedList_layered : Layered quotedList 0 quotedListBlocks := by
  have hu : Undivided quotedList [] quotedListBlocks :=
    ⟨fun t ht => (Token.typed_of_sketches _ t ht).labelled, by decide, by decide, by decide,
      by decide, by decide⟩
  have hts : Token.around id 0 quotedListBlocks = .ok quotedListBlocks :=
    Token.around_of_pairwise (by decide) (by decide)
  exact hu.layered hts

/-- A walk that starts one level deeper than its cap comes down to the item, but with the cap at that
level it leaves the quotation as it is. -/
theorem quotedList_not_refined : Layered quotedList 0 quotedListBlocks ∧
    quotedListSeed.StrictlyNested ∧
    (∀ p ∈ quotedListSeed.head?, p.span.contains (Rows.span quotedList ⟨0, 1⟩) = true) ∧
    ∃ outer inner, ofLists ⟨quotedList, 0, .whole 1⟩ quotedListBlocks quotedListSeed = .ok outer ∧
      ofLists ⟨quotedList, 0, .whole 2⟩ quotedListBlocks quotedListSeed = .ok inner ∧
      outer.innermost? = some (Rows.span quotedList ⟨0, 0⟩) ∧
      inner.innermost? = some (Rows.span quotedList ⟨0, 1⟩) ∧ ¬ inner.Refines outer :=
  ⟨quotedList_layered, by decide, by decide, _, _, rfl, rfl, rfl, rfl, by decide⟩

end Blocks

end Concentric
