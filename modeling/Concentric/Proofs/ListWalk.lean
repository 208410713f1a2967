import Concentric.Proofs.Expansion
import Concentric.Proofs.HeadingsKept

/-! Walks down nested lists. Below the top a list has all its lines, so that whatever a walk puts
into a chain lies within the innermost step: it is put inside of that step, or takes its place where
the two end together. Either way the chain stays strictly nested, down through all levels and on
through the blocks that follow the lists. The steps of the chain may be any spans, not only those of
whole lines. -/

namespace Concentric

/-! ## Spans and strict nesting -/

namespace Span

variable {s t u : Span}

/-- The line is one of those that the span touches. -/
def HasLine (line : Nat) (s : Span) : Prop := s.start.line ≤ line ∧ line ≤ s.stop.line

theorem contains_refl (s : Span) : s.contains s = true :=
  contains_iff.mpr ⟨Position.le_refl _, Position.le_refl _⟩

theorem contains_trans (h : u.contains t = true) (h' : t.contains s = true) :
    u.contains s = true := by
  rw [contains_iff] at *
  exact ⟨Position.le_trans h.1 h'.1, Position.le_trans h'.2 h.2⟩

theorem contains_antisymm (h : s.contains t = true) (h' : t.contains s = true) : s = t := by
  rw [contains_iff] at *
  exact Span.ext (Position.le_antisymm h.1 h'.1) (Position.le_antisymm h'.2 h.2)

end Span

theorem Rows.At.hasLine {d : Document} {line : Nat} {r : Rows} (h : r.At d line) :
    (r.span d).HasLine line := by
  unfold Span.HasLine
  rw [h.proper.start_eq, h.proper.stop_line]
  exact ⟨h.first_le, h.le_last⟩

namespace Chain

variable {seed c outer : Chain} {p : Step} {s : Span} {line : Nat}

theorem StrictlyNested.push (h : StrictlyNested (p :: outer)) (hin : p.span.contains s = true)
    (hne : p.span ≠ s) : StrictlyNested (.fresh s :: p :: outer) :=
  List.isChain_cons_cons.mpr ⟨⟨hin, hne⟩, h⟩

/-- What lies within the innermost step may take its place. -/
theorem StrictlyNested.replace (h : StrictlyNested (p :: outer)) (hin : p.span.contains s = true) :
    StrictlyNested (.fresh s :: outer) := by
  cases outer with
  | nil => exact .singleton _
  | cons q outer =>
    obtain ⟨⟨hcontains, hne⟩, hrest⟩ := List.isChain_cons_cons.mp h
    have hnested : StrictlyNested (q :: outer) := hrest
    refine hnested.push (Span.contains_trans hcontains hin) fun hsame => hne ?_
    exact Span.contains_antisymm hcontains (hsame ▸ hin)

/-- The chain is strictly nested, and the steps that it has on top of the seed have the line. -/
structure Deepened (c seed : Chain) (line : Nat) : Prop where
  nested : c.StrictlyNested
  grown : c.GrownWith (Span.HasLine line) seed

namespace Deepened

theorem push (h : Deepened (p :: outer) seed line) (hs : s.HasLine line)
    (hin : p.span.contains s = true) (hne : p.span ≠ s) :
    Deepened (.fresh s :: p :: outer) seed line :=
  ⟨h.nested.push hin hne, h.grown.push hs⟩

theorem replace (h : Deepened (p :: outer) seed line) (hs : s.HasLine line)
    (hin : p.span.contains s = true) : Deepened (.fresh s :: outer) seed line :=
  ⟨h.nested.replace hin, h.grown.replace hs⟩

theorem singleton (h : Deepened [] seed line) (hs : s.HasLine line) :
    Deepened [.fresh s] seed line :=
  ⟨.singleton _, h.grown.push hs⟩

theorem addInner (h : c.Deepened seed line) (hs : s.HasLine line)
    (hin : ∀ p ∈ c.head?, p.span.contains s = true) :
    (c.addInner s).Deepened seed line ∧ ∀ p ∈ (c.addInner s).head?, p.span = s := by
  unfold Chain.addInner
  split
  · next hsame =>
    refine ⟨h, fun p hp => ?_⟩
    rw [Option.mem_def.mp hp] at hsame
    exact Option.some.inj hsame
  · next hnew =>
    refine ⟨?_, fun p hp => Option.mem_some.mp hp ▸ rfl⟩
    cases c with
    | nil => exact h.singleton hs
    | cons p outer => exact h.push hs (hin p rfl) fun hsame => hnew (congrArg some hsame)

/-- Rows that lie one within the other are put into a chain that has them within its innermost
step. -/
theorem foldl_addInner {d : Document} {qs : List Rows} (h : c.Deepened seed line)
    (hat : ∀ q ∈ qs, q.At d line) (hqs : qs.Pairwise fun q q' => q'.Within q)
    (hin : ∀ q ∈ qs, ∀ p ∈ c.head?, p.span.contains (q.span d) = true) :
    ((qs.map (Rows.span d)).foldl Chain.addInner c).Deepened seed line := by
  induction qs generalizing c with
  | nil => exact h
  | cons q qs ih =>
    obtain ⟨hq, hrest⟩ := List.forall_mem_cons.mp hat
    obtain ⟨hbelow, hqs⟩ := List.pairwise_cons.mp hqs
    obtain ⟨hnext, hhead⟩ := h.addInner hq.hasLine (hin q List.mem_cons_self)
    refine ih hnext hrest hqs fun q' hq' p hp => ?_
    rw [hhead p hp, Rows.contains_span_iff (hrest q' hq').proper hq.proper]
    exact hbelow q' hq'

end Deepened

end Chain

/-! ## Joins within the innermost step -/

namespace Relation

theorem classify_of_contains {s p : Span} (h : p.contains s = true) :
    classify s p = if p = s then .equal else .contains := by
  unfold classify
  rw [if_pos h]

end Relation

namespace Block

variable {c : Chain} {s : Span}

theorem joinPlain_eq_addInner (hin : ∀ p ∈ c.head?, p.span.contains s = true) :
    joinPlain s c = c.addInner s := by
  cases c with
  | nil => rfl
  | cons p outer =>
    simp only [joinPlain, Relation.classify_of_contains (hin p rfl), Chain.addInner,
      List.head?_cons, Option.map_some, Option.some_inj]
    by_cases hsame : p.span = s
    · simp only [hsame, if_true]
    · simp only [hsame, if_false]

theorem joinFence_eq_addInner {content : Option Span}
    (hin : ∀ p ∈ c.head?, p.span.contains s = true) (hcontent : ∀ t ∈ content, t ≠ s) :
    joinFence s content c = (s :: content.toList).foldl Chain.addInner c := by
  -- the content is never there already once the fence is
  have hinner : ∀ p : Step, ∀ outer : Chain, p.span = s →
      content.toList.foldl Chain.addInner (p :: outer) =
        (content.map Step.fresh).toList ++ p :: outer := by
    intro p outer hp
    cases content with
    | none => rfl
    | some t =>
      have hne : ¬ some p.span = some t := fun h =>
        hcontent t rfl ((Option.some.inj h).symm.trans hp)
      exact if_neg hne
  rw [List.foldl_cons]
  cases c with
  | nil =>
    show _ = content.toList.foldl Chain.addInner [.fresh s]
    rw [hinner (.fresh s) [] rfl]
    cases content <;> rfl
  | cons p outer =>
    have hrel := Relation.classify_of_contains (hin p rfl)
    by_cases hsame : p.span = s
    · have hadd : Chain.addInner (p :: outer) s = p :: outer := if_pos (congrArg some hsame)
      rw [if_pos hsame] at hrel
      rw [hadd, hinner p outer hsame]
      cases content <;> simp only [joinFence, hrel] <;> rfl
    · have hadd : Chain.addInner (p :: outer) s = .fresh s :: p :: outer :=
        if_neg fun h => hsame (Option.some.inj h)
      rw [if_neg hsame] at hrel
      rw [hadd, hinner (.fresh s) (p :: outer) rfl]
      cases content <;> simp only [joinFence, hrel] <;> rfl

end Block

namespace Token

variable {d : Document} {line : Nat} {t : Token} {l : LineRange} {c seed : Chain}

/-- A block that starts with text and lies within the innermost step adds its layers. -/
theorem Lies.joinAlone_inner (cap : Value) (h : t.Lies d line) (hl : t.lines? = some l)
    (hstart : d.hasBlank t.first = false)
    (hin : ∀ p ∈ c.head?, p.span.contains (t.rows.span d) = true) :
    Block.joinAlone ⟨d, line, cap⟩ ⟨false, t.type, t.level, l⟩ c =
      ((t.layers line).map (Rows.span d)).foldl Chain.addInner c := by
  rw [h.joinAlone_eq cap hl hstart, layers]
  split
  · rw [List.map_cons, ← Option.toList_map]
    refine Block.joinFence_eq_addInner hin fun s hs hsame => ?_
    obtain ⟨q, hq, rfl⟩ := Option.map_eq_some_iff.mp hs
    have hproper := (h.markedRows_at q hq).proper
    exact (t.markedRows_inside line q hq).2 ((Rows.span_inj hproper h.rows_at.proper).mp hsame)
  · split
    · refine Block.joinPlain_eq_addInner fun p hp => Span.contains_trans (hin p hp) ?_
      exact (Rows.contains_span_iff h.line_proper h.rows_at.proper).mpr h.pair_within
    · exact Block.joinPlain_eq_addInner hin

/-- A list below the top is put on top of a chain with all its lines, or takes the place of the
innermost step; one with the lines of that step takes its place. -/
theorem Lies.joinList_eq (cap : Value) (h : t.Lies d line) (hl : t.lines? = some l)
    (hlevel : t.level.isNumber 0 = false) (c : Chain) :
    ∃ outer, Block.joinList ⟨d, line, cap⟩ ⟨true, t.type, t.level, l⟩ c =
        .fresh (t.rows.span d) :: outer ∧
      (outer = c ∧ (∀ p ∈ c.head?, p.span ≠ t.rows.span d) ∨ outer = c.tail) := by
  obtain ⟨q, hq, hfirst, -⟩ := h.lines
  obtain rfl : l = q := Option.some.inj (hl.symm.trans hq)
  have hspan : Block.wholeLines ⟨d, line, cap⟩ l.start ↑(t.stop - 1) = t.rows.span d := by
    rw [hfirst]
    rfl
  unfold Block.joinList
  rw [h.listEnd_eq hl, hlevel, if_neg Bool.false_ne_true]
  dsimp only
  rw [hspan]
  cases c with
  | nil => exact ⟨[], rfl, Or.inr rfl⟩
  | cons p outer =>
    dsimp only
    split
    · exact ⟨outer, rfl, Or.inr rfl⟩
    · next hapart =>
      refine ⟨p :: outer, rfl, Or.inl ⟨rfl, fun q hq hsame => hapart ?_⟩⟩
      obtain rfl := Option.mem_some.mp hq
      have hstart : (t.first : Int) - t.first ≤ 1 := by omega
      rw [hsame, h.rows_at.proper.start_eq, h.rows_at.proper.stop_line, hfirst]
      exact ⟨hstart, rfl⟩

end Token

namespace Chain.Deepened

variable {d : Document} {line : Nat} {t : Token} {l : LineRange} {c seed : Chain}

theorem joinAlone (cap : Value) (h : c.Deepened seed line) (ht : t.Lies d line)
    (hl : t.lines? = some l) (hstart : d.hasBlank t.first = false)
    (hin : ∀ p ∈ c.head?, p.span.contains (t.rows.span d) = true) :
    (Block.joinAlone ⟨d, line, cap⟩ ⟨false, t.type, t.level, l⟩ c).Deepened seed line ∧
      (t.isFence = false ∧ t.isPair = false →
        ∀ p ∈ (Block.joinAlone ⟨d, line, cap⟩ ⟨false, t.type, t.level, l⟩ c).head?,
          p.span = t.rows.span d) := by
  rw [ht.joinAlone_inner cap hl hstart hin]
  constructor
  · refine h.foldl_addInner ht.layers_at (t.layers_pairwise line) fun q hq p hp => ?_
    refine Span.contains_trans (hin p hp) ?_
    exact (Rows.contains_span_iff (ht.layers_at q hq).proper ht.rows_at.proper).mpr
      (ht.layers_within q hq)
  · intro hplain
    rw [Token.layers_of_plain hplain]
    exact (h.addInner ht.rows_at.hasLine hin).2

/-- A list below the top is put inside of the innermost step, or takes its place. -/
theorem joinList (cap : Value) (h : c.Deepened seed line) (ht : t.Lies d line)
    (hl : t.lines? = some l) (hlevel : t.level.isNumber 0 = false)
    (hin : ∀ p ∈ c.head?, p.span.contains (t.rows.span d) = true) :
    ∃ outer, Block.joinList ⟨d, line, cap⟩ ⟨true, t.type, t.level, l⟩ c =
        .fresh (t.rows.span d) :: outer ∧
      Chain.Deepened (.fresh (t.rows.span d) :: outer) seed line := by
  obtain ⟨outer, hjoin, hplace⟩ := ht.joinList_eq cap hl hlevel c
  refine ⟨outer, hjoin, ?_⟩
  cases c with
  | nil =>
    obtain rfl : outer = [] := hplace.elim And.left id
    exact h.singleton ht.rows_at.hasLine
  | cons p steps =>
    rcases hplace with ⟨rfl, hapart⟩ | rfl
    · exact h.push ht.rows_at.hasLine (hin p rfl) (hapart p rfl)
    · exact h.replace ht.rows_at.hasLine (hin p rfl)

end Chain.Deepened

/-! ## Walks -/

namespace Move

variable {ts : List Token}

/-- From a level below the top a walk comes to lists below the top alone. -/
theorem walk_list_level {cap : Numeral} {level : Int} (hlevel : 1 ≤ level)
    (hts : ∀ t ∈ ts, t.Labelled) :
    ∀ t, .list t ∈ walk cap (.whole level) ts → t.level.isNumber 0 = false := by
  induction ts generalizing level with
  | nil =>
    intro t ht
    cases ht
  | cons u rest ih =>
    have hrest : ∀ t ∈ rest, t.Labelled := fun t ht => hts t (List.mem_cons_of_mem _ ht)
    obtain ⟨hkey, n, hn⟩ : u.type.isKey = true ∧ ∃ n : Int, u.level = .whole n :=
      ⟨(hts u List.mem_cons_self).isKey, (hts u List.mem_cons_self).level⟩
    intro t ht
    unfold walk at ht
    rw [hkey, Bool.not_true, Bool.and_false, if_neg Bool.false_ne_true, hn, Value.equals_whole,
      Numeral.next_whole] at ht
    split at ht
    · split at ht
      · next hsame =>
        rcases List.mem_cons.mp ht with heq | ht
        · obtain rfl := Move.list.inj heq
          rw [hn, Value.isNumber_whole]
          simp only [decide_eq_true_eq, decide_eq_false_iff_not] at hsame ⊢
          omega
        · exact ih (by omega) hrest t ht
      · exact ih hlevel hrest t ht
    · split at ht
      · cases ht
      · obtain ⟨v, -, hv⟩ := List.mem_map.mp ht
        cases hv

end Move

namespace Blocks

variable {d : Document} {line : Nat} {t : Token} {ts : List Token} {ms : List Move}
  {c seed : Chain}

theorem span_contains (hl : Layered d line (t :: ts)) :
    ∀ u ∈ ts, (t.rows.span d).contains (u.rows.span d) = true := by
  intro u hu
  have hproper := (hl.lies t List.mem_cons_self).rows_at.proper
  have hproper' := (hl.tail.lies u hu).rows_at.proper
  exact (Rows.contains_span_iff hproper' hproper).mpr (hl.rows_within u hu)

/-- With the first block all blocks lie within the innermost step. -/
theorem head_contains (hl : Layered d line (t :: ts))
    (hin : ∀ p ∈ seed.head?, p.span.contains (t.rows.span d) = true) :
    ∀ u ∈ t :: ts, ∀ p ∈ seed.head?, p.span.contains (u.rows.span d) = true := by
  intro u hu p hp
  rcases List.mem_cons.mp hu with rfl | hu
  · exact hin p hp
  · exact Span.contains_trans (hin p hp) (span_contains hl u hu)

/-- Carrying out moves for blocks within the innermost step keeps a chain strictly nested. -/
theorem carryOut_deepened (cap : Value) (hl : Layered d line ts) (hpicks : Move.Picks ts ms)
    (hlists : ∀ t, .list t ∈ ms → t.level.isNumber 0 = false) (h : c.Deepened seed line)
    (hin : ∀ t ∈ ts, ∀ p ∈ c.head?, p.span.contains (t.rows.span d) = true) :
    ∃ c', carryOut ⟨d, line, cap⟩ c ms = .ok c' ∧ c'.Deepened seed line := by
  induction hpicks generalizing c with
  | nil => exact ⟨c, rfl, h⟩
  | skip _ ih => exact ih hl.tail hlists h fun t ht => hin t (List.mem_cons_of_mem _ ht)
  | @list t ts ms _ _ ih =>
    have ht := hl.lies t List.mem_cons_self
    obtain ⟨l, hlines, -⟩ := ht.lines
    obtain ⟨outer, hjoin, hnext⟩ := h.joinList cap ht hlines
      (hlists t List.mem_cons_self) (hin t List.mem_cons_self)
    rw [Move.carryOut_cons (Token.block_list t hlines)]
    show ∃ c', carryOut _ (Block.joinList _ _ c) ms = _ ∧ _
    rw [hjoin]
    refine ih hl.tail (fun u hu => hlists u (List.mem_cons_of_mem _ hu)) hnext fun u hu p hp => ?_
    obtain rfl := Option.mem_some.mp hp
    exact span_contains hl u hu
  | @alone t ts ms _ ih =>
    have ht := hl.lies t List.mem_cons_self
    obtain ⟨l, hlines, -⟩ := ht.lines
    obtain ⟨hnext, hhead⟩ := h.joinAlone cap ht hlines (hl.starts t List.mem_cons_self)
      (hin t List.mem_cons_self)
    rw [Move.carryOut_cons (Token.block_alone (hl.labelled t List.mem_cons_self).name hlines)]
    refine ih hl.tail (fun u hu => hlists u (List.mem_cons_of_mem _ hu)) hnext fun u hu p hp => ?_
    rcases hl.plain_or_last with hplain | rfl
    · rw [hhead hplain p hp]
      exact span_contains hl u hu
    · cases hu

/-- Blocks around a line that start below the top, and whose lines lie within the innermost step of
a strictly nested chain, are walked down to any depth without a failure. The chain stays strictly
nested, each new step has the line, and all steps that were there are still there but perhaps the
innermost. -/
theorem ofLists_nested {n : Int} (cap : Numeral) (hl : Layered d line (t :: ts))
    (hlevel : t.level = .whole n) (hn : 1 ≤ n) (hseed : seed.StrictlyNested)
    (hin : ∀ p ∈ seed.head?, p.span.contains (t.rows.span d) = true) :
    ∃ c, ofLists ⟨d, line, .ofNumeral cap⟩ (t :: ts) seed = .ok c ∧ c.StrictlyNested ∧
      ∃ news : Chain,
        (∀ s ∈ news, s.given = none ∧ s.span.start.line ≤ line ∧ line ≤ s.span.stop.line) ∧
        (c = news ++ seed ∨ news ≠ [] ∧ c = news ++ seed.tail) := by
  have hmoves : Move.lists (.ofNumeral cap) (t :: ts) = Move.walk cap (.whole n) (t :: ts) :=
    Move.lists_numeral (Value.numeral?_ofNumeral cap) hlevel
  have hpicks := Move.walk_picks_keyed cap (.whole n) fun u hu => (hl.labelled u hu).isKey
  obtain ⟨c, hc, hdeepened⟩ := carryOut_deepened (.ofNumeral cap) hl hpicks
    (Move.walk_list_level hn hl.labelled) ⟨hseed, .refl seed⟩ (head_contains hl hin)
  refine ⟨c, ?_, hdeepened.nested, hdeepened.grown⟩
  show carryOut _ seed (Move.lists (.ofNumeral cap) (t :: ts)) = _
  rw [hmoves]
  exact hc

/-- A heading over a quoted list with another one in its first item. -/
def nestedList : Document :=
  .ofText "# Q\n> - a\n>   - b\n>   - c\n> - d" "u" "markdown" (.whole 1) "h"

def nestedListBlocks : List Token :=
  [⟨"bullet_list_open", 1, 1, 5, "ul"⟩, ⟨"list_item_open", 2, 1, 4, "li"⟩,
    ⟨"bullet_list_open", 3, 2, 4, "ul"⟩, ⟨"list_item_open", 4, 2, 3, "li"⟩,
    ⟨"paragraph_open", 5, 2, 3, "p"⟩].map Token.Sketch.token

def nestedListSeed : Chain :=
  [⟨Rows.span nestedList ⟨1, 4⟩, some 0⟩, ⟨Rows.span nestedList ⟨0, 4⟩, some 1⟩]

theorem nestedList_layered : Layered nestedList 2 nestedListBlocks := by
  have hu : Undivided nestedList [] nestedListBlocks :=
    ⟨fun t ht => (Token.typed_of_sketches _ t ht).labelled, by decide, by decide, by decide,
      by decide, by decide⟩
  have hts : Token.around id 2 nestedListBlocks = .ok nestedListBlocks :=
    Token.around_of_pairwise (by decide) (by decide)
  exact hu.layered hts

/-- The outer list takes the place of the content and the inner one that of the outer item. -/
theorem nestedList_nested : ∃ c,
    ofLists ⟨nestedList, 2, .whole 8⟩ nestedListBlocks nestedListSeed = .ok c ∧
    c.spans = [⟨2, 2⟩, ⟨2, 3⟩, ⟨1, 4⟩, ⟨0, 4⟩].map (Rows.span nestedList) ∧
    c.StrictlyNested ∧ ∃ news : Chain,
      (∀ s ∈ news, s.given = none ∧ s.span.start.line ≤ 2 ∧ 2 ≤ s.span.stop.line) ∧
      (c = news ++ nestedListSeed ∨ news ≠ [] ∧ c = news ++ nestedListSeed.tail) := by
  have hseed : nestedListSeed.StrictlyNested := by decide
  have hin : ∀ p ∈ nestedListSeed.head?, p.span.contains (Rows.span nestedList ⟨1, 4⟩) = true := by
    decide
  obtain ⟨c, hc, hnested, hgrown⟩ :=
    ofLists_nested (.whole 8) nestedList_layered rfl (by decide) hseed hin
  have hwalk : (ofLists ⟨nestedList, 2, .whole 8⟩ nestedListBlocks nestedListSeed).map
      Chain.spans = .ok ([⟨2, 2⟩, ⟨2, 3⟩, ⟨1, 4⟩, ⟨0, 4⟩].map (Rows.span nestedList)) := rfl
  refine ⟨c, hc, ?_, hnested, hgrown⟩
  have hc' : ofLists ⟨nestedList, 2, .whole 8⟩ nestedListBlocks nestedListSeed = .ok c := hc
  rw [hc'] at hwalk
  exact Except.ok.inj hwalk

end Blocks

end Concentric
