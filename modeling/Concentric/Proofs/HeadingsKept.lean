import Concentric.Proofs.NestedRows
import Concentric.Proofs.Undivided

/-! The headings stay. Whatever blocks and lists join a chain of headings, it keeps all of its steps
but for the innermost, which a list that ends with it may replace. The join of spans on the same
lines, which would start the chain anew, does not take place. -/

namespace Concentric

/-! ## Chains on top of a seed -/

/-- The chain has new steps, whose spans have a property, on top of the seed, or on top of what is
left of the seed without its innermost step. -/
def Chain.GrownWith (P : Span → Prop) (c seed : Chain) : Prop :=
  ∃ news : Chain, (∀ s ∈ news, s.given = none ∧ P s.span) ∧
    (c = news ++ seed ∨ news ≠ [] ∧ c = news ++ seed.tail)

namespace Chain.GrownWith

variable {P : Span → Prop} {seed c : Chain} {p : Step} {s : Span}

theorem refl (seed : Chain) : seed.GrownWith P seed :=
  ⟨[], fun _ h => absurd h List.not_mem_nil, Or.inl rfl⟩

theorem push (h : c.GrownWith P seed) (hs : P s) : Chain.GrownWith P (.fresh s :: c) seed := by
  obtain ⟨news, hnews, hcase⟩ := h
  refine ⟨.fresh s :: news, List.forall_mem_cons.mpr ⟨⟨rfl, hs⟩, hnews⟩, ?_⟩
  rcases hcase with rfl | ⟨-, rfl⟩
  · exact Or.inl rfl
  · exact Or.inr ⟨List.cons_ne_nil _ _, rfl⟩

/-- The innermost step may be replaced, as a new one takes its place. -/
theorem replace (h : Chain.GrownWith P (p :: c) seed) (hs : P s) :
    Chain.GrownWith P (.fresh s :: c) seed := by
  obtain ⟨news, hnews, hcase⟩ := h
  cases news with
  | nil =>
    rcases hcase with rfl | ⟨hne, -⟩
    · refine ⟨[.fresh s], ?_, Or.inr ⟨List.cons_ne_nil _ _, rfl⟩⟩
      exact List.forall_mem_singleton.mpr ⟨rfl, hs⟩
    · exact absurd rfl hne
  | cons q news =>
    obtain ⟨-, hnews⟩ := List.forall_mem_cons.mp hnews
    refine ⟨.fresh s :: news, List.forall_mem_cons.mpr ⟨⟨rfl, hs⟩, hnews⟩, ?_⟩
    rcases hcase with heq | ⟨-, heq⟩
    · exact Or.inl (congrArg (.fresh s :: ·) (List.cons.inj heq).2)
    · exact Or.inr ⟨List.cons_ne_nil _ _, congrArg (.fresh s :: ·) (List.cons.inj heq).2⟩

end Chain.GrownWith

/-- The chain has new steps on top of the seed, or on top of what is left of the seed without its
innermost step. -/
def Chain.GrownFrom (c seed : Chain) : Prop :=
  ∃ news : Chain, (∀ s ∈ news, s.given = none) ∧
    (c = news ++ seed ∨ news ≠ [] ∧ c = news ++ seed.tail)

namespace Chain.GrownFrom

variable {seed c : Chain} {p : Step}

theorem iff_with : c.GrownFrom seed ↔ c.GrownWith (fun _ => True) seed := by
  simp only [GrownFrom, GrownWith, and_true]

theorem refl (seed : Chain) : seed.GrownFrom seed := iff_with.mpr (.refl seed)

theorem push (h : c.GrownFrom seed) (s : Span) : Chain.GrownFrom (.fresh s :: c) seed :=
  iff_with.mpr ((iff_with.mp h).push True.intro)

theorem replace (h : Chain.GrownFrom (p :: c) seed) (s : Span) :
    Chain.GrownFrom (.fresh s :: c) seed :=
  iff_with.mpr ((iff_with.mp h).replace True.intro)

theorem ne_nil (h : c.GrownFrom seed) (hne : seed ≠ []) : c ≠ [] := by
  obtain ⟨news, -, rfl | ⟨hnews, rfl⟩⟩ := h
  · exact List.append_ne_nil_of_right_ne_nil _ hne
  · exact List.append_ne_nil_of_left_ne_nil hnews _

/-- Of a seed of two or more steps the outermost one stays. -/
theorem root?_eq (h : c.GrownFrom seed) (hmore : seed.tail ≠ []) : c.root? = seed.root? := by
  cases seed with
  | nil => exact absurd rfl hmore
  | cons s outer =>
    obtain ⟨t, rest, rfl⟩ := List.exists_cons_of_ne_nil hmore
    obtain ⟨news, -, rfl | ⟨-, rfl⟩⟩ := h
    · exact List.getLast?_append_cons _ _ _
    · exact (List.getLast?_append_cons _ _ _).trans (List.getLast?_cons_cons).symm

end Chain.GrownFrom

/-! ## Steps that blocks can join -/

/-- The span is one of whole lines, or it starts above the rows and goes down to their last line. -/
def Span.Hosts (d : Document) (r : Rows) (s : Span) : Prop :=
  (∃ q : Rows, q.Proper d ∧ s = q.span d) ∨ s.start.line < r.first ∧ r.last ≤ s.stop.line

namespace Relation

variable {s p : Span}

theorem sameLines_of_classify (h : classify s p = .sameLines) : s.sameLines p = true := by
  unfold classify at h
  split_ifs at h with h1 h2 h3
  exact h3

end Relation

/-- The span of a list has whole lines, whatever the level of the list is. -/
theorem Token.listSpan_eq {d : Document} {line : Nat} {t : Token} {l : LineRange} (cap : Value)
    (h : t.Lies d line) (hl : t.lines? = some l) :
    ∃ r : Rows, r.Proper d ∧ Block.wholeLines ⟨d, line, cap⟩ l.start
      (Block.listEnd ⟨d, line, cap⟩ ⟨true, t.type, t.level, l⟩) = r.span d := by
  obtain ⟨q, hq, hstart, -⟩ := h.lines
  obtain rfl : l = q := Option.some.inj (hl.symm.trans hq)
  have hfirst := h.first_le
  have hlt := h.lt_stop
  have hle := h.stop_le
  have hlast : t.first ≤ (if t.level.isNumber 0 then max t.first (t.stop - 2) else t.stop - 1) ∧
      (if t.level.isNumber 0 then max t.first (t.stop - 2) else t.stop - 1) < d.lineCount := by
    split <;> omega
  rw [h.listEnd_eq hl, hstart]
  exact ⟨⟨t.first, _⟩, ⟨hlast.1, hlast.2⟩, rfl⟩

/-- The chain has grown from the seed, and its innermost step can be joined by the rows. -/
structure Chain.Ready (c : Chain) (d : Document) (seed : Chain) (r : Rows) : Prop where
  grown : c.GrownFrom seed
  hosts : ∀ p ∈ c.head?, p.span.Hosts d r

section

variable {d : Document} {r q : Rows} {s : Span} {seed c : Chain} {line : Nat}

theorem Span.Hosts.mono (h : s.Hosts d r) (hq : q.Within r) : s.Hosts d q := by
  rcases h with hwhole | ⟨hstart, hstop⟩
  · exact Or.inl hwhole
  · exact Or.inr ⟨Nat.lt_of_lt_of_le hstart hq.1, Nat.le_trans hq.2 hstop⟩

theorem Span.Hosts.not_sameLines (h : s.Hosts d r) (hr : r.Proper d) :
    Relation.classify (r.span d) s ≠ .sameLines := by
  intro hrel
  rcases h with ⟨p, hp, rfl⟩ | ⟨hstart, -⟩
  · rw [Rows.classify_span hr hp] at hrel
    exact Rows.relation_ne_sameLines r p hrel
  · have hlines := Relation.sameLines_of_classify hrel
    unfold Span.sameLines at hlines
    rw [hr.start_eq, Bool.and_eq_true, beq_iff_eq] at hlines
    exact absurd hlines.1.symm (Nat.ne_of_lt hstart)

/-- Rows that go one line too far are cut off at the end of the span. Where they have no other line
the two ends are swapped, and the span still starts above them. -/
theorem Span.Hosts.cut (h : s.Hosts d r) (hr : r.Proper d)
    (hstop : s.stop.line + 1 = (r.span d).stop.line) :
    (Span.between (r.span d).start ⟨(r.span d).stop.line - 1, s.stop.character⟩).Hosts d r := by
  have hrows := hr.first_le_last
  have hlast := hr.stop_line
  rcases h with ⟨q, hq, rfl⟩ | ⟨-, hle⟩
  · rw [hq.stop_line, hlast] at hstop
    rw [Rows.cut_span hr hq hstop.symm]
    by_cases hle : r.first ≤ q.last
    · exact Or.inl ⟨⟨r.first, q.last⟩, ⟨hle, hq.last_lt⟩, rfl⟩
    · have hend : (d.lineEnd q.last).line = q.last := Document.lineEnd_line hq.last_lt
      have hswap : Rows.span d ⟨r.first, q.last⟩ = .between (d.lineEnd q.last) ⟨r.first, 0⟩ :=
        Span.between_comm _ _
      have horder : d.lineEnd q.last ≤ (⟨r.first, 0⟩ : Position) :=
        Or.inl (hend.symm ▸ Nat.not_le.mp hle)
      rw [hswap, Span.between_of_le horder]
      exact Or.inr ⟨hend.symm ▸ Nat.not_le.mp hle, by dsimp only; omega⟩
  · omega

/-- Rows that end with the span leave a span with its start. -/
theorem Span.Hosts.merge (h : s.Hosts d r) (hr : r.Proper d)
    (hstop : s.stop.line = (r.span d).stop.line) :
    (Span.between s.start (r.span d).stop).Hosts d r := by
  have hrows := hr.first_le_last
  have hlast := hr.stop_line
  rcases h with ⟨q, hq, rfl⟩ | ⟨hlt, -⟩
  · have hqrows := hq.first_le_last
    rw [hq.stop_line, hlast] at hstop
    rw [hq.start_eq, hr.stop_eq]
    exact Or.inl ⟨⟨q.first, r.last⟩, ⟨by dsimp only; omega, hr.last_lt⟩, rfl⟩
  · have horder : s.start ≤ (r.span d).stop := Or.inl (by omega)
    rw [Span.between_of_le horder]
    exact Or.inr ⟨hlt, Nat.le_of_eq hlast.symm⟩

namespace Chain.Ready

theorem of_grown (hg : Chain.GrownFrom (.fresh s :: c) seed) (hs : s.Hosts d r) :
    Chain.Ready (.fresh s :: c) d seed r :=
  ⟨hg, fun _ hp => Option.mem_some.mp hp ▸ hs⟩

theorem within (h : c.Ready d seed r) (hq : q.Within r) : c.Ready d seed q :=
  ⟨h.grown, fun p hp => (h.hosts p hp).mono hq⟩

theorem push_rows (h : c.Ready d seed r) (hq : q.Proper d) :
    Chain.Ready (q.step d :: c) d seed r :=
  of_grown (h.grown.push _) (Or.inl ⟨q, hq, rfl⟩)

/-- The lines of a plain block join, and others within them still can. -/
theorem joinPlain (h : c.Ready d seed r) (hr : r.Proper d) :
    (Block.joinPlain (r.span d) c).Ready d seed r := by
  cases c with
  | nil => exact h.push_rows hr
  | cons p outer =>
    have hp := h.hosts p rfl
    unfold Block.joinPlain
    dsimp only
    cases hrel : Relation.classify (r.span d) p.span with
    | contains => exact h.push_rows hr
    | equal => exact h
    | disjoint => exact h
    | sameLines => exact absurd hrel (hp.not_sameLines hr)
    | extendsOneLine =>
      dsimp only
      split
      · exact h
      · exact of_grown (h.grown.push _) (hp.cut hr (Relation.stop_of_extends hrel))
    | sharedEndLine =>
      dsimp only
      split
      · exact h
      · exact of_grown (h.grown.replace _) (hp.merge hr (Relation.stop_of_sharedEnd hrel))

/-- The lines of a fence join, and those between its marks with them. -/
theorem joinFence {content : Option Rows} (h : c.Ready d seed r) (hr : r.Proper d)
    (hc : ∀ q ∈ content, q.Proper d) :
    (Block.joinFence (r.span d) (content.map (Rows.span d)) c).Ready d seed r := by
  cases c with
  | nil =>
    cases content with
    | none => exact h.push_rows hr
    | some q => exact (h.push_rows hr).push_rows (hc q rfl)
  | cons p outer =>
    have hp := h.hosts p rfl
    cases content with
    | none =>
      simp only [Block.joinFence, Option.map_none]
      cases hrel : Relation.classify (r.span d) p.span with
      | sameLines => exact absurd hrel (hp.not_sameLines hr)
      | contains => exact h.push_rows hr
      | sharedEndLine => exact h.push_rows hr
      | _ => exact h
    | some q =>
      have hq := hc q rfl
      simp only [Block.joinFence, Option.map_some]
      cases hrel : Relation.classify (r.span d) p.span with
      | sameLines => exact absurd hrel (hp.not_sameLines hr)
      | contains => exact (h.push_rows hr).push_rows hq
      | sharedEndLine => exact (h.push_rows hr).push_rows hq
      | equal => exact h.push_rows hq
      | _ => exact h

/-- A list has whole lines, whatever its level is, and joins on top or in place of a step. -/
theorem joinList {t : Token} {l : LineRange} (cap : Value) (h : c.Ready d seed r)
    (ht : t.Lies d line) (hl : t.lines? = some l) :
    (Block.joinList ⟨d, line, cap⟩ ⟨true, t.type, t.level, l⟩ c).Ready d seed r := by
  obtain ⟨last, hproper, heq⟩ := Token.listSpan_eq cap ht hl
  unfold Block.joinList
  dsimp only
  rw [heq]
  cases c with
  | nil => exact h.push_rows hproper
  | cons p outer =>
    dsimp only
    split
    · exact of_grown (h.grown.replace _) (Or.inl ⟨_, hproper, rfl⟩)
    · exact h.push_rows hproper

/-- A block that starts with text joins on its own, and what lies within it still can, unless it is
cut down to the line. -/
theorem joinAlone {t : Token} {l : LineRange} (cap : Value) (h : c.Ready d seed t.rows)
    (ht : t.Lies d line) (hstart : d.hasBlank t.first = false) (hl : t.lines? = some l) :
    ∃ q : Rows, (t.isPair = false → q = t.rows) ∧
      (Block.joinAlone ⟨d, line, cap⟩ ⟨false, t.type, t.level, l⟩ c).Ready d seed q := by
  rw [ht.joinAlone_eq cap hl hstart]
  split
  · exact ⟨t.rows, fun _ => rfl,
      h.joinFence ht.rows_at.proper fun q hq => (ht.markedRows_at q hq).proper⟩
  · split
    · next hpair =>
      refine ⟨⟨line, line⟩, fun hplain => absurd (hpair.symm.trans hplain) Bool.noConfusion, ?_⟩
      exact (h.within ht.pair_within).joinPlain ht.line_proper
    · exact ⟨t.rows, fun _ => rfl, h.joinPlain ht.rows_at.proper⟩

end Chain.Ready

/-! ## Runs -/

/-- Carrying out moves for blocks around a line does not fail and leaves a chain on top of the
seed. -/
theorem Layered.carryOut_grown {ts : List Token} {ms : List Move} (cap : Value)
    (hl : Layered d line ts) (hpicks : Move.Picks ts ms) (hg : c.GrownFrom seed)
    (hc : ∀ p ∈ c.head?, ∀ t ∈ ts, p.span.Hosts d t.rows) :
    ∃ c', Blocks.carryOut ⟨d, line, cap⟩ c ms = .ok c' ∧ c'.GrownFrom seed := by
  induction hpicks generalizing c with
  | nil => exact ⟨c, rfl, hg⟩
  | skip _ ih => exact ih hl.tail hg fun p hp t ht => hc p hp t (List.mem_cons_of_mem _ ht)
  | @list t ts ms _ _ ih =>
    have ht := hl.lies t List.mem_cons_self
    obtain ⟨l, hlines, -⟩ := ht.lines
    have hready : c.Ready d seed t.rows := ⟨hg, fun p hp => hc p hp t List.mem_cons_self⟩
    have hjoin := hready.joinList cap ht hlines
    rw [Move.carryOut_cons (Token.block_list t hlines)]
    exact ih hl.tail hjoin.grown fun p hp u hu => (hjoin.hosts p hp).mono (hl.rows_within u hu)
  | @alone t ts ms _ ih =>
    have ht := hl.lies t List.mem_cons_self
    have hstart := hl.starts t List.mem_cons_self
    obtain ⟨l, hlines, -⟩ := ht.lines
    have hready : c.Ready d seed t.rows := ⟨hg, fun p hp => hc p hp t List.mem_cons_self⟩
    rw [Move.carryOut_cons (Token.block_alone (hl.labelled t List.mem_cons_self).name hlines)]
    obtain ⟨q, hq, hjoin⟩ := hready.joinAlone cap ht hstart hlines
    refine ih hl.tail hjoin.grown fun p hp u hu => ?_
    rcases hl.plain_or_last with ⟨-, hplain⟩ | rfl
    · exact (hjoin.hosts p hp).mono (hq hplain ▸ hl.rows_within u hu)
    · cases hu

end

namespace Headings

open Outline

variable {d : Document} {outline : List Heading} {tokens ts : List Token} {line : Nat}

/-! ## The outermost heading -/

theorem closestRows_concat (outline : List Heading) (line : Nat) (h : Heading) :
    ∃ inner, closestRows outline line h = inner ++ [h.rows] ∧ (h.top ≠ line → inner ≠ []) := by
  unfold closestRows
  split
  · next htop => exact ⟨_, rfl, fun hne => absurd htop hne⟩
  · refine ⟨h.cutRows outline (h.top + 1) ++ [h.contentRows], ?_, fun _ => ?_⟩
    · rw [List.append_assoc]
      rfl
    · exact List.append_ne_nil_of_right_ne_nil _ (List.cons_ne_nil _ _)

/-- The last rows of a chain of headings are the section of the outermost one. -/
theorem getLast?_rowsAround (outline : List Heading) (line : Nat) :
    (rowsAround outline line).getLast? =
      (outline.filter (covers line)).head?.map Heading.rows := by
  unfold rowsAround
  cases outline.filter (covers line) with
  | nil => rfl
  | cons h inner =>
    rw [List.reverse_cons]
    by_cases hinner : inner = []
    · subst hinner
      obtain ⟨rs, hrs, -⟩ := closestRows_concat outline line h
      show (closestRows outline line h ++ []).getLast? = _
      rw [List.append_nil, hrs, List.getLast?_concat]
      rfl
    · rw [rowsOf_concat (List.reverse_ne_nil_iff.mpr hinner)]
      exact List.getLast?_append_cons _ _ _

theorem root?_rowsAround {h : Heading} {inner : List Heading}
    (hfilter : outline.filter (covers line) = h :: inner) :
    Chain.root? ((rowsAround outline line).map (Rows.step d)) = some (h.rows.step d) := by
  show (List.map _ _).getLast? = _
  rw [List.getLast?_map, getLast?_rowsAround, hfilter]
  rfl

/-- Below a heading the chain of headings has two steps or more. -/
theorem tail_rowsAround_ne_nil {h : Heading}
    (hlast : (outline.filter (covers line)).getLast? = some h) (hne : h.top ≠ line) :
    ((rowsAround outline line).map (Rows.step d)).tail ≠ [] := by
  unfold rowsAround
  obtain ⟨outer, houter⟩ := List.getLast?_eq_some_iff.mp hlast
  obtain ⟨inner, hinner, hmore⟩ := closestRows_concat outline line h
  rw [houter, List.reverse_append]
  show (List.map _ (closestRows outline line h ++ _)).tail ≠ []
  obtain ⟨r, rs, hr⟩ := List.exists_cons_of_ne_nil (hmore hne)
  rw [hinner, hr, List.cons_append, List.cons_append, List.map_cons, List.tail_cons,
    List.append_assoc]
  intro hnil
  exact List.append_ne_nil_of_right_ne_nil rs (List.cons_ne_nil _ _) (List.map_eq_nil_iff.mp hnil)

end Headings

namespace Blocks

open Outline Headings

/-- Blocks that no heading divides, lists or not, leave all steps of a seed on the lines of the
headings, but perhaps the innermost. -/
theorem chain_grown {d : Document} {outline : List Heading} {tokens ts : List Token} {cap : Int}
    {line : Nat} {seed : Chain} (hs : Sectioned d outline)
    (hts : Token.around id line tokens = .ok ts) (hu : Undivided d outline ts)
    (hin : ∃ h ∈ outline, covers line h = true)
    (hseed : seed.spans = (rowsAround outline line).map (Rows.span d)) :
    ∃ c, chain ⟨d, line, .whole cap⟩ tokens seed = .ok c ∧
      (ts = [] ∧ c = [] ∨ ts ≠ [] ∧ c.GrownFrom seed) := by
  have hl := hu.layered hts
  have hwhole : ∀ p ∈ seed.head?, ∃ r : Rows, r.Proper d ∧ p.span = r.span d := by
    intro p hp
    have hspan : p.span ∈ seed.spans := List.mem_map_of_mem (List.mem_of_mem_head? hp)
    rw [hseed] at hspan
    obtain ⟨r, hr, heq⟩ := List.mem_map.mp hspan
    exact ⟨r, (rowsAround_at hs line r hr).proper, heq.symm⟩
  have hsome : seed.isEmpty = false := by
    refine List.isEmpty_eq_false_iff.mpr fun hnil => ?_
    rw [hnil] at hseed
    exact (rowsAround_eq_nil_iff outline line).mp (List.map_eq_nil_iff.mp hseed.symm) hin
  unfold chain
  simp only [hts]
  cases ts with
  | nil => exact ⟨[], rfl, Or.inl ⟨rfl, rfl⟩⟩
  | cons t rest =>
    obtain ⟨c, hc, hgrown⟩ := hl.carryOut_grown (.whole cap)
      (Move.mixed_picks_labelled cap hl.labelled) (.refl seed) fun p hp u _ => Or.inl (hwhole p hp)
    refine ⟨c, ?_, Or.inr ⟨List.cons_ne_nil _ _, hgrown⟩⟩
    simp only [hsome, Bool.not_false, Move.all_seeded]
    exact hc

end Blocks

namespace Selection

open Outline Headings

/-- Where no heading divides the blocks around a line in a section, lists and other blocks leave
all steps of the headings but perhaps the innermost, as they were given. So the outermost step of
the answer is the section of the outermost heading. -/
theorem headings_kept {d : Document} {source tokens ts : List Token} {outline : List Heading}
    {cap : Int} {p : Position} (ho : ofTokens d source = .ok outline) (ha : Ascends d outline)
    (hts : Token.around id p.line tokens = .ok ts) (hu : Undivided d outline ts)
    (hin : ∃ h ∈ outline, covers p.line h = true) :
    ∃ headings, Headings.chain d outline p = .ok headings ∧
      (∀ seed : Chain, seed.spans = headings.spans →
        ∃ c, Blocks.chain ⟨d, p.line, .whole cap⟩ tokens seed = .ok c ∧
          (ts = [] ∧ c = [] ∨ ts ≠ [] ∧ c.GrownFrom seed)) ∧
      ∃ h inner c, Headings.around id p.line outline = .ok (h :: inner) ∧
        chain ⟨d, tokens, outline, .whole cap⟩ p = .ok c ∧
        c.root?.map (·.span) = some h.span := by
  have hs := ha.sectioned ho
  have hspans : ∀ rs : List Rows, Chain.spans (rs.map (Rows.step d)) = rs.map (Rows.span d) :=
    fun rs => List.map_map
  have hgrown : ∀ seed : Chain,
      seed.spans = Chain.spans ((rowsAround outline p.line).map (Rows.step d)) →
        ∃ c, Blocks.chain ⟨d, p.line, .whole cap⟩ tokens seed = .ok c ∧
          (ts = [] ∧ c = [] ∨ ts ≠ [] ∧ c.GrownFrom seed) :=
    fun seed hseed => Blocks.chain_grown hs hts hu hin (hseed.trans (hspans _))
  refine ⟨_, Headings.chain_eq hs p, hgrown, ?_⟩
  have hne : outline.filter (covers p.line) ≠ [] := by
    obtain ⟨h, hh, hcov⟩ := hin
    exact List.ne_nil_of_mem (List.mem_filter.mpr ⟨hh, hcov⟩)
  obtain ⟨h, inner, hfilter⟩ := List.exists_cons_of_ne_nil hne
  have hh : h ∈ outline := (List.mem_filter.mp (hfilter ▸ List.mem_cons_self)).1
  have hroot := root?_rowsAround hfilter (d := d)
  have hspan : h.span = h.rows.span d := span_of_mem hs hh
  obtain ⟨c, hc, hcase⟩ := hgrown _ rfl
  have hanswer := chain_of_blocks (s := ⟨d, tokens, outline, .whole cap⟩)
    (Headings.chain_eq hs p) hc
  refine ⟨h, inner, _, hfilter ▸ around_eq_filter hs p.line, hanswer, ?_⟩
  rcases hcase with ⟨-, rfl⟩ | ⟨hblocks, hgrow⟩
  · rw [hspan]
    exact congrArg (Option.map (·.span)) hroot
  · -- with a block around it the line is below the closest heading
    obtain ⟨t, ht⟩ := List.exists_mem_of_ne_nil ts hblocks
    obtain ⟨g, hg⟩ := Option.ne_none_iff_exists'.mp (mt List.getLast?_eq_none_iff.mp hne)
    obtain ⟨htop, -, -⟩ := hu.within_closest hs ht ((hu.layered hts).lies t ht) hg
    have htail := tail_rowsAround_ne_nil hg htop (d := d)
    have hsome : c.isEmpty = false := List.isEmpty_eq_false_iff.mpr
      (hgrow.ne_nil fun hnil => htail (congrArg List.tail hnil))
    rw [hsome, hspan]
    exact congrArg (Option.map (·.span)) ((hgrow.root?_eq htail).trans hroot)

/-- A heading over a quoted list of one item. -/
def quotedList : Document := .ofText "# Q\n> - a" "u" "markdown" (.whole 1) "h"

def quotedListBlocks : List Token :=
  [⟨"blockquote_open", 0, 1, 2, ""⟩, ⟨"bullet_list_open", 1, 1, 2, "ul"⟩,
    ⟨"list_item_open", 2, 1, 2, "li"⟩, ⟨"paragraph_open", 3, 1, 2, "p"⟩].map Token.Sketch.token

def quotedListTokens : List Token :=
  Token.Sketch.token ⟨"heading_open", 0, 0, 1, "h1"⟩ :: quotedListBlocks

def quotedListOutline : List Heading :=
  [⟨1, .whole 0, "", "section", .between ⟨0, 0⟩ ⟨1, 5⟩⟩]

theorem quotedList_undivided : Undivided quotedList quotedListOutline quotedListBlocks :=
  ⟨fun t ht => (Token.typed_of_sketches _ t ht).labelled, by decide, by decide, by decide,
    by decide, by decide⟩

def quotedListSeed : Chain :=
  [⟨Rows.span quotedList ⟨1, 1⟩, some 0⟩, ⟨Rows.span quotedList ⟨0, 1⟩, some 1⟩]

/-- The quoted list takes the place of the content, and the section stays. -/
theorem quotedList_kept :
    (∃ c, Blocks.chain ⟨quotedList, 1, .whole 4⟩ quotedListTokens quotedListSeed = .ok c ∧
      c.GrownFrom quotedListSeed) ∧
    ∃ c, chain ⟨quotedList, quotedListTokens, quotedListOutline, .whole 4⟩ ⟨1, 0⟩ = .ok c ∧
      c.root?.map (·.span) = some (Rows.span quotedList ⟨0, 1⟩) := by
  have ho : ofTokens quotedList quotedListTokens = .ok quotedListOutline := rfl
  have ha : Ascends quotedList quotedListOutline := .of_lines [0] rfl (by decide) (by decide)
  have hts : Token.around id 1 quotedListTokens = .ok quotedListBlocks :=
    Token.around_of_pairwise (by decide) (by decide)
  obtain ⟨headings, hheadings, hgrown, h, inner, c, haround, hc, hroot⟩ :=
    @headings_kept _ _ _ _ _ 4 ⟨1, 0⟩ ho ha hts quotedList_undivided (by decide)
  have hrows : Headings.chain quotedList quotedListOutline ⟨1, 0⟩ =
      .ok ([⟨1, 1⟩, ⟨0, 1⟩].map (Rows.step quotedList)) :=
    Headings.chain_eq (ha.sectioned ho) ⟨1, 0⟩
  have houter : Headings.around id 1 quotedListOutline = .ok quotedListOutline :=
    around_eq_filter (ha.sectioned ho) 1
  obtain rfl := Except.ok.inj (hrows.symm.trans hheadings)
  obtain ⟨rfl, rfl⟩ := List.cons.inj (Except.ok.inj (houter.symm.trans haround))
  obtain ⟨c', hc', ⟨hnone, -⟩ | ⟨-, hgrow⟩⟩ := hgrown quotedListSeed rfl
  · cases hnone
  · exact ⟨⟨c', hc', hgrow⟩, c, hc, hroot⟩

/-! ## Headings outside of the document -/

/-- A heading with a line of text. -/
def titled : Document := .ofText "# A\nx" "u" "markdown" (.whole 1) "h"

def titledBlocks : List Token := [⟨"paragraph_open", 0, 1, 2, "p"⟩].map Token.Sketch.token

/-- The tokens of the heading, of another one beyond the text, and of the text. -/
def titledTokens : List Token :=
  [⟨"heading_open", 0, 0, 1, "h1"⟩, ⟨"heading_open", 0, 5, 6, "h2"⟩].map Token.Sketch.token ++
    titledBlocks

def titledOutline : List Heading :=
  [⟨1, .whole 0, "", "section", .between ⟨0, 0⟩ ⟨1, 1⟩⟩,
    ⟨2, .whole 5, "", "section-1", .between ⟨5, 0⟩ ⟨1, 1⟩⟩]

def titledSteps : Chain := [.fresh (.between ⟨2, 1⟩ ⟨5, 0⟩), .fresh (.between ⟨1, 1⟩ ⟨5, 0⟩)]

theorem titled_undivided : Undivided titled titledOutline titledBlocks :=
  ⟨fun t ht => (Token.typed_of_sketches _ t ht).labelled, by decide, by decide, by decide,
    by decide, by decide⟩

/-- The section of a heading beyond the last line is not within the one around the line, which is
left out. -/
theorem root_lost : ofTokens titled titledTokens = .ok titledOutline ∧ Ascending titledOutline ∧
    Token.around id 1 titledTokens = .ok titledBlocks ∧
    Undivided titled titledOutline titledBlocks ∧
    (∃ h ∈ titledOutline, covers 1 h = true) ∧
    ∃ h inner c, Headings.around id 1 titledOutline = .ok (h :: inner) ∧
      chain ⟨titled, titledTokens, titledOutline, .whole 4⟩ ⟨1, 0⟩ = .ok c ∧
      c.root?.map (·.span) ≠ some h.span := by
  have hts : Token.around id 1 titledTokens = .ok titledBlocks :=
    Token.around_of_pairwise (by decide) (by decide)
  have haround : Headings.around id 1 titledOutline = .ok titledOutline :=
    around_of_ascending (f := fun h => h.line.wholeNumber?.getD 0) (by decide) (by decide) 1
  have hheadings : Headings.chain titled titledOutline ⟨1, 0⟩ = .ok titledSteps := by
    unfold Headings.chain
    rw [haround]
    rfl
  have hblocks : Blocks.chain ⟨titled, 1, .whole 4⟩ titledTokens titledSteps =
      .ok titledSteps := by
    unfold Blocks.chain
    simp only [hts]
    rfl
  have hchain := chain_of_blocks (s := ⟨titled, titledTokens, titledOutline, .whole 4⟩)
    (p := ⟨1, 0⟩) hheadings hblocks
  have hasc : Ascending titledOutline :=
    List.pairwise_pair.mpr fun m n hm hn => by
      cases hm
      cases hn
      decide
  exact ⟨rfl, hasc, hts, titled_undivided, by decide, _, _, _, haround, hchain, by decide⟩

end Selection

end Concentric
