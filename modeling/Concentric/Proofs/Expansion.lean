import Concentric.Proofs.StrictNesting
import Concentric.Proofs.Undivided

/-! No step is lost. Where the blocks around a line are no lists and no heading divides them, the
chain of a position has the steps of the headings and after them, inwards, one step for each block,
but for those that are there already. -/

namespace Concentric

/-! ## Steps at the inner end -/

/-- Puts a span at the inner end of a chain, unless it is there already. -/
def Chain.addInner (c : Chain) (s : Span) : Chain :=
  if c.head?.map (·.span) = some s then c else .fresh s :: c

namespace Rows

/-- Puts lines at the inner end of a chain of rows, unless they are there already. -/
def addInner (rs : List Rows) (r : Rows) : List Rows :=
  if rs.head? = some r then rs else r :: rs

section

variable {d : Document} {r : Rows} {rs qs : List Rows}

theorem head_addInner (rs : List Rows) (r : Rows) : (addInner rs r).head? = some r := by
  unfold addInner
  split
  · assumption
  · rfl

theorem addInner_span (hr : r.Proper d) (hrs : ∀ p ∈ rs.head?, p.Proper d) :
    Chain.addInner (rs.map (step d)) (r.span d) = (addInner rs r).map (step d) := by
  cases rs with
  | nil => rfl
  | cons p outer =>
    have hiff : some (p.span d) = some (r.span d) ↔ some p = some r := by
      rw [Option.some_inj, Option.some_inj]
      exact span_inj (hrs p rfl) hr
    show (if some (p.span d) = some (r.span d) then (p :: outer).map (step d) else _) =
      (if some p = some r then p :: outer else r :: p :: outer).map (step d)
    simp only [hiff]
    split <;> rfl

theorem foldl_addInner_span (hqs : ∀ q ∈ qs, q.Proper d) (hrs : ∀ p ∈ rs.head?, p.Proper d) :
    (qs.map (span d)).foldl Chain.addInner (rs.map (step d)) =
      (qs.foldl addInner rs).map (step d) := by
  induction qs generalizing rs with
  | nil => rfl
  | cons q qs ih =>
    have hq := hqs q List.mem_cons_self
    rw [List.map_cons, List.foldl_cons, List.foldl_cons, addInner_span hq hrs]
    refine ih (fun p hp => hqs p (List.mem_cons_of_mem _ hp)) fun p hp => ?_
    rw [head_addInner] at hp
    exact Option.mem_some.mp hp ▸ hq

/-- What is added from the outside inwards lies strictly inwards, down from the innermost step that
was there. -/
theorem foldl_addInner_nested (hrs : ∀ q ∈ qs, ∀ p ∈ rs.head?, q.Within p)
    (hqs : qs.Pairwise fun q q' => q'.Within q) :
    ∃ news, qs.foldl addInner rs = news ++ rs ∧ (∀ r ∈ news, r ∈ qs) ∧
      (news ++ rs.take 1).IsChain Inside := by
  induction qs generalizing rs with
  | nil =>
    refine ⟨[], rfl, fun r hr => absurd hr List.not_mem_nil, ?_⟩
    cases rs with
    | nil => exact .nil
    | cons p outer => exact .singleton p
  | cons q qs ih =>
    obtain ⟨hbelow, hrest⟩ := List.pairwise_cons.mp hqs
    obtain ⟨news, heq, hmem, hchain⟩ := @ih (addInner rs q) (fun q' hq' p hp => by
      rw [head_addInner] at hp
      exact Option.mem_some.mp hp ▸ hbelow q' hq') hrest
    rw [List.foldl_cons, heq]
    by_cases hhead : rs.head? = some q
    · have hsame : addInner rs q = rs := if_pos hhead
      rw [hsame] at hchain ⊢
      exact ⟨news, rfl, fun r hr => List.mem_cons_of_mem _ (hmem r hr), hchain⟩
    · have hpush : addInner rs q = q :: rs := if_neg hhead
      rw [hpush] at hchain ⊢
      refine ⟨news ++ [q], by rw [List.append_assoc]; rfl, fun r hr => ?_, ?_⟩
      · rcases List.mem_append.mp hr with hr | hr
        · exact List.mem_cons_of_mem _ (hmem r hr)
        · exact List.mem_singleton.mp hr ▸ List.mem_cons_self
      cases rs with
      | nil => exact (List.append_nil _).symm ▸ hchain
      | cons p outer =>
        have hin : q.Inside p := by
          refine ⟨hrs q List.mem_cons_self p rfl, ?_⟩
          rintro rfl
          exact hhead rfl
        have hlink : ([q] ++ [p]).IsChain Inside := .cons_cons hin (.singleton p)
        exact hchain.append_overlap hlink (List.cons_ne_nil _ _)

/-! ## Joins within the innermost rows -/

theorem putPlain_eq_addInner (hin : ∀ p ∈ rs.head?, r.Within p) :
    r.putPlain rs = addInner rs r := by
  cases rs with
  | nil => rfl
  | cons p outer =>
    simp only [putPlain, addInner, relation_of_within (hin p rfl), List.head?_cons, Option.some_inj]
    by_cases heq : p = r
    · simp only [heq, if_true]
    · simp only [heq, if_false]

theorem putFence_eq_addInner {content : Option Rows} (hin : ∀ p ∈ rs.head?, r.Within p)
    (hc : ∀ c ∈ content, c.Inside r) :
    r.putFence content rs = (r :: content.toList).foldl addInner rs := by
  -- the content is never there already once the fence is
  have hcontent : ∀ outer, content.toList.foldl addInner (r :: outer) =
      content.toList ++ r :: outer := by
    intro outer
    cases content with
    | none => rfl
    | some c =>
      have hne : ¬ some r = some c := fun h => (hc c rfl).2 (Option.some.inj h).symm
      exact if_neg hne
  rw [List.foldl_cons]
  cases rs with
  | nil => exact (hcontent []).symm
  | cons p outer =>
    simp only [putFence, addInner, relation_of_within (hin p rfl), List.head?_cons, Option.some_inj]
    by_cases heq : p = r
    · simp only [heq, if_true]
      exact (hcontent outer).symm
    · simp only [heq, if_false]
      exact (hcontent (p :: outer)).symm

end

end Rows

/-! ## Blocks -/

namespace Token

/-- The lines that a block adds around a line, from the outside inwards: all its lines, and of a
fence those between its marks too; of a paragraph of two lines the line alone. -/
def layers (line : Nat) (t : Token) : List Rows :=
  if t.isFence then t.rows :: (t.markedRows? line).toList
  else if t.isPair then [⟨line, line⟩] else [t.rows]

section

variable {d : Document} {line : Nat} {t : Token} {rs : List Rows}

theorem layers_of_plain (h : t.isFence = false ∧ t.isPair = false) : t.layers line = [t.rows] := by
  unfold layers
  rw [h.1, h.2]
  rfl

theorem Lies.layers_at (h : t.Lies d line) : ∀ r ∈ t.layers line, r.At d line := by
  intro r hr
  unfold layers at hr
  split at hr
  · rcases List.mem_cons.mp hr with rfl | hr
    · exact h.rows_at
    · exact h.markedRows_at r (Option.mem_toList.mp hr)
  · split at hr
    · obtain rfl := List.mem_singleton.mp hr
      exact ⟨Nat.le_refl _, Nat.le_refl _, Nat.lt_of_le_of_lt h.rows_at.le_last h.rows_at.last_lt⟩
    · obtain rfl := List.mem_singleton.mp hr
      exact h.rows_at

theorem Lies.layers_within (h : t.Lies d line) : ∀ r ∈ t.layers line, r.Within t.rows := by
  intro r hr
  unfold layers at hr
  split at hr
  · rcases List.mem_cons.mp hr with rfl | hr
    · exact ⟨Nat.le_refl _, Nat.le_refl _⟩
    · exact (t.markedRows_inside line r (Option.mem_toList.mp hr)).1
  · split at hr
    · obtain rfl := List.mem_singleton.mp hr
      exact h.pair_within
    · obtain rfl := List.mem_singleton.mp hr
      exact ⟨Nat.le_refl _, Nat.le_refl _⟩

theorem layers_pairwise (t : Token) (line : Nat) :
    (t.layers line).Pairwise fun q q' => q'.Within q := by
  unfold layers
  split
  · refine .cons (fun r hr => ?_) ?_
    · exact (t.markedRows_inside line r (Option.mem_toList.mp hr)).1
    · cases t.markedRows? line with
      | none => exact .nil
      | some c => exact List.pairwise_singleton _ c
  · split <;> exact List.pairwise_singleton _ _

/-- Within the innermost rows a block adds its layers. -/
theorem Lies.put_eq (h : t.Lies d line) (hstart : d.hasBlank t.first = false)
    (hin : ∀ p ∈ rs.head?, t.rows.Within p) :
    t.put d line rs = (t.layers line).foldl Rows.addInner rs := by
  unfold put layers
  by_cases hf : t.isFence = true
  · rw [if_pos hf, if_pos hf]
    exact Rows.putFence_eq_addInner hin (t.markedRows_inside line)
  · rw [if_neg hf, if_neg hf, plainRows_eq hstart]
    split
    · exact Rows.putPlain_eq_addInner fun p hp => h.pair_within.trans (hin p hp)
    · exact Rows.putPlain_eq_addInner hin

end

end Token

section

variable {d : Document} {line : Nat} {ts : List Token} {rs : List Rows}

/-- The layers of blocks around a line go inwards. -/
theorem Layered.layers_pairwise (h : Layered d line ts) :
    (ts.flatMap (Token.layers line)).Pairwise fun q q' => q'.Within q := by
  refine List.pairwise_flatMap.mpr ⟨fun t _ => t.layers_pairwise line, ?_⟩
  refine (h.within.and h.leaf).imp_of_mem ?_
  intro t u ht hu ⟨hwithin, hplain⟩ q hq q' hq'
  rw [Token.layers_of_plain hplain] at hq
  obtain rfl := List.mem_singleton.mp hq
  exact ((h.lies u hu).layers_within q' hq').trans hwithin

/-- Blocks on their own, each within the one before, add their layers one after another. -/
theorem Layered.put_eq (h : Layered d line ts)
    (hin : ∀ p ∈ rs.head?, ∀ t ∈ ts, t.rows.Within p) :
    ts.foldl (fun rs t => t.put d line rs) rs =
      (ts.flatMap (Token.layers line)).foldl Rows.addInner rs := by
  induction ts generalizing rs with
  | nil => rfl
  | cons t ts ih =>
    have ht := h.lies t List.mem_cons_self
    rw [List.foldl_cons, List.flatMap_cons, List.foldl_append,
      ht.put_eq (h.starts t List.mem_cons_self) fun p hp => hin p hp t List.mem_cons_self]
    refine ih h.tail fun p hp u hu => ?_
    rcases h.plain_or_last with hplain | rfl
    · rw [Token.layers_of_plain hplain] at hp
      rw [List.foldl_cons, List.foldl_nil, Rows.head_addInner] at hp
      exact Option.mem_some.mp hp ▸ h.rows_within u hu
    · cases hu

/-- Carrying out moves for blocks on their own is a run over rows. -/
theorem Layered.carryOut_alone (cap : Value) (h : Layered d line ts)
    (hrs : ∀ p ∈ rs.head?, p.At d line) :
    Blocks.carryOut ⟨d, line, cap⟩ (rs.map (Rows.step d)) (ts.map Move.alone) =
      .ok ((ts.foldl (fun rs t => t.put d line rs) rs).map (Rows.step d)) := by
  have hjoins : ∀ m ∈ ts.map Move.alone, m.Joins d line (Rows.At d line) := by
    intro m hm
    obtain ⟨t, ht, rfl⟩ := List.mem_map.mp hm
    exact .alone (h.labelled t ht).name (h.lies t ht) fun _ hb =>
      absurd ((h.starts t ht).symm.trans hb) Bool.noConfusion
  rw [Move.Joins.carryOut_eq hjoins hrs]
  unfold Move.putAll
  rw [List.foldl_map]
  rfl

end

namespace Move

variable {ts : List Token}

theorem mixed_eq_alone (cap : Value) (h : ∀ t ∈ ts, t.isList = false) :
    mixed cap ts = ts.map alone := by
  induction ts with
  | nil => rfl
  | cons t ts ih =>
    have ht : ¬ t.isList = true := Bool.eq_false_iff.mp (h t List.mem_cons_self)
    unfold mixed
    rw [if_neg ht, ih fun u hu => h u (List.mem_cons_of_mem _ hu)]
    rfl

theorem all_eq_alone (cap : Value) (seeded : Bool) (h : ∀ t ∈ ts, t.isList = false) :
    all cap seeded ts = ts.map alone := by
  cases ts with
  | nil => rfl
  | cons t ts =>
    cases seeded with
    | true => exact mixed_eq_alone cap h
    | false =>
      show alone t :: mixed cap ts = _
      rw [mixed_eq_alone cap fun u hu => h u (List.mem_cons_of_mem _ hu)]
      rfl

end Move

namespace Selection

open Outline Headings

/-- Where the blocks around a position are no lists and no heading divides them, the chain of the
position has all steps of the headings, and inwards of them those of the blocks, each strictly
within the step before it. -/
theorem chain_expands {d : Document} {source tokens ts : List Token} {outline : List Heading}
    {cap : Numeral} {p : Position} (ho : ofTokens d source = .ok outline)
    (ha : Ascends d outline) (hts : Token.around id p.line tokens = .ok ts)
    (hu : Undivided d outline ts) (hlists : ∀ t ∈ ts, t.isList = false) :
    ∃ headings news, Headings.chain d outline p = .ok headings ∧
      chain ⟨d, tokens, outline, cap⟩ p = .ok (news ++ headings) ∧
      news ++ headings =
        ((ts.flatMap (Token.layers p.line)).map (Rows.span d)).foldl Chain.addInner headings ∧
      (∀ r ∈ ts.flatMap (Token.layers p.line), r.At d p.line) ∧
      Chain.StrictlyNested (news ++ headings.take 1) := by
  have hs := ha.sectioned ho
  have hl := hu.layered hts
  have hat := rowsAround_at hs p.line
  have hhead : ∀ r ∈ (rowsAround outline p.line).head?, r.At d p.line :=
    fun r hr => hat r (List.mem_of_mem_head? hr)
  have hin := hu.inSection hs hl.lies
  have hlayers : ∀ r ∈ ts.flatMap (Token.layers p.line), r.At d p.line := by
    intro r hr
    obtain ⟨t, ht, hr⟩ := List.mem_flatMap.mp hr
    exact (hl.lies t ht).layers_at r hr
  obtain ⟨news, hnews, hmem, hchain⟩ := Rows.foldl_addInner_nested (fun q hq r hr => by
    obtain ⟨t, ht, hq⟩ := List.mem_flatMap.mp hq
    exact ((hl.lies t ht).layers_within q hq).trans (hin r hr t ht)) hl.layers_pairwise
  have hcarried := hl.carryOut_alone (.ofNumeral cap) hhead
  rw [hl.put_eq hin, hnews] at hcarried
  have hspans := Rows.foldl_addInner_span (fun q hq => (hlayers q hq).proper)
    fun r hr => (hhead r hr).proper
  refine ⟨_, news.map (Rows.step d), Headings.chain_eq hs p, ?_, ?_, hlayers, ?_⟩
  · rw [← List.map_append]
    refine chain_of_run hs hts ?_ fun hne => List.append_ne_nil_of_right_ne_nil _ hne
    rw [Move.all_eq_alone _ _ hlists]
    exact hcarried
  · rw [hspans, hnews, List.map_append]
  · rw [← List.map_take, ← List.map_append]
    refine (strictlyNested_iff fun r hr => ?_).mpr hchain
    rcases List.mem_append.mp hr with hr | hr
    · exact (hlayers r (hmem r hr)).proper
    · exact (hat r (List.mem_of_mem_take hr)).proper

/-- A heading with a quotation of one paragraph. -/
def quoted : Document := .ofText "# Q\n> a\n> b" "u" "markdown" (.whole 1) "h"

def quotedBlocks : List Token :=
  [⟨"blockquote_open", 0, 1, 3, ""⟩, ⟨"paragraph_open", 1, 1, 3, "p"⟩].map Token.Sketch.token

def quotedTokens : List Token := Token.Sketch.token ⟨"heading_open", 0, 0, 1, "h1"⟩ :: quotedBlocks

def quotedOutline : List Heading :=
  [⟨1, .whole 0, "", "section", .between ⟨0, 0⟩ ⟨2, 3⟩⟩]

theorem quoted_undivided : Undivided quoted quotedOutline quotedBlocks :=
  ⟨fun t ht => (Token.typed_of_sketches _ t ht).labelled, by decide, by decide, by decide,
    by decide, by decide⟩

/-- The quotation is the content of the section and no step of its own, and of its paragraph there
is the last line. -/
theorem quoted_expands : chain ⟨quoted, quotedTokens, quotedOutline, .whole 4⟩ ⟨2, 0⟩ =
    .ok ([⟨2, 2⟩, ⟨1, 2⟩, ⟨0, 2⟩].map (Rows.step quoted)) := by
  have ho : ofTokens quoted quotedTokens = .ok quotedOutline := rfl
  have ha : Ascends quoted quotedOutline := .of_lines [0] rfl (by decide) (by decide)
  have hts : Token.around id 2 quotedTokens = .ok quotedBlocks :=
    Token.around_of_pairwise (by decide) (by decide)
  obtain ⟨headings, news, hheadings, hchain, heq, -⟩ :=
    @chain_expands _ _ _ _ _ (.whole 4) ⟨2, 0⟩ ho ha hts quoted_undivided (by decide)
  have hrows : Headings.chain quoted quotedOutline ⟨2, 0⟩ =
      .ok ([⟨1, 2⟩, ⟨0, 2⟩].map (Rows.step quoted)) := Headings.chain_eq (ha.sectioned ho) ⟨2, 0⟩
  obtain rfl := Except.ok.inj (hrows.symm.trans hheadings)
  rw [hchain, heq]
  rfl

/-! ## Headings outside of the document -/

def oneLine : Document := .ofText "x" "u" "markdown" (.whole 1) "h"

def oneLineBlocks : List Token := [⟨"paragraph_open", 0, 0, 1, "p"⟩].map Token.Sketch.token

/-- The tokens of a heading beyond the line, and of the line. -/
def oneLineTokens : List Token :=
  Token.Sketch.token ⟨"heading_open", 0, 3, 4, "h1"⟩ :: oneLineBlocks

def oneLineOutline : List Heading :=
  [⟨1, .whole 3, "", "section", .between ⟨3, 0⟩ ⟨0, 1⟩⟩]

def oneLineSteps : Chain := [.fresh (.between ⟨1, 1⟩ ⟨3, 0⟩), .fresh (.between ⟨0, 1⟩ ⟨3, 0⟩)]

theorem oneLine_undivided : Undivided oneLine oneLineOutline oneLineBlocks :=
  ⟨fun t ht => (Token.typed_of_sketches _ t ht).labelled, by decide, by decide, by decide,
    by decide, by decide⟩

/-- The section of a heading beyond the last line goes back to that line, and the block there is
lost. -/
theorem step_lost : ofTokens oneLine oneLineTokens = .ok oneLineOutline ∧
    Ascending oneLineOutline ∧ Token.around id 0 oneLineTokens = .ok oneLineBlocks ∧
    Undivided oneLine oneLineOutline oneLineBlocks ∧ (∀ t ∈ oneLineBlocks, t.isList = false) ∧
    ∃ headings c, Headings.chain oneLine oneLineOutline ⟨0, 0⟩ = .ok headings ∧
      chain ⟨oneLine, oneLineTokens, oneLineOutline, .whole 4⟩ ⟨0, 0⟩ = .ok c ∧
      c ≠ ((oneLineBlocks.flatMap (Token.layers 0)).map (Rows.span oneLine)).foldl
        Chain.addInner headings := by
  have hts : Token.around id 0 oneLineTokens = .ok oneLineBlocks :=
    Token.around_of_pairwise (by decide) (by decide)
  have haround : Headings.around id 0 oneLineOutline = .ok oneLineOutline :=
    around_of_ascending (f := fun _ => 3) (by decide) (List.pairwise_singleton _ _) 0
  have hheadings : Headings.chain oneLine oneLineOutline ⟨0, 0⟩ = .ok oneLineSteps := by
    unfold Headings.chain
    rw [haround]
    rfl
  have hblocks : Blocks.chain ⟨oneLine, 0, .whole 4⟩ oneLineTokens oneLineSteps =
      .ok oneLineSteps := by
    unfold Blocks.chain
    simp only [hts]
    rfl
  have hchain := chain_of_blocks (s := ⟨oneLine, oneLineTokens, oneLineOutline, .whole 4⟩)
    (p := ⟨0, 0⟩) hheadings hblocks
  exact ⟨rfl, List.pairwise_singleton _ _, hts, oneLine_undivided, by decide, _, _, hheadings,
    hchain, by decide⟩

end Selection

end Concentric
