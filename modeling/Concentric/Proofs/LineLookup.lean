import Concentric.Chain.LookUps
import Concentric.Proofs.ChainStarts

/-! Chains whatever lines the tokens claim. No look-up fails, so a chain of blocks is made from any
tokens and any seed, and it has a step as soon as there is a block around the line. -/

namespace Concentric

/-! ## Chains with a step -/

namespace Block

variable (site : Site) (b : Block) (chain : Chain)

theorem joinPlain_ne_nil (s : Span) : joinPlain s chain ≠ [] := by
  fun_cases joinPlain s chain <;> exact List.cons_ne_nil _ _

theorem joinFence_ne_nil (fence : Span) (content : Option Span) :
    joinFence fence content chain ≠ [] := by
  fun_cases joinFence fence content chain <;> exact List.cons_ne_nil _ _

theorem joinList_ne_nil : joinList site b chain ≠ [] := by
  fun_cases joinList site b chain <;> exact List.cons_ne_nil _ _

/-- No block is put into a chain without leaving a step. -/
theorem join_ne_nil : join site chain b ≠ [] := by
  unfold join joinAlone
  split
  · exact joinList_ne_nil site b chain
  · split
    · exact joinFence_ne_nil chain _ _
    · exact joinPlain_ne_nil chain _

theorem foldl_join_ne_nil {bs : List Block} (h : chain ≠ [] ∨ bs ≠ []) :
    bs.foldl (join site) chain ≠ [] := by
  induction bs generalizing chain with
  | nil => exact h.resolve_right fun hne => hne rfl
  | cons b bs ih => exact ih _ (Or.inl (join_ne_nil site b chain))

end Block

namespace Blocks

/-- The first move without a seed is for a block, whatever it is. -/
theorem blocks_ne_nil {cap : Value} {ts : List Token} {blocks : List Block} (hts : ts ≠ [])
    (h : (Move.all cap false ts).mapM Move.block = .ok blocks) : blocks ≠ [] := by
  cases ts with
  | nil => exact absurd rfl hts
  | cons t rest =>
    have hmoves : Move.all cap false (t :: rest) = .alone t :: Move.mixed cap rest := rfl
    rw [hmoves, List.mapM_cons] at h
    obtain ⟨b, -, h⟩ := Failure.bind_eq_ok.mp h
    obtain ⟨bs, -, h⟩ := Failure.bind_eq_ok.mp h
    cases h
    exact List.cons_ne_nil _ _

/-- Whatever lines the tokens claim to cover, the chain of blocks is made from any seed without a
look-up that fails, and it has no step if and only if no block encloses the cursor. -/
theorem chain_total {site : Site} {tokens : List Token} {cap : Numeral}
    (hcap : site.depthCap.numeral? = some cap) (ht : ∀ t ∈ tokens, t.Labelled) (seed : Chain) :
    ∃ c, lookupChain site tokens seed = .ok c ∧ chain site tokens seed = .ok c ∧
      (c = [] ↔ ∀ t ∈ tokens, t.encloses site.cursor = false) := by
  obtain ⟨blocks, hblocks, hchain⟩ := chain_eq_foldl hcap ht seed
  refine ⟨_, (lookupChain_eq site tokens seed).trans hchain, hchain, ?_⟩
  have hnone : Token.enclosing id site.cursor tokens = [] ↔
      ∀ t ∈ tokens, t.encloses site.cursor = false := by
    rw [← List.perm_nil, (Token.enclosing_perm id site.cursor tokens).congr_left]
    simp
  rw [← hnone]
  split
  · next hempty => exact iff_of_true rfl (List.isEmpty_iff.mp hempty)
  · next hsome =>
    have hfound : Token.enclosing id site.cursor tokens ≠ [] :=
      fun hempty => hsome (List.isEmpty_iff.mpr hempty)
    refine iff_of_false (Block.foldl_join_ne_nil site seed ?_) hfound
    cases seed with
    | nil => exact Or.inr (blocks_ne_nil hfound hblocks)
    | cons p outer => exact Or.inl (List.cons_ne_nil p outer)

def twoLines : Document := .ofText "ab\nc" "u" "markdown" (.whole 1) "h"

/-- Blocks from above the document to far below it, and two whose maps are no pairs of lines. -/
def strayTokens : List Token :=
  [("blockquote_open", .list [.whole (-9), .whole 99]), ("fence", .list [.whole (-2), .whole 7]),
    ("paragraph_open", .text "12"), ("html_block", .nothing)].map
      fun (name, map) => { type := .named name, map := map }

theorem strayTokens_labelled : ∀ t ∈ strayTokens, t.Labelled := by
  intro t ht
  obtain ⟨k, -, rfl⟩ := List.mem_map.mp ht
  exact ⟨⟨_, rfl⟩, ⟨_, rfl⟩⟩

/-- The quotation has both lines of the document, and so has the fence, which adds the line between
its marks. -/
theorem strayTokens_chain :
    lookupChain ⟨twoLines, 5, .whole 1⟩ strayTokens [] =
      .ok ([⟨0, 0⟩, ⟨0, 1⟩].map (Rows.step twoLines)) ∧
    ¬ ∀ t ∈ strayTokens, t.encloses 5 = false := by
  obtain ⟨c, hc, hchain, hiff⟩ :=
    @chain_total ⟨twoLines, 5, .whole 1⟩ strayTokens (.whole 1) rfl strayTokens_labelled []
  have hts : Token.around id 5 strayTokens = .ok (strayTokens.filter (Token.encloses 5)) :=
    Token.around_of_pairwise (by decide) (by decide)
  have hsteps : chain ⟨twoLines, 5, .whole 1⟩ strayTokens [] =
      .ok ([⟨0, 0⟩, ⟨0, 1⟩].map (Rows.step twoLines)) := by
    unfold chain
    rw [hts]
    rfl
  obtain rfl := Except.ok.inj (hsteps.symm.trans hchain)
  exact ⟨hc, fun hnone => absurd (hiff.mpr hnone) (List.cons_ne_nil _ _)⟩

end Blocks

end Concentric
