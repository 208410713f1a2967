import Concentric.Proofs.BlockWalk
import Concentric.Proofs.EnclosingTokens
import Mathlib.Data.List.Nodup

/-! The order of what is given. Tokens and headings are sorted before a chain is built from them, by
lengths and by lines, and where no two of these are the same there is one sorted order only. What is
asked of an outline besides does not depend on its order either: whether a heading stands on a line,
and which of the subsections comes first. So a chain depends on which tokens and headings there are,
and of the position on its line alone. -/

namespace Concentric

/-- Items of different keys are sorted into one order, however they stand. -/
theorem mergeSort_congr {α : Type} {k : α → Int} {le : α → α → Bool} {xs ys : List α}
    (hle : ∀ x y, le x y = true ↔ k x ≤ k y) (hperm : xs.Perm ys)
    (hkeys : ∀ x ∈ xs, ∀ y ∈ xs, k x = k y → x = y) : xs.mergeSort le = ys.mergeSort le := by
  have hsorted : ∀ zs : List α, (zs.mergeSort le).Pairwise fun x y => le x y = true := by
    refine List.pairwise_mergeSort (fun x y z hxy hyz => ?_) fun x y => ?_
    · rw [hle] at *
      exact Int.le_trans hxy hyz
    · rw [Bool.or_eq_true, hle, hle]
      exact Int.le_total _ _
  refine List.Perm.eq_of_pairwise (fun x y hx hy hxy hyx => ?_) (hsorted xs) (hsorted ys)
    ((List.mergeSort_perm xs le).trans (hperm.trans (List.mergeSort_perm ys le).symm))
  have hx : x ∈ xs := (List.mergeSort_perm xs le).mem_iff.mp hx
  have hy : y ∈ xs := hperm.mem_iff.mpr ((List.mergeSort_perm ys le).mem_iff.mp hy)
  exact hkeys x hx y hy (Int.le_antisymm ((hle x y).mp hxy) ((hle y x).mp hyx))

/-! ## Tokens -/

namespace Token

variable {ts us : List Token} {line : Int}

theorem enclosing_of_perm (hperm : ts.Perm us)
    (hlengths : ((ts.filter (encloses line)).map extent).Nodup) :
    enclosing id line ts = enclosing id line us := by
  refine mergeSort_congr (k := fun t => -t.extent) (fun t u => ?_) (hperm.filter _) ?_
  · rw [decide_eq_true_eq, id_eq, id_eq]
    omega
  · intro t ht u hu h
    exact List.inj_on_of_nodup_map hlengths ht hu (Int.neg_inj.mp h)

/-- Blocks of different lengths are found in one order, or none are, if a type cannot be looked
up. -/
theorem around_of_perm (hperm : ts.Perm us)
    (hlengths : ((ts.filter (encloses line)).map extent).Nodup) :
    around id line ts = around id line us := by
  have hkeys := (hperm.filter fun t => (id t).encloses line).all_eq (f := fun t => (id t).type.isKey)
  rw [around_eq, around_eq, enclosing_of_perm hperm hlengths, hkeys]

end Token

/-! ## Headings -/

/-- The line of a heading as a number. -/
def Heading.lineNumber (h : Heading) : Int := h.line.wholeNumber?.getD 0

/-- Each heading stands on a line of a whole number, and no two on one line. -/
structure Outline.Spread (outline : List Heading) : Prop where
  whole : ∀ h ∈ outline, h.line.wholeNumber?.isSome = true
  distinct : (outline.map fun h => h.line.wholeNumber?).Nodup

namespace Outline.Spread

variable {outline hs gs : List Heading}

theorem line_eq (h : Spread outline) :
    ∀ g ∈ outline, g.line.wholeNumber? = some g.lineNumber := by
  intro g hg
  obtain ⟨n, hn⟩ := Option.isSome_iff_exists.mp (h.whole g hg)
  rw [Heading.lineNumber, hn]
  rfl

theorem eq_of_lineNumber (h : Spread outline) {f g : Heading} (hf : f ∈ outline)
    (hg : g ∈ outline) (heq : f.lineNumber = g.lineNumber) : f = g :=
  List.inj_on_of_nodup_map h.distinct hf hg (by rw [h.line_eq f hf, h.line_eq g hg, heq])

theorem sublist (h : Spread outline) (hsub : hs.Sublist outline) : Spread hs :=
  ⟨fun g hg => h.whole g (hsub.mem hg), h.distinct.sublist (hsub.map _)⟩

theorem perm (h : Spread hs) (hperm : hs.Perm gs) : Spread gs :=
  ⟨fun g hg => h.whole g (hperm.mem_iff.mpr hg), (hperm.map _).nodup_iff.mp h.distinct⟩

end Outline.Spread

namespace Headings

open Outline

variable {d : Document} {hs gs cs : List Heading} {h : Heading}

theorem around_of_perm (hperm : hs.Perm gs) (hspread : Spread hs) (line : Nat) :
    around id line hs = around id line gs := by
  have hamong : Spread (hs.filter (covers line)) := hspread.sublist List.filter_sublist
  rw [around_eq_mergeSort hspread.line_eq, around_eq_mergeSort (hspread.perm hperm).line_eq]
  refine congrArg Except.ok (mergeSort_congr (fun g h => decide_eq_true_iff) (hperm.filter _) ?_)
  exact fun g hg h hh => hamong.eq_of_lineNumber hg hh

/-- The heading that comes first has the least line. -/
theorem firstOf_least (hspread : Spread (h :: cs)) : ∃ g ∈ h :: cs, firstOf h cs = .ok g ∧
    ∀ c ∈ h :: cs, g.lineNumber ≤ c.lineNumber := by
  induction cs generalizing h with
  | nil => exact ⟨h, List.mem_cons_self, rfl, by simp⟩
  | cons c cs ih =>
    have hline := hspread.line_eq
    have hless := Value.lessThan_of_wholeNumber? (hline c (by simp)) (hline h (by simp))
    unfold firstOf
    rw [hless, Failure.ok_bind]
    by_cases hlt : c.lineNumber < h.lineNumber
    · obtain ⟨g, hg, hfirst, hleast⟩ := ih (hspread.sublist (List.sublist_cons_self h _))
      refine ⟨g, List.mem_cons_of_mem h hg, by rw [if_pos (decide_eq_true hlt), hfirst], ?_⟩
      have := hleast c List.mem_cons_self
      exact List.forall_mem_cons.mpr ⟨by omega, hleast⟩
    · obtain ⟨g, hg, hfirst, hleast⟩ := ih (hspread.sublist ((List.sublist_cons_self c _).cons_cons h))
      refine ⟨g, ?_, by rw [if_neg (by simpa using hlt), hfirst], ?_⟩
      · exact (List.mem_cons.mp hg).elim (fun heq => heq ▸ List.mem_cons_self) fun hg =>
          List.mem_cons_of_mem h (List.mem_cons_of_mem c hg)
      · obtain ⟨hh, hcs⟩ := List.forall_mem_cons.mp hleast
        exact List.forall_mem_cons.mpr ⟨hh, List.forall_mem_cons.mpr ⟨by omega, hcs⟩⟩

theorem firstOf_of_perm {g : Heading} (hperm : (h :: hs).Perm (g :: gs))
    (hspread : Spread (h :: hs)) : firstOf h hs = firstOf g gs := by
  obtain ⟨x, hx, hfirst, hleast⟩ := firstOf_least hspread
  obtain ⟨y, hy, hfirst', hleast'⟩ := firstOf_least (hspread.perm hperm)
  have hxy := hleast' x (hperm.mem_iff.mp hx)
  have hyx := hleast y (hperm.mem_iff.mpr hy)
  have heq : x = y :=
    hspread.eq_of_lineNumber hx (hperm.mem_iff.mpr hy) (Int.le_antisymm hyx hxy)
  rw [hfirst, hfirst', heq]

theorem boundary_of_perm (hperm : hs.Perm gs) (hspread : Spread hs) (h : Heading) :
    boundary d h hs = boundary d h gs := by
  have hchildren : (children h hs).Perm (children h gs) := hperm.filter _
  have hamong : Spread (children h hs) := hspread.sublist List.filter_sublist
  unfold boundary
  cases hcs : children h hs with
  | nil =>
    rw [hcs, List.nil_perm] at hchildren
    rw [hchildren]
  | cons c cs =>
    cases hcs' : children h gs with
    | nil =>
      rw [hcs', List.perm_nil, hcs] at hchildren
      cases hchildren
    | cons c' cs' =>
      rw [hcs] at hamong
      rw [hcs, hcs'] at hchildren
      dsimp only
      rw [firstOf_of_perm hchildren hamong]

/-- Of the outline a chain is built from nothing counts but where sections are cut off. -/
theorem build_congr (hcut : ∀ h, boundary d h hs = boundary d h gs) (onLine : Bool) (outer : Chain)
    (stack : List Heading) : build d hs onLine outer stack = build d gs onLine outer stack := by
  induction stack generalizing outer with
  | nil => rfl
  | cons h stack ih =>
    cases stack with
    | nil =>
      unfold build
      rw [hcut h]
    | cons g rest =>
      unfold build
      exact ih _

/-- Headings on different lines have one chain, in whatever order the outline has them. -/
theorem chain_congr (hperm : hs.Perm gs) (hspread : Spread hs) {p q : Position}
    (hline : p.line = q.line) : chain d hs p = chain d gs q := by
  have honLine : isHeadingLine hs q.line = isHeadingLine gs q.line := hperm.any_eq
  unfold chain
  rw [hline, around_of_perm hperm hspread, honLine]
  exact congrArg _ (funext fun stack => build_congr (boundary_of_perm hperm hspread) _ _ stack)

end Headings

/-! ## Selections -/

namespace Selection

/-- Where headings stand on different lines and the blocks around a line are of different lengths,
the chain of a position does not depend on the order of the tokens and of the headings, nor on
where on its line the position is. If there is no chain there is none for the same reason. -/
theorem chain_of_perm {d : Document} {cap : Numeral} {ts us : List Token} {hs gs : List Heading}
    {p q : Position} (htokens : ts.Perm us) (houtline : hs.Perm gs)
    (hspread : Outline.Spread hs) (hline : p.line = q.line)
    (hlengths : ((ts.filter (Token.encloses p.line)).map Token.extent).Nodup) :
    chain ⟨d, ts, hs, cap⟩ p = chain ⟨d, us, gs, cap⟩ q := by
  have hheadings := Headings.chain_congr (d := d) houtline hspread hline
  have hblocks : ∀ seed, Blocks.chain ⟨d, p.line, .ofNumeral cap⟩ ts seed =
      Blocks.chain ⟨d, q.line, .ofNumeral cap⟩ us seed := by
    intro seed
    unfold Blocks.chain
    rw [← hline, Token.around_of_perm htokens hlengths]
  unfold chain site
  rw [hheadings]
  simp only [hblocks]

/-- A quoted fence under a heading, with a subsection after it. -/
def fenced : Document :=
  .ofText "# A\n> ```\n> b\n> c\n> ```\n> d\n## E\ne" "u" "markdown" (.whole 1) "h"

def fencedBlocks : List Token :=
  [⟨"blockquote_open", 0, 1, 6, ""⟩, ⟨"fence", 1, 1, 5, "code"⟩].map Token.Sketch.token

def fencedTokens : List Token :=
  Token.Sketch.token ⟨"heading_open", 0, 0, 1, "h1"⟩ :: fencedBlocks ++
    [⟨"paragraph_open", 1, 5, 6, "p"⟩, ⟨"heading_open", 0, 6, 7, "h2"⟩,
      ⟨"paragraph_open", 0, 7, 8, "p"⟩].map Token.Sketch.token

def fencedOutline : List Heading :=
  [⟨1, .whole 0, "", "section", .between ⟨0, 0⟩ ⟨7, 1⟩⟩,
    ⟨2, .whole 6, "", "section-1", .between ⟨6, 0⟩ ⟨7, 1⟩⟩]

/-- With the tokens and the headings from last to first the chain has the same steps: the content of
the fence, the fence, the quotation, and the section without and with its subsection. -/
theorem fenced_reversed : fencedTokens.reverse.Perm fencedTokens ∧
    fencedOutline.reverse.Perm fencedOutline ∧ Outline.Spread fencedOutline.reverse ∧
    ((fencedTokens.reverse.filter (Token.encloses 2)).map Token.extent).Nodup ∧
    chain ⟨fenced, fencedTokens.reverse, fencedOutline.reverse, .whole 4⟩ ⟨2, 1⟩ =
      .ok ([⟨2, 3⟩, ⟨1, 4⟩, ⟨1, 5⟩, ⟨1, 7⟩, ⟨0, 7⟩].map (Rows.step fenced)) := by
  have hspread : Outline.Spread fencedOutline.reverse := ⟨by decide, by decide⟩
  have hlengths : ((fencedTokens.reverse.filter (Token.encloses 2)).map Token.extent).Nodup := by
    decide
  have hts : Token.around id 2 fencedTokens = .ok fencedBlocks :=
    Token.around_of_pairwise (by decide) (by decide)
  have haround : Headings.around id 2 fencedOutline = .ok (fencedOutline.take 1) :=
    Outline.around_of_ascending (f := Heading.lineNumber) (by decide) (by decide) 2
  have hheadings : Headings.chain fenced fencedOutline ⟨2, 0⟩ =
      .ok ([⟨1, 5⟩, ⟨1, 7⟩, ⟨0, 7⟩].map (Rows.step fenced)) := by
    unfold Headings.chain
    rw [haround]
    rfl
  have hblocks : Blocks.chain ⟨fenced, 2, .whole 4⟩ fencedTokens
      ([⟨1, 5⟩, ⟨1, 7⟩, ⟨0, 7⟩].map (Rows.step fenced)) =
        .ok ([⟨2, 3⟩, ⟨1, 4⟩, ⟨1, 5⟩, ⟨1, 7⟩, ⟨0, 7⟩].map (Rows.step fenced)) := by
    unfold Blocks.chain
    simp only [hts]
    rfl
  have hchain := chain_of_blocks (s := ⟨fenced, fencedTokens, fencedOutline, .whole 4⟩)
    (p := ⟨2, 0⟩) hheadings hblocks
  refine ⟨List.reverse_perm _, List.reverse_perm _, hspread, hlengths, ?_⟩
  exact (chain_of_perm (List.reverse_perm _) (List.reverse_perm _) hspread rfl hlengths).trans hchain

end Selection

end Concentric
