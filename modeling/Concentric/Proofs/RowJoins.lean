import Concentric.Chain.Blocks
import Concentric.Proofs.Rows

/-! Joining blocks by lines. A chain of rows takes up the lines of a block just as its spans take
up the block's span, so that a run of joins can be followed on line numbers. Rows on the same lines
are equal, and a plain block that starts above the innermost rows and ends with them adds nothing.
-/

namespace Concentric

namespace Rows

/-! ## Joins of rows -/

/-- Puts the lines of a plain block into a chain of rows. -/
def putPlain (r : Rows) : List Rows → List Rows
  | [] => [r]
  | p :: outer => match relation r p with
    | .contains => r :: p :: outer
    | .extendsOneLine =>
      if r.first = p.first then p :: outer else ⟨r.first, p.last⟩ :: p :: outer
    | .equal | .sameLines | .sharedEndLine | .disjoint => p :: outer

/-- Puts the lines of a fence, and those between its marks, into a chain of rows. -/
def putFence (r : Rows) (content : Option Rows) : List Rows → List Rows
  | [] => content.toList ++ [r]
  | p :: outer => match relation r p with
    | .contains | .sharedEndLine => content.toList ++ r :: p :: outer
    | .equal => content.toList ++ p :: outer
    | .sameLines | .extendsOneLine | .disjoint => p :: outer

/-- Puts the lines of a list into a chain of rows. -/
def putList (r : Rows) : List Rows → List Rows
  | [] => [r]
  | p :: outer =>
    if r.first ≤ p.first + 1 ∧ r.last = p.last then r :: outer else r :: p :: outer

section

variable {d : Document} {line : Nat} {r p : Rows} {rs : List Rows}

theorem relation_ne_sameLines (r p : Rows) : relation r p ≠ .sameLines := by
  unfold relation
  split_ifs <;> exact Relation.noConfusion

theorem last_eq_of_extends (h : relation r p = .extendsOneLine) : r.last = p.last + 1 := by
  unfold relation at h
  split_ifs at h with h1 h2 h3
  exact h3.symm

theorem last_eq_of_sharedEnd (h : relation r p = .sharedEndLine) : r.last = p.last := by
  unfold relation at h
  split_ifs at h with h1 h2 h3 h4
  exact h4.symm

/-! ## Joins of spans -/

/-- Rows that go one line too far are cut off at the end of the others. -/
theorem cut_span (hr : r.Proper d) (hp : p.Proper d) (hlast : r.last = p.last + 1) :
    Span.between (r.span d).start ⟨(r.span d).stop.line - 1, (p.span d).stop.character⟩ =
      span d ⟨r.first, p.last⟩ := by
  have hend : (⟨(r.span d).stop.line - 1, (p.span d).stop.character⟩ : Position) =
      d.lineEnd p.last := by
    rw [hr.stop_line, hp.stop_eq, hlast]
    exact Position.ext (Document.lineEnd_line hp.last_lt).symm rfl
  rw [hr.start_eq, hend]
  rfl

theorem joinPlain_span (hr : r.Proper d)
    (hrs : ∀ p ∈ rs.head?, p.Proper d ∧ (r.last = p.last + 1 → r.first ≤ p.last)) :
    Block.joinPlain (r.span d) (rs.map (step d)) = (r.putPlain rs).map (step d) := by
  cases rs with
  | nil => rfl
  | cons p outer =>
    obtain ⟨hp, hle⟩ := hrs p rfl
    have hstep : (p.step d).span = p.span d := rfl
    unfold putPlain
    simp only [Block.joinPlain, List.map_cons, hstep, classify_span hr hp]
    cases hrel : relation r p with
    | equal => rfl
    | contains => rfl
    | sameLines => exact absurd hrel (relation_ne_sameLines r p)
    | extendsOneLine =>
      -- the end moves up to the last line of the step, and takes its length from there
      have hlast := last_eq_of_extends hrel
      have hcut := cut_span hr hp hlast
      have hproper : (⟨r.first, p.last⟩ : Rows).Proper d := ⟨hle hlast, hp.last_lt⟩
      have hiff : span d ⟨r.first, p.last⟩ = p.span d ↔ r.first = p.first := by
        rw [span_inj hproper hp]
        cases p
        simp
      simp only [hcut, hiff]
      split <;> rfl
    | sharedEndLine =>
      have hlast := last_eq_of_sharedEnd hrel
      have hsame : Span.between (p.span d).start (r.span d).stop = p.span d := by
        rw [hp.start_eq, hr.stop_eq, hlast]
        rfl
      simp only [hsame, if_true]
      rfl
    | disjoint => rfl

theorem joinFence_span {content : Option Rows} (hr : r.Proper d)
    (hrs : ∀ p ∈ rs.head?, p.Proper d) :
    Block.joinFence (r.span d) (content.map (span d)) (rs.map (step d)) =
      (r.putFence content rs).map (step d) := by
  cases rs with
  | nil => cases content <;> rfl
  | cons p outer =>
    have hp := hrs p rfl
    have hstep : (p.step d).span = p.span d := rfl
    unfold putFence
    cases content with
    | none =>
      simp only [Block.joinFence, Option.map_none, List.map_cons, hstep, classify_span hr hp]
      cases hrel : relation r p with
      | sameLines => exact absurd hrel (relation_ne_sameLines r p)
      | _ => rfl
    | some c =>
      simp only [Block.joinFence, Option.map_some, List.map_cons, hstep, classify_span hr hp]
      cases hrel : relation r p with
      | sameLines => exact absurd hrel (relation_ne_sameLines r p)
      | _ => rfl

end

/-! ## What joins put into a chain -/

/-- The second chain has new steps, all with a property, on top of the first one or on top of what
is left of it without its innermost step. -/
def Grows (P : Rows → Prop) (rs rs' : List Rows) : Prop :=
  ∃ news : List Rows, (∀ q ∈ news, P q) ∧ (rs' = news ++ rs ∨ news ≠ [] ∧ rs' = news ++ rs.tail)

section

variable {P : Rows → Prop} {r : Rows} {rs rs' : List Rows}

theorem Grows.refl (rs : List Rows) : Grows P rs rs :=
  ⟨[], fun _ h => absurd h List.not_mem_nil, Or.inl rfl⟩

theorem Grows.push (hr : P r) (rs : List Rows) : Grows P rs (r :: rs) :=
  ⟨[r], fun _ hq => List.mem_singleton.mp hq ▸ hr, Or.inl rfl⟩

theorem Grows.mono {Q : Rows → Prop} (h : Grows P rs rs') (hPQ : ∀ q, P q → Q q) :
    Grows Q rs rs' := by
  obtain ⟨news, hnews, hcase⟩ := h
  exact ⟨news, fun q hq => hPQ q (hnews q hq), hcase⟩

theorem Grows.all (h : Grows P rs rs') (hrs : ∀ p ∈ rs, P p) : ∀ p ∈ rs', P p := by
  obtain ⟨news, hnews, rfl | ⟨-, rfl⟩⟩ := h
  · intro p hp
    exact (List.mem_append.mp hp).elim (hnews p) (hrs p)
  · intro p hp
    exact (List.mem_append.mp hp).elim (hnews p) fun hp => hrs p (List.mem_of_mem_tail hp)

theorem Grows.head (h : Grows P rs rs') (hrs : ∀ p ∈ rs.head?, P p) : ∀ p ∈ rs'.head?, P p := by
  obtain ⟨news, hnews, hcase⟩ := h
  cases news with
  | nil =>
    rcases hcase with rfl | ⟨hne, -⟩
    · exact hrs
    · exact absurd rfl hne
  | cons q news =>
    intro p hp
    rcases hcase with rfl | ⟨-, rfl⟩
    · obtain rfl := Option.mem_some.mp hp
      exact hnews _ List.mem_cons_self
    · obtain rfl := Option.mem_some.mp hp
      exact hnews _ List.mem_cons_self

theorem Grows.ne_nil (h : Grows P rs rs') (hne : rs ≠ []) : rs' ≠ [] := by
  obtain ⟨news, -, rfl | ⟨hnews, rfl⟩⟩ := h
  · exact List.append_ne_nil_of_right_ne_nil _ hne
  · exact List.append_ne_nil_of_left_ne_nil hnews _

theorem putPlain_grows (hr : P r)
    (hlast : ∀ p ∈ rs.head?, r.last = p.last + 1 → P ⟨r.first, p.last⟩) :
    Grows P rs (r.putPlain rs) := by
  cases rs with
  | nil => exact .push hr []
  | cons p outer =>
    simp only [putPlain]
    split
    · exact .push hr _
    · next hrel =>
      split
      · exact .refl _
      · exact .push (hlast p rfl (last_eq_of_extends hrel)) _
    all_goals exact .refl _

theorem putFence_grows {content : Option Rows} (hr : P r) (hc : ∀ c ∈ content, P c) :
    Grows P rs (r.putFence content rs) := by
  have hcontent : ∀ q ∈ content.toList, P q := fun q hq => hc q (Option.mem_toList.mp hq)
  have both : ∀ q ∈ content.toList ++ [r], P q := by
    intro q hq
    rcases List.mem_append.mp hq with hq | hq
    · exact hcontent q hq
    · rw [List.mem_singleton.mp hq]
      exact hr
  cases rs with
  | nil => exact ⟨_, both, Or.inl (List.append_nil _).symm⟩
  | cons p outer =>
    simp only [putFence]
    split
    · exact ⟨_, both, Or.inl (by rw [List.append_assoc]; rfl)⟩
    · exact ⟨_, both, Or.inl (by rw [List.append_assoc]; rfl)⟩
    · exact ⟨_, hcontent, Or.inl rfl⟩
    all_goals exact .refl _

theorem head_putList (r : Rows) (rs : List Rows) : (r.putList rs).head? = some r := by
  cases rs with
  | nil => rfl
  | cons p outer =>
    simp only [putList]
    split <;> rfl

theorem putList_grows (hr : P r) : Grows P rs (r.putList rs) := by
  cases rs with
  | nil => exact .push hr []
  | cons p outer =>
    simp only [putList]
    split
    · exact ⟨[r], fun q hq => List.mem_singleton.mp hq ▸ hr, Or.inr ⟨List.cons_ne_nil _ _, rfl⟩⟩
    · exact .push hr _

end

end Rows

end Concentric
