import Concentric.Proofs.TokenRows

/-! Tokens around a line. What is found is every block that covers the line and nothing else, the
longest first. The sort is stable: the blocks of one length are found just as they stand. Of two
nested blocks the longer has the other within, so that lengths alone put nested blocks in their
order. A token that is not found is not missed either: with it or without it the chain of blocks is
the same. -/

namespace Concentric

namespace Token

variable {α : Type} {token : α → Token} {line : Int}

theorem encloses_iff {t : Token} : t.encloses line = true ↔
    ∃ r, t.lines? = some r ∧ r.start ≤ line ∧ line < r.stop ∧
      ∀ s ∈ t.type.name?, s ∉ TokenType.ignored := by
  have hblock : t.isBlock = true ↔ ∀ s ∈ t.type.name?, s ∉ TokenType.ignored := by
    unfold isBlock TokenType.isBlock
    cases t.type.name? <;> simp
  have hhas : ∀ r : LineRange, r.has line = true ↔ r.start ≤ line ∧ line < r.stop := by
    simp [LineRange.has]
  constructor
  · intro h
    obtain ⟨hb, r, hr, hline⟩ := ParserShaped.lines_of_encloses h
    obtain ⟨hstart, hstop⟩ := (hhas r).mp hline
    exact ⟨r, hr, hstart, hstop, hblock.mp hb⟩
  · rintro ⟨r, hr, hstart, hstop, hname⟩
    unfold encloses covers
    rw [hr, hblock.mpr hname, Bool.and_true]
    exact (hhas r).mpr ⟨hstart, hstop⟩

/-- What is passed over though it covers the line has one of the ignored names. -/
theorem isKey_of_covers {t : Token} (hcov : t.covers line = true)
    (hne : t.encloses line = false) : t.type.isKey = true := by
  unfold encloses isBlock TokenType.isBlock at hne
  rw [hcov, Bool.true_and] at hne
  unfold TokenType.name? at hne
  unfold TokenType.isKey
  cases htype : t.type with
  | other v =>
    rw [htype] at hne
    cases hne
  | _ => rfl

/-- Only the types of the blocks that enclose the line need to be looked up. -/
theorem around_eq (token : α → Token) (line : Int) (xs : List α) :
    around token line xs =
      if (xs.filter fun x => (token x).encloses line).all fun x => (token x).type.isKey then
        .ok (enclosing token line xs)
      else .error (.mismatch .use) := by
  have hkey : ∀ t : Token,
      (!t.covers line || t.type.isKey) = (!t.encloses line || t.type.isKey) := by
    intro t
    cases hcov : t.covers line with
    | false =>
      unfold encloses
      rw [hcov]
      rfl
    | true =>
      cases henc : t.encloses line with
      | true => rfl
      | false =>
        rw [isKey_of_covers hcov henc]
        rfl
  unfold around
  simp only [hkey, List.all_filter]

/-! ## Equally long blocks -/

/-- Sorting by a key, the greatest first, keeps the items of one key as they stand. -/
theorem filter_mergeSort (key : α → Int) (xs : List α) (n : Int) :
    ((xs.mergeSort fun x y => decide (key y ≤ key x)).filter fun x => decide (key x = n)) =
      xs.filter fun x => decide (key x = n) := by
  have hsub : (xs.filter fun x => decide (key x = n)).Sublist
      (xs.mergeSort fun x y => decide (key y ≤ key x)) := by
    refine List.sublist_mergeSort (fun x y z h h' => ?_) (fun x y => ?_) ?_ List.filter_sublist
    · simp only [decide_eq_true_eq] at *
      omega
    · simp only [Bool.or_eq_true, decide_eq_true_eq]
      omega
    · refine List.pairwise_of_forall_mem_list fun x hx y hy => ?_
      simp only [List.mem_filter, decide_eq_true_eq] at hx hy ⊢
      omega
  have hkept := hsub.filter fun x => decide (key x = n)
  rw [List.filter_filter] at hkept
  simp only [Bool.and_self] at hkept
  exact (hkept.eq_of_length ((List.mergeSort_perm xs _).filter _).length_eq.symm).symm

/-! ## The order in which blocks are found -/

/-- The second list has the items of the first whose tokens are blocks around the line, each as
often as it stands there, from the longest inwards and equally long ones in their order. -/
structure Inwards (token : α → Token) (line : Int) (xs ys : List α) : Prop where
  perm : ys.Perm (xs.filter fun x => (token x).encloses line)
  mem_iff : ∀ x, x ∈ ys ↔ x ∈ xs ∧ ∃ r, (token x).lines? = some r ∧ r.start ≤ line ∧
    line < r.stop ∧ ∀ s ∈ (token x).type.name?, s ∉ TokenType.ignored
  longest_first : ys.Pairwise fun x y => (token y).extent ≤ (token x).extent
  stable : ∀ n, ys.filter (fun x => decide ((token x).extent = n)) =
    xs.filter fun x => (token x).encloses line && decide ((token x).extent = n)
  within : (ys.Pairwise fun x y => ∀ r ∈ (token x).lines?, ∀ q ∈ (token y).lines?,
      r.Within q ∨ q.Within r) →
    ys.Pairwise fun x y => ∀ r ∈ (token x).lines?, ∀ q ∈ (token y).lines?, q.Within r

theorem enclosing_inwards (token : α → Token) (line : Int) (xs : List α) :
    Inwards token line xs (enclosing token line xs) where
  perm := enclosing_perm token line xs
  mem_iff x := by
    rw [(enclosing_perm token line xs).mem_iff, List.mem_filter, encloses_iff]
  longest_first := pairwise_enclosing token line xs
  stable n := by
    unfold enclosing
    rw [filter_mergeSort (fun x => (token x).extent), List.filter_filter]
    exact List.filter_congr fun x _ => Bool.and_comm _ _
  within hnested := (hnested.and (pairwise_enclosing token line xs)).imp
    fun ⟨hnest, hle⟩ r hr q hq => within_of_extent hle hr hq (hnest r hr q hq)

/-- Tokens that do not enclose the line are not missed. -/
theorem around_congr {ts us : List Token}
    (h : ts.filter (encloses line) = us.filter (encloses line)) :
    around id line ts = around id line us := by
  have hfilter : (ts.filter fun t => (id t).encloses line) =
      us.filter fun t => (id t).encloses line := h
  rw [around_eq, around_eq]
  unfold enclosing
  rw [hfilter]

/-- The blocks around a line are found from the outermost inwards, if their types can be looked up.
Streams that differ by tokens that are no blocks around the line have the same chain of blocks. -/
theorem around_inwards {xs : List α}
    (hkeys : ∀ x ∈ xs, (token x).encloses line = true → (token x).type.isKey = true) :
    (∃ ys, around token line xs = .ok ys ∧ Inwards token line xs ys) ∧
    ∀ ts : List Token, ts.filter (encloses line) = (xs.map token).filter (encloses line) →
      ∀ site : Site, site.cursor = line → ∀ seed : Chain,
        Blocks.chain site ts seed = Blocks.chain site (xs.map token) seed := by
  constructor
  · refine ⟨_, ?_, enclosing_inwards token line xs⟩
    rw [around_eq, if_pos]
    refine List.all_eq_true.mpr fun x hx => ?_
    obtain ⟨hmem, henc⟩ := List.mem_filter.mp hx
    exact hkeys x hmem henc
  · rintro ts hsame site rfl seed
    unfold Blocks.chain
    rw [around_congr hsame]

/-- A list in a quotation, which the stream has last, and text that is no block. -/
def mixedTokens : List Token :=
  [⟨"heading_open", 0, 0, 1, "h1"⟩, ⟨"bullet_list_open", 1, 2, 4, "ul"⟩,
    ⟨"list_item_open", 2, 2, 3, "li"⟩, ⟨"paragraph_open", 3, 2, 3, "p"⟩,
    ⟨"inline", 4, 2, 3, ""⟩, ⟨"blockquote_open", 0, 1, 4, ""⟩].map Sketch.token ++
    [{ type := .named "html_block", map := .list [.whole 1] }]

/-- The quotation comes first, and the item before its paragraph. Without the heading, the text and
the block that has no lines the chain is the same. -/
theorem mixedTokens_inwards :
    (∃ ys, around Prod.fst 2 mixedTokens.zipIdx = .ok ys ∧ ys.map Prod.snd = [5, 1, 2, 3] ∧
      Inwards Prod.fst 2 mixedTokens.zipIdx ys) ∧
    ∀ d seed, Blocks.chain ⟨d, 2, .whole 4⟩ (mixedTokens.filter (encloses 2)) seed =
      Blocks.chain ⟨d, 2, .whole 4⟩ mixedTokens seed := by
  obtain ⟨⟨ys, hys, hin⟩, hsame⟩ :=
    @around_inwards _ Prod.fst 2 mixedTokens.zipIdx (by decide)
  have hfound : (mixedTokens.zipIdx.filter fun x => encloses 2 x.1) =
      [(mixedTokens[1], 1), (mixedTokens[2], 2), (mixedTokens[3], 3), (mixedTokens[5], 5)] := rfl
  have hextents : mixedTokens[1].extent = 2 ∧ mixedTokens[2].extent = 1 ∧
      mixedTokens[3].extent = 1 ∧ mixedTokens[5].extent = 3 := by decide
  have horder : (enclosing Prod.fst 2 mixedTokens.zipIdx).map Prod.snd = [5, 1, 2, 3] := by
    unfold enclosing
    rw [hfound]
    simp [List.mergeSort, hextents]
  refine ⟨⟨ys, hys, around_eq_ok hys ▸ horder, hin⟩, fun d seed => ?_⟩
  rw [List.zipIdx_map_fst] at hsame
  refine hsame _ ?_ ⟨d, 2, .whole 4⟩ rfl seed
  rw [List.filter_filter]
  simp only [Bool.and_self]

end Token

end Concentric
