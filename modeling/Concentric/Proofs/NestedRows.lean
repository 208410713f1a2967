import Concentric.Proofs.BlockWalk
import Mathlib.Data.List.Chain

/-! Runs over nested rows. Where all that a walk asks for lies within the innermost rows of a chain,
joining it neither breaks nor mends a link further out: what is put in lies inside of what was
innermost, and what takes its place is linked as that was. -/

namespace Concentric

namespace Rows

/-- The rows lie within others and are not the same. -/
def Inside (r p : Rows) : Prop := r.Within p ∧ r ≠ p

/-- The outermost of two nested rows with one last line can stand for the other: around a line, what
takes the place of the innermost rows down to their last line is linked just as these are. -/
def Steady (R : Rows → Rows → Prop) (line : Nat) : List Rows → Prop
  | p :: q :: _ => ∀ r : Rows, r.Within p → r.first ≤ line → r.last = p.last → (R r q ↔ R p q)
  | _ => True

/-- A chain has no broken link if and only if the one before had none, and it is steady. -/
structure Keeps (R : Rows → Rows → Prop) (line : Nat) (rs rs' : List Rows) : Prop where
  links : rs'.IsChain R ↔ rs.IsChain R
  steady : Steady R line rs'

section

variable {R : Rows → Rows → Prop} {line : Nat} {r p : Rows} {outer rs rs' rs'' : List Rows}

theorem Within.trans {q : Rows} (h : r.Within p) (h' : p.Within q) : r.Within q :=
  ⟨Nat.le_trans h'.1 h.1, Nat.le_trans h.2 h'.2⟩

theorem Within.antisymm (h : r.Within p) (h' : p.Within r) : r = p := by
  cases r
  cases p
  unfold Within at h h'
  dsimp only at h h'
  congr 1 <;> omega

/-- What lies within rows that lie inside of others lies inside of these. -/
theorem Inside.of_within {q : Rows} (h : r.Within p) (h' : p.Inside q) : r.Inside q := by
  refine ⟨h.trans h'.1, ?_⟩
  rintro rfl
  exact h'.2 (h'.1.antisymm h)

theorem Keeps.refl (hs : Steady R line rs) : Keeps R line rs rs := ⟨Iff.rfl, hs⟩

theorem Keeps.trans (h : Keeps R line rs rs') (h' : Keeps R line rs' rs'') :
    Keeps R line rs rs'' := ⟨h'.links.trans h.links, h'.steady⟩

theorem Keeps.push (hR : ∀ r p : Rows, r.Inside p → R r p) (h : r.Inside p) :
    Keeps R line (p :: outer) (r :: p :: outer) := by
  constructor
  · rw [List.isChain_cons_cons]
    exact and_iff_right (hR r p h)
  · intro r' hin _ _
    exact iff_of_true (hR r' p (Inside.of_within hin h)) (hR r p h)

theorem Keeps.swap (hs : Steady R line (p :: outer)) (hin : r.Within p) (hle : r.first ≤ line)
    (hlast : r.last = p.last) : Keeps R line (p :: outer) (r :: outer) := by
  cases outer with
  | nil => exact ⟨iff_of_true (.singleton _) (.singleton _), trivial⟩
  | cons q outer =>
    have hlink := hs r hin hle hlast
    constructor
    · rw [List.isChain_cons_cons, List.isChain_cons_cons, hlink]
    · intro r' hin' hle' hlast'
      rw [hlink]
      exact hs r' (hin'.trans hin) hle' (hlast'.trans hlast)

theorem relation_of_within (h : r.Within p) :
    relation r p = if p = r then .equal else .contains := by
  unfold relation
  rw [if_pos h]

/-! ## Joins within the innermost rows -/

theorem putPlain_keeps (hR : ∀ r p : Rows, r.Inside p → R r p) (hs : Steady R line (p :: outer))
    (hin : r.Within p) :
    Keeps R line (p :: outer) (r.putPlain (p :: outer)) ∧
      (r.putPlain (p :: outer)).head? = some r := by
  simp only [putPlain, relation_of_within hin]
  by_cases heq : p = r
  · simp only [heq, if_true]
    exact ⟨.refl (heq ▸ hs), rfl⟩
  · simp only [heq, if_false]
    exact ⟨.push hR ⟨hin, fun h => heq h.symm⟩, rfl⟩

theorem putFence_keeps (hR : ∀ r p : Rows, r.Inside p → R r p) (hs : Steady R line (p :: outer))
    {content : Option Rows} (hin : r.Within p) (hc : ∀ c ∈ content, c.Inside r) :
    Keeps R line (p :: outer) (r.putFence content (p :: outer)) := by
  have hcontent : ∀ outer', Steady R line (r :: outer') →
      Keeps R line (r :: outer') (content.toList ++ r :: outer') := by
    intro outer' hs'
    cases content with
    | none => exact .refl hs'
    | some c => exact .push hR (hc c rfl)
  simp only [putFence, relation_of_within hin]
  by_cases heq : p = r
  · subst heq
    simp only [if_true]
    exact hcontent outer hs
  · simp only [heq, if_false]
    have hpush : Keeps R line (p :: outer) (r :: p :: outer) :=
      .push hR ⟨hin, fun h => heq h.symm⟩
    exact hpush.trans (hcontent _ hpush.steady)

theorem putList_keeps (hR : ∀ r p : Rows, r.Inside p → R r p) (hs : Steady R line (p :: outer))
    (hin : r.Within p) (hle : r.first ≤ line) :
    Keeps R line (p :: outer) (r.putList (p :: outer)) ∧
      (r.putList (p :: outer)).head? = some r := by
  simp only [putList]
  split
  · next hcond => exact ⟨.swap hs hin hle hcond.2, rfl⟩
  · next hcond =>
    refine ⟨.push hR ⟨hin, ?_⟩, rfl⟩
    rintro rfl
    exact hcond ⟨Nat.le_succ _, rfl⟩

end

end Rows

/-! ## Runs within the innermost rows -/

/-- Blocks around a line from the outermost inwards. Each starts with text, and what is cut down to
some of its lines, a fence or a paragraph of two, has no other block within. -/
structure Orderly (d : Document) (line : Nat) (ts : List Token) : Prop where
  around : ∀ t ∈ ts, t.At d line
  inner : ts.Pairwise Token.Inner
  starts : ∀ t ∈ ts, d.hasBlank t.first = false
  leaf : ts.Pairwise fun t _ => t.isFence = false ∧ t.isPair = false

section

open Rows

variable {d : Document} {line : Nat} {t : Token} {ts : List Token} {ms : List Move}
  {R : Rows → Rows → Prop} {p : Rows} {outer : List Rows}

theorem Orderly.sublist {us : List Token} (h : Orderly d line ts) (hsub : us.Sublist ts) :
    Orderly d line us :=
  ⟨fun u hu => h.around u (hsub.mem hu), h.inner.sublist hsub,
    fun u hu => h.starts u (hsub.mem hu), h.leaf.sublist hsub⟩

theorem Orderly.tail (h : Orderly d line (t :: ts)) : Orderly d line ts :=
  h.sublist (List.sublist_cons_self t ts)

theorem Orderly.rows_within (h : Orderly d line (t :: ts)) :
    ∀ u ∈ ts, u.rows.Within t.rows := by
  intro u hu
  obtain ⟨hfirst, hstop, -⟩ := (List.pairwise_cons.mp h.inner).1 u hu
  exact ⟨hfirst, Nat.sub_le_sub_right hstop 1⟩

theorem Orderly.typed (h : Orderly d line ts) : ∀ t ∈ ts, t.Typed :=
  fun t ht => (h.around t ht).typed

theorem Orderly.alone_fits (h : Orderly d line ts) : ∀ t ∈ ts, (Move.alone t).Fits d line := by
  intro t ht
  refine .alone (h.around t ht) fun _ hblank => ?_
  rw [h.starts t ht] at hblank
  cases hblank

theorem Orderly.plain_of_mem (h : Orderly d line (t :: ts)) {u : Token} (hu : u ∈ ts) :
    t.isFence = false ∧ t.isPair = false := (List.pairwise_cons.mp h.leaf).1 u hu

namespace Token

/-- Only a list at the top leaves out a line, and only if it has more. -/
theorem At.listRows_eq (h : t.At d line) (hone : t.depth = 0 → t.stop ≤ t.first + 1) :
    t.listRows = t.rows := by
  have := h.first_le
  have := h.lt_stop
  unfold listRows rows
  split
  · next htop =>
    have := hone htop
    congr 1
    omega
  · rfl

theorem listRows_eq_of_inner (h : Orderly d line (t :: ts)) :
    ∀ u ∈ ts, u.isList = true → u.listRows = u.rows := by
  intro u hu _
  obtain ⟨-, -, hdepth⟩ := (List.pairwise_cons.mp h.inner).1 u hu
  exact (h.around u (List.mem_cons_of_mem _ hu)).listRows_eq fun htop => by omega

theorem plainRows_eq (hstart : d.hasBlank t.first = false) :
    t.plainRows d line = if t.isPair then ⟨line, line⟩ else t.rows := by
  unfold plainRows rows
  rw [hstart]
  rfl

/-- A block on its own that starts with text joins as a fence or by its lines, of which a paragraph
of two has the line alone. -/
theorem Lies.joinAlone_eq {l : LineRange} (cap : Value) (h : t.Lies d line)
    (hl : t.lines? = some l) (hstart : d.hasBlank t.first = false) (c : Chain) :
    Block.joinAlone ⟨d, line, cap⟩ ⟨false, t.type, t.level, l⟩ c =
      if t.isFence then
        Block.joinFence (t.rows.span d) ((t.markedRows? line).map (Rows.span d)) c
      else Block.joinPlain (Rows.span d (if t.isPair then ⟨line, line⟩ else t.rows)) c := by
  have hmore : t.isPair = false → d.hasBlank t.first = true → t.first + 1 ≠ t.stop :=
    fun _ hb => absurd (hstart.symm.trans hb) Bool.noConfusion
  unfold Block.joinAlone
  rw [fenceSpan_eq h hl, fenceContent_eq h hl, plainSpan_eq h hl hmore, plainRows_eq hstart]
  rfl

theorem markedRows_inside (t : Token) (line : Nat) : ∀ c ∈ t.markedRows? line, c.Inside t.rows := by
  intro c hc
  unfold markedRows? at hc
  split at hc
  · next hcond =>
    obtain rfl := Option.mem_some.mp hc
    refine ⟨⟨Nat.le_succ _, by unfold rows; dsimp only; omega⟩, fun heq => ?_⟩
    have := congrArg Rows.first heq
    unfold rows at this
    dsimp only at this
    omega
  · cases hc

theorem Lies.pair_within (h : t.Lies d line) : (⟨line, line⟩ : Rows).Within t.rows :=
  ⟨h.rows_at.first_le, h.rows_at.le_last⟩

theorem put_of_isPair (hpair : t.isPair = true) (rs : List Rows) :
    t.put d line rs = putPlain ⟨line, line⟩ rs := by
  have hfence : t.isFence = false := by
    unfold isPair at hpair
    obtain ⟨hname, -⟩ := Bool.and_eq_true_iff.mp hpair
    unfold isFence
    rw [beq_iff_eq.mp hname]
    rfl
  unfold put plainRows
  rw [hfence, hpair]
  rfl

theorem At.put_keeps (h : t.At d line) (hR : ∀ r p : Rows, r.Inside p → R r p)
    (hstart : d.hasBlank t.first = false) (hs : Steady R line (p :: outer))
    (hin : t.rows.Within p) :
    Keeps R line (p :: outer) (t.put d line (p :: outer)) ∧
      (t.isFence = false ∧ t.isPair = false →
        (t.put d line (p :: outer)).head? = some t.rows) := by
  by_cases hpair : t.isPair = true
  · rw [put_of_isPair hpair]
    refine ⟨(putPlain_keeps hR hs (h.toLies.pair_within.trans hin)).1, fun hplain => ?_⟩
    rw [hplain.2] at hpair
    cases hpair
  unfold put
  by_cases hf : t.isFence = true
  · rw [if_pos hf]
    refine ⟨putFence_keeps hR hs hin (t.markedRows_inside line), fun hplain => ?_⟩
    rw [hplain.1] at hf
    cases hf
  · rw [if_neg hf, plainRows_eq hstart, if_neg hpair]
    obtain ⟨hkeeps, hhead⟩ := putPlain_keeps hR hs hin
    exact ⟨hkeeps, fun _ => hhead⟩

/-- Rows that end one line after the innermost ones and start within them are put in without that
line, or not at all. -/
theorem put_overhang (hstart : d.hasBlank t.first = false) (hpair : t.isPair = false)
    (hfirst : p.first ≤ t.rows.first) (hlast : t.rows.last = p.last + 1) :
    t.put d line (p :: outer) = p :: outer ∨
      (⟨t.rows.first, p.last⟩ : Rows).Inside p ∧
        t.put d line (p :: outer) = ⟨t.rows.first, p.last⟩ :: p :: outer := by
  have hrel : relation t.rows p = .extendsOneLine := by
    unfold relation
    rw [if_neg (by rintro rfl; omega), if_neg (fun hin => by have := hin.2; omega),
      if_pos hlast.symm]
  unfold put
  by_cases hf : t.isFence = true
  · -- a fence has no place in the chain
    rw [if_pos hf]
    simp only [putFence, hrel]
    exact Or.inl trivial
  · rw [if_neg hf, plainRows_eq hstart, if_neg (Bool.eq_false_iff.mp hpair)]
    simp only [putPlain, hrel]
    split
    · exact Or.inl rfl
    · next hne =>
      refine Or.inr ⟨⟨⟨hfirst, Nat.le_refl _⟩, fun heq => ?_⟩, rfl⟩
      have hsame := congrArg Rows.first heq
      exact hne hsame

end Token

namespace Move

/-- A run of moves for blocks within the innermost rows keeps the links of a chain. -/
theorem Picks.keeps (hp : Picks ts ms) (ho : Orderly d line ts)
    (hR : ∀ r p : Rows, r.Inside p → R r p)
    (hlist : ∀ t ∈ ts, t.isList = true → t.listRows = t.rows)
    (hs : Steady R line (p :: outer)) (hin : ∀ t ∈ ts, t.rows.Within p) :
    Keeps R line (p :: outer) (putAll d line ms (p :: outer)) := by
  induction hp generalizing p outer with
  | nil => exact .refl hs
  | skip _ ih =>
    exact ih ho.tail (fun u hu => hlist u (List.mem_cons_of_mem _ hu)) hs
      fun u hu => hin u (List.mem_cons_of_mem _ hu)
  | @list t ts ms hl _ ih =>
    have hrows := hlist t List.mem_cons_self hl
    have hle := (ho.around t List.mem_cons_self).first_le
    obtain ⟨hkeeps, hhead⟩ := putList_keeps hR hs (hin t List.mem_cons_self) hle
    obtain ⟨outer', heq⟩ := List.head?_eq_some_iff.mp hhead
    show Keeps R line _ (putAll d line ms (t.listRows.putList (p :: outer)))
    rw [hrows]
    rw [heq] at hkeeps ⊢
    exact hkeeps.trans (ih ho.tail (fun u hu => hlist u (List.mem_cons_of_mem _ hu))
      hkeeps.steady ho.rows_within)
  | @alone t ts ms hp ih =>
    obtain ⟨hkeeps, hhead⟩ := (ho.around t List.mem_cons_self).put_keeps hR
      (ho.starts t List.mem_cons_self) hs (hin t List.mem_cons_self)
    show Keeps R line _ (putAll d line ms (t.put d line (p :: outer)))
    -- only the innermost block may not be the innermost step once it is put in
    cases ts with
    | nil =>
      cases hp
      exact hkeeps
    | cons u ts =>
      obtain ⟨outer', heq⟩ := List.head?_eq_some_iff.mp
        (hhead (ho.plain_of_mem List.mem_cons_self))
      rw [heq] at hkeeps ⊢
      exact hkeeps.trans (ih ho.tail (fun u hu => hlist u (List.mem_cons_of_mem _ hu))
        hkeeps.steady ho.rows_within)

/-- What a list at the top leaves out may be asked for again: its last line is then left out again,
so that links are kept. -/
theorem putAll_alone_keeps (ho : Orderly d line ts) (hR : ∀ r p : Rows, r.Inside p → R r p)
    (hlist : ∀ t ∈ ts, t.isList = true → t.listRows = t.rows) (hs : Steady R line (p :: outer))
    (hfirst : p.first ≤ line) (hlast : line ≤ p.last)
    (hin : ∀ t ∈ ts, p.first ≤ t.rows.first ∧ t.rows.last ≤ p.last + 1) :
    Keeps R line (p :: outer) (putAll d line (ts.map alone) (p :: outer)) := by
  induction ts generalizing p outer with
  | nil => exact .refl hs
  | cons t ts ih =>
    have hat := ho.around t List.mem_cons_self
    obtain ⟨htfirst, htlast⟩ := hin t List.mem_cons_self
    have hlist' : ∀ u ∈ ts, u.isList = true → u.listRows = u.rows :=
      fun u hu => hlist u (List.mem_cons_of_mem _ hu)
    have hin' : ∀ u ∈ ts, p.first ≤ u.rows.first ∧ u.rows.last ≤ p.last + 1 :=
      fun u hu => hin u (List.mem_cons_of_mem _ hu)
    by_cases hw : t.rows.Within p
    · refine (picks_alone (t :: ts)).keeps ho hR hlist hs fun u hu => ?_
      rcases List.mem_cons.mp hu with rfl | hu
      · exact hw
      · exact (ho.rows_within u hu).trans hw
    show Keeps R line _ (putAll d line (ts.map alone) (t.put d line (p :: outer)))
    by_cases hpair : t.isPair = true
    · have hts : ts = [] := by
        by_contra hne
        obtain ⟨u, hu⟩ := List.exists_mem_of_ne_nil ts hne
        rw [(ho.plain_of_mem hu).2] at hpair
        cases hpair
      rw [hts, Token.put_of_isPair hpair]
      exact (putPlain_keeps hR hs ⟨hfirst, hlast⟩).1
    have hone : t.rows.last = p.last + 1 := by
      by_contra hne
      exact hw ⟨htfirst, by omega⟩
    rcases Token.put_overhang (ho.starts t List.mem_cons_self) (Bool.eq_false_iff.mpr hpair)
      htfirst hone with hput | ⟨hinside, hput⟩
    · rw [hput]
      exact ih ho.tail hlist' hs hfirst hlast hin'
    · have hpush : Keeps R line (p :: outer) (⟨t.rows.first, p.last⟩ :: p :: outer) :=
        .push hR hinside
      rw [hput]
      refine hpush.trans (ih ho.tail hlist' hpush.steady hat.first_le hlast fun u hu => ?_)
      exact ⟨(ho.rows_within u hu).1, (hin' u hu).2⟩

end Move

end

end Concentric
