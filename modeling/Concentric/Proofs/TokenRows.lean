import Concentric.Proofs.RowJoins
import Concentric.Proofs.Stream

/-! Tokens by lines. In a stream as a parser makes it the blocks around a line come from the
outermost inwards, so sorting them changes nothing. What each asks for as a list or on its own are
rows. -/

namespace Concentric

/-! ## Tokens around a line -/

namespace LineRange

/-- All lines of the range are lines of another. -/
def Within (r q : LineRange) : Prop := q.start ≤ r.start ∧ r.stop ≤ q.stop

/-- The ranges have no line in common. -/
def Apart (r q : LineRange) : Prop := r.stop ≤ q.start ∨ q.stop ≤ r.start

end LineRange

namespace Token

/-- The first line that a token covers. -/
def first (t : Token) : Nat := t.lines?.elim 0 fun r => r.start.toNat

/-- The line after the last that a token covers. -/
def stop (t : Token) : Nat := t.lines?.elim 0 fun r => r.stop.toNat

def depth (t : Token) : Nat :=
  match t.level with
  | .whole n => n.toNat
  | _ => 0

/-- A token with a name, and with a whole number as its level. -/
structure Labelled (t : Token) : Prop where
  name : ∃ s, t.type = .named s
  level : ∃ n : Int, t.level = .whole n

/-- A token that covers a line of a document. -/
structure Lies (d : Document) (line : Nat) (t : Token) : Prop where
  lines : ∃ r, t.lines? = some r ∧ r.start = (t.first : Int) ∧ r.stop = (t.stop : Int)
  first_le : t.first ≤ line
  lt_stop : line < t.stop
  stop_le : t.stop ≤ d.lineCount

/-- A typed token that covers a line of a document. -/
structure At (d : Document) (line : Nat) (t : Token) : Prop extends Lies d line t where
  typed : t.Typed

theorem Typed.level_eq {t : Token} (h : t.Typed) : t.level = .whole (t.depth : Int) := by
  obtain ⟨n, hn⟩ := h.depth
  unfold Token.depth
  rw [hn]
  rfl

theorem Typed.labelled {t : Token} (h : t.Typed) : t.Labelled :=
  ⟨h.name, h.depth.imp' Int.ofNat fun _ hn => hn⟩

theorem Labelled.isKey {t : Token} (h : t.Labelled) : t.type.isKey = true := by
  obtain ⟨name, hname⟩ := h.name
  rw [hname]
  rfl

theorem around_of_keys {tokens : List Token} (line : Int)
    (hkeys : ∀ t ∈ tokens, t.type.isKey = true) :
    around id line tokens = .ok (enclosing id line tokens) := by
  have hall : (tokens.all fun t => !(id t).covers line || (id t).type.isKey) = true := by
    refine List.all_eq_true.mpr fun t ht => ?_
    rw [id_eq, hkeys t ht, Bool.or_true]
  exact if_pos hall

/-- Blocks that come the longer ones first are found in their order. -/
theorem around_of_pairwise {tokens : List Token} {line : Int}
    (hkeys : ∀ t ∈ tokens, t.type.isKey = true)
    (hsorted : (tokens.filter (encloses line)).Pairwise fun t u => u.extent ≤ t.extent) :
    around id line tokens = .ok (tokens.filter (encloses line)) := by
  rw [around_of_keys line hkeys]
  exact congrArg Except.ok (List.mergeSort_of_pairwise (hsorted.imp decide_eq_true))

/-- Of two nested ranges the one with no fewer lines has the other within. -/
theorem within_of_extent {t u : Token} (hle : u.extent ≤ t.extent) {r q : LineRange}
    (hr : t.lines? = some r) (hq : u.lines? = some q) (hnest : r.Within q ∨ q.Within r) :
    q.Within r := by
  unfold extent LineRange.length at hle
  simp only [hr, hq] at hle
  unfold LineRange.Within at *
  omega

end Token

/-- A stream as a block parser makes it. Every token lies in the document, any two share no line or
lie one in the other, of two blocks one of which lies in the other the outer comes first and is less
deep, and headings stand one below the other. -/
structure ParserShaped (d : Document) (tokens : List Token) : Prop where
  typed : ∀ t ∈ tokens, t.Typed
  inside : ∀ t ∈ tokens, ∀ r, t.lines? = some r →
    0 ≤ r.start ∧ r.start < r.stop ∧ r.stop ≤ d.lineCount
  laminar : tokens.Pairwise fun t u => ∀ r q, t.lines? = some r → u.lines? = some q →
    r.Within q ∨ q.Within r ∨ r.Apart q
  outerFirst : tokens.Pairwise fun t u => t.isBlock = true → u.isBlock = true →
    ∀ r q, t.lines? = some r → u.lines? = some q → r.Within q ∨ q.Within r →
      q.Within r ∧ t.depth < u.depth
  headings : HeadingsAscend d tokens

/-- A later token lies within an earlier one and is deeper. -/
def Token.Inner (t u : Token) : Prop := t.first ≤ u.first ∧ u.stop ≤ t.stop ∧ t.depth < u.depth

namespace ParserShaped

variable {d : Document} {tokens : List Token} {line : Nat}

theorem lines_of_encloses {t : Token} {line : Int} (h : t.encloses line = true) :
    t.isBlock = true ∧ ∃ r, t.lines? = some r ∧ r.has line = true := by
  unfold Token.encloses Token.covers at h
  obtain ⟨hcov, hblock⟩ := Bool.and_eq_true_iff.mp h
  refine ⟨hblock, ?_⟩
  cases hr : t.lines? with
  | none =>
    rw [hr] at hcov
    cases hcov
  | some r =>
    rw [hr] at hcov
    exact ⟨r, rfl, hcov⟩

theorem at_of_mem (hp : ParserShaped d tokens) {t : Token}
    (ht : t ∈ tokens.filter (Token.encloses line)) : t.At d line := by
  obtain ⟨hmem, henc⟩ := List.mem_filter.mp ht
  obtain ⟨-, r, hr, hhas⟩ := lines_of_encloses henc
  obtain ⟨hstart, hlt, hstop⟩ := hp.inside t hmem r hr
  have hfirst : (t.first : Int) = r.start := by
    unfold Token.first
    rw [hr]
    exact Int.toNat_of_nonneg hstart
  have hend : (t.stop : Int) = r.stop := by
    unfold Token.stop
    rw [hr]
    exact Int.toNat_of_nonneg (by omega)
  unfold LineRange.has at hhas
  simp only [Bool.and_eq_true, decide_eq_true_eq] at hhas
  exact ⟨⟨⟨r, hr, hfirst.symm, hend.symm⟩, by omega, by omega, by omega⟩, hp.typed t hmem⟩

/-- The blocks around a line come from the outermost inwards. -/
theorem enclosing_inner (hp : ParserShaped d tokens) (line : Nat) :
    (tokens.filter (Token.encloses line)).Pairwise Token.Inner := by
  have hlaminar := hp.laminar.sublist (List.filter_sublist (p := Token.encloses line))
  have houter := hp.outerFirst.sublist (List.filter_sublist (p := Token.encloses line))
  refine (hlaminar.and houter).imp_of_mem ?_
  intro t u ht hu ⟨hlam, hout⟩
  obtain ⟨r, hr, hrs, hre⟩ := (hp.at_of_mem ht).lines
  obtain ⟨q, hq, hqs, hqe⟩ := (hp.at_of_mem hu).lines
  have hnest : r.Within q ∨ q.Within r := by
    rcases hlam r q hr hq with h | h | h
    · exact Or.inl h
    · exact Or.inr h
    · have := (hp.at_of_mem ht).first_le
      have := (hp.at_of_mem ht).lt_stop
      have := (hp.at_of_mem hu).first_le
      have := (hp.at_of_mem hu).lt_stop
      unfold LineRange.Apart at h
      omega
  obtain ⟨hwithin, hdepth⟩ := hout (lines_of_encloses (List.mem_filter.mp ht).2).1
    (lines_of_encloses (List.mem_filter.mp hu).2).1 r q hr hq hnest
  unfold LineRange.Within at hwithin
  exact ⟨by omega, by omega, hdepth⟩

/-- The blocks around a line are found in their order. -/
theorem around_eq (hp : ParserShaped d tokens) :
    Token.around id line tokens = .ok (tokens.filter (Token.encloses line)) := by
  have hextent : ∀ t ∈ tokens.filter (Token.encloses line),
      t.extent = (t.stop : Int) - (t.first : Int) := by
    intro t ht
    obtain ⟨r, hr, hrs, hre⟩ := (hp.at_of_mem ht).lines
    unfold Token.extent
    rw [hr]
    show r.stop - r.start = _
    rw [hrs, hre]
  refine Token.around_of_pairwise (fun t ht => (hp.typed t ht).labelled.isKey) ?_
  refine (hp.enclosing_inner line).imp_of_mem ?_
  intro t u ht hu h
  obtain ⟨hfirst, hstop, -⟩ := h
  rw [hextent t ht, hextent u hu]
  omega

/-- Whether tokens of sketches are shaped as by a parser can be decided. -/
theorem of_sketches {ks : List Token.Sketch}
    (inside : ∀ k ∈ ks, k.first < k.stop ∧ k.stop ≤ d.lineCount)
    (laminar : ks.Pairwise fun k l => l.first ≤ k.first ∧ k.stop ≤ l.stop ∨
      k.first ≤ l.first ∧ l.stop ≤ k.stop ∨ k.stop ≤ l.first ∨ l.stop ≤ k.first)
    (outerFirst : ks.Pairwise fun k l => k.token.isBlock = true → l.token.isBlock = true →
      l.first ≤ k.first ∧ k.stop ≤ l.stop ∨ k.first ≤ l.first ∧ l.stop ≤ k.stop →
        k.first ≤ l.first ∧ l.stop ≤ k.stop ∧ k.depth < l.depth)
    (headings : HeadingsAscend d (ks.map Token.Sketch.token)) :
    ParserShaped d (ks.map Token.Sketch.token) := by
  have hlines : ∀ k ∈ ks, ∀ r, k.token.lines? = some r →
      r.start = (k.first : Int) ∧ r.stop = (k.stop : Int) := by
    intro k hk r hr
    have hle : (k.first : Int) ≤ k.stop := by
      have := (inside k hk).1
      omega
    have hsome : k.token.lines? = some ⟨k.first, k.stop, hle⟩ := dif_pos hle
    obtain rfl := Option.some.inj (hsome.symm.trans hr)
    exact ⟨rfl, rfl⟩
  refine ⟨Token.typed_of_sketches ks, ?_, ?_, ?_, headings⟩
  · intro t ht r hr
    obtain ⟨k, hk, rfl⟩ := List.mem_map.mp ht
    obtain ⟨hstart, hstop⟩ := hlines k hk r hr
    have := inside k hk
    omega
  · refine List.pairwise_map.mpr (laminar.imp_of_mem ?_)
    intro k l hk hl hkl r q hr hq
    obtain ⟨hrs, hre⟩ := hlines k hk r hr
    obtain ⟨hqs, hqe⟩ := hlines l hl q hq
    unfold LineRange.Within LineRange.Apart
    omega
  · refine List.pairwise_map.mpr (outerFirst.imp_of_mem ?_)
    intro k l hk hl hkl hkb hlb r q hr hq hnest
    obtain ⟨hrs, hre⟩ := hlines k hk r hr
    obtain ⟨hqs, hqe⟩ := hlines l hl q hq
    unfold LineRange.Within at hnest ⊢
    obtain ⟨hfirst, hstop, hdepth⟩ := hkl hkb hlb (by omega)
    exact ⟨by omega, hdepth⟩

end ParserShaped

/-! ## What a token asks for -/

namespace Token

/-- The lines that a token covers. -/
def rows (t : Token) : Rows := ⟨t.first, t.stop - 1⟩

def isFence (t : Token) : Bool := t.type.name? == some "fence"

/-- A paragraph of two lines, of which only the line of the cursor is taken. -/
def isPair (t : Token) : Bool :=
  t.type.name? == some "paragraph_open" && decide (t.stop = t.first + 2)

/-- The lines of a plain block around a line. -/
def plainRows (d : Document) (line : Nat) (t : Token) : Rows :=
  if t.isPair then ⟨line, line⟩
  else ⟨if d.hasBlank t.first then t.first + 1 else t.first, t.stop - 1⟩

/-- The lines between the marks of a fence around a line. -/
def markedRows? (line : Nat) (t : Token) : Option Rows :=
  if t.first + 3 < t.stop ∧ line ≠ t.first ∧ line + 1 ≠ t.stop then
    some ⟨t.first + 1, t.stop - 2⟩
  else none

/-- The lines of a list in a run of lists. -/
def listRows (t : Token) : Rows :=
  ⟨t.first, if t.depth = 0 then max t.first (t.stop - 2) else t.stop - 1⟩

/-- Puts the lines of a token on its own into a chain of rows. -/
def put (d : Document) (line : Nat) (t : Token) (rs : List Rows) : List Rows :=
  if t.isFence then t.rows.putFence (t.markedRows? line) rs else (t.plainRows d line).putPlain rs

section

variable {d : Document} {line : Nat} {t : Token} {cap : Value} {r : LineRange}

theorem Lies.rows_at (h : t.Lies d line) : t.rows.At d line := by
  have := h.lt_stop
  have := h.stop_le
  exact ⟨h.first_le, by unfold rows; dsimp only; omega, by unfold rows; dsimp only; omega⟩

theorem Lies.line_proper (h : t.Lies d line) : (⟨line, line⟩ : Rows).Proper d :=
  ⟨Nat.le_refl _, Nat.lt_of_lt_of_le h.lt_stop h.stop_le⟩

theorem At.listRows_proper (h : t.At d line) : t.listRows.Proper d := by
  have := h.first_le
  have := h.lt_stop
  have := h.stop_le
  unfold listRows
  constructor
  · dsimp only
    split <;> omega
  · dsimp only
    split <;> omega

/-- A list has the line but for the last line of one at the top, which it leaves out. -/
theorem At.listRows_at (h : t.At d line)
    (hlast : t.depth = 0 → t.first + 2 ≤ t.stop → line + 1 ≠ t.stop) : t.listRows.At d line := by
  have := h.first_le
  have := h.lt_stop
  refine ⟨h.first_le, ?_, h.listRows_proper.last_lt⟩
  unfold listRows
  dsimp only
  split
  · next hdepth =>
    have := hlast hdepth
    omega
  · omega

theorem Lies.plainRows_at (h : t.Lies d line)
    (hblank : d.hasBlank t.first = true → t.first ≠ line) : (t.plainRows d line).At d line := by
  have := h.first_le
  have := h.lt_stop
  have := h.stop_le
  unfold plainRows
  split
  · exact ⟨Nat.le_refl _, Nat.le_refl _, by dsimp only; omega⟩
  · refine ⟨?_, by dsimp only; omega, by dsimp only; omega⟩
    dsimp only
    split
    · next hb =>
      have := hblank hb
      omega
    · exact h.first_le

/-- Only a block of one blank line asks for no line of its own. -/
theorem Lies.plainRows_proper (h : t.Lies d line)
    (hmore : t.isPair = false → d.hasBlank t.first = true → t.first + 1 ≠ t.stop) :
    (t.plainRows d line).Proper d := by
  have := h.first_le
  have := h.lt_stop
  have := h.stop_le
  unfold plainRows
  split
  · exact ⟨Nat.le_refl _, by dsimp only; omega⟩
  · next hpair =>
    refine ⟨?_, by dsimp only; omega⟩
    dsimp only
    split
    · next hb =>
      have := hmore (Bool.eq_false_iff.mpr hpair) hb
      omega
    · omega

theorem Lies.markedRows_at (h : t.Lies d line) : ∀ c ∈ t.markedRows? line, c.At d line := by
  have := h.first_le
  have := h.lt_stop
  have := h.stop_le
  intro c hc
  unfold markedRows? at hc
  split at hc
  · next hcond =>
    obtain rfl := Option.mem_some.mp hc
    exact ⟨by dsimp only; omega, by dsimp only; omega, by dsimp only; omega⟩
  · cases hc

/-! ## Spans of blocks -/

theorem plainSpan_eq (h : t.Lies d line) (hr : t.lines? = some r)
    (hmore : t.isPair = false → d.hasBlank t.first = true → t.first + 1 ≠ t.stop) :
    Block.plainSpan ⟨d, line, cap⟩ ⟨false, t.type, t.level, r⟩ = (t.plainRows d line).span d := by
  obtain ⟨q, hq, hstart, hstop⟩ := h.lines
  obtain rfl : r = q := Option.some.inj (hr.symm.trans hq)
  have hfirst := h.first_le
  have hlt := h.lt_stop
  have hlength : r.length = 2 ↔ t.stop = t.first + 2 := by
    unfold LineRange.length
    omega
  unfold Block.plainSpan plainRows
  dsimp only
  by_cases hpair : t.isPair = true
  · have hname : t.type.name? = some "paragraph_open" ∧ r.length = 2 := by
      unfold isPair at hpair
      simp only [Bool.and_eq_true, beq_iff_eq, decide_eq_true_eq] at hpair
      exact ⟨hpair.1, hlength.mpr hpair.2⟩
    rw [if_pos hpair, if_pos hname]
    rfl
  · have hname : ¬ (t.type.name? = some "paragraph_open" ∧ r.length = 2) := by
      intro ⟨hname, hlen⟩
      refine hpair ?_
      unfold isPair
      simp only [Bool.and_eq_true, beq_iff_eq, decide_eq_true_eq]
      exact ⟨hname, hlength.mp hlen⟩
    rw [if_neg hpair, if_neg hname, hstart, hstop]
    have hlast : ((t.stop : Int) - 1) = ((t.stop - 1 : Nat) : Int) := by omega
    by_cases hb : d.hasBlank t.first = true
    · have hne := hmore (Bool.eq_false_iff.mpr hpair) hb
      have hstop' : ¬ (t.first : Int) + 1 = t.stop := by omega
      rw [if_pos hb, if_pos hb, if_neg hstop', hlast]
      rfl
    · have hstop' : ¬ (t.first : Int) = t.stop := by omega
      rw [if_neg hb, if_neg hb, if_neg hstop', hlast]
      rfl

theorem fenceEnd_eq (h : t.Lies d line) (hr : t.lines? = some r) :
    Block.fenceEnd ⟨d, line, cap⟩ ⟨false, t.type, t.level, r⟩ = t.stop - 1 := by
  obtain ⟨q, hq, -, hstop⟩ := h.lines
  obtain rfl : r = q := Option.some.inj (hr.symm.trans hq)
  have hlt := h.lt_stop
  have hle := h.stop_le
  have hlast : ((t.stop : Int) - 1) = ((t.stop - 1 : Nat) : Int) := by omega
  unfold Block.fenceEnd
  dsimp only
  rw [hstop, hlast, d.clampLine_of_lt (by omega)]

theorem fenceSpan_eq (h : t.Lies d line) (hr : t.lines? = some r) :
    Block.fenceSpan ⟨d, line, cap⟩ ⟨false, t.type, t.level, r⟩ = t.rows.span d := by
  obtain ⟨q, hq, hstart, -⟩ := h.lines
  obtain rfl : r = q := Option.some.inj (hr.symm.trans hq)
  unfold Block.fenceSpan
  rw [fenceEnd_eq h hr, hstart]
  rfl

theorem fenceContent_eq (h : t.Lies d line) (hr : t.lines? = some r) :
    Block.fenceContent ⟨d, line, cap⟩ ⟨false, t.type, t.level, r⟩ =
      (t.markedRows? line).map (Rows.span d) := by
  obtain ⟨q, hq, hstart, -⟩ := h.lines
  obtain rfl : r = q := Option.some.inj (hr.symm.trans hq)
  have hlt := h.lt_stop
  have hiff : (((t.stop - 1 : Nat) : Int) - t.first > 2 ∧ (line : Int) ≠ t.first ∧
      (line : Int) ≠ ((t.stop - 1 : Nat) : Int)) ↔
      (t.first + 3 < t.stop ∧ line ≠ t.first ∧ line + 1 ≠ t.stop) := by omega
  unfold Block.fenceContent markedRows?
  dsimp only
  rw [fenceEnd_eq h hr, hstart]
  by_cases hc : t.first + 3 < t.stop ∧ line ≠ t.first ∧ line + 1 ≠ t.stop
  · have hlast : ((t.stop - 1 : Nat) : Int) - 1 = ((t.stop - 2 : Nat) : Int) := by omega
    rw [if_pos hc, if_pos (hiff.mpr hc), hlast]
    rfl
  · rw [if_neg hc, if_neg fun h => hc (hiff.mp h)]
    rfl

/-- The last line of a list is its own, and one before that if its level is that of the top. -/
theorem Lies.listEnd_eq (h : t.Lies d line) (hr : t.lines? = some r) :
    Block.listEnd ⟨d, line, cap⟩ ⟨true, t.type, t.level, r⟩ =
      if t.level.isNumber 0 then max t.first (t.stop - 2) else t.stop - 1 := by
  obtain ⟨q, hq, hstart, hstop⟩ := h.lines
  obtain rfl : r = q := Option.some.inj (hr.symm.trans hq)
  have hfirst := h.first_le
  have hlt := h.lt_stop
  have hle := h.stop_le
  unfold Block.listEnd
  dsimp only
  rw [hstart, hstop]
  split
  · have hlast : max (t.first : Int) ((t.stop : Int) - 2) = (max t.first (t.stop - 2) : Nat) := by
      omega
    rw [hlast, d.clampLine_of_lt (by omega)]
  · have hlast : max (t.first : Int) ((t.stop : Int) - 1) = (t.stop - 1 : Nat) := by omega
    rw [hlast, d.clampLine_of_lt (by omega)]

theorem At.listEnd_eq (h : t.At d line) (hr : t.lines? = some r) :
    Block.listEnd ⟨d, line, cap⟩ ⟨true, t.type, t.level, r⟩ = t.listRows.last := by
  rw [h.toLies.listEnd_eq hr, h.typed.level_eq, Value.isNumber_whole]
  simp only [listRows, decide_eq_true_eq, Int.natCast_eq_zero]

/-! ## Joins of tokens -/

theorem block_list (t : Token) (hr : t.lines? = some r) :
    (Move.list t).block = .ok ⟨true, t.type, t.level, r⟩ := by
  show Move.blockOf true t.type t = _
  unfold Move.blockOf
  rw [hr]

theorem block_alone (hname : ∃ s, t.type = .named s) (hr : t.lines? = some r) :
    (Move.alone t).block = .ok ⟨false, t.type, t.level, r⟩ := by
  obtain ⟨name, hname⟩ := hname
  show (do Move.blockOf false (← t.type.get) t) = _
  rw [hname]
  show Move.blockOf false (.named name) t = _
  unfold Move.blockOf
  rw [hr]

/-- A list joins a chain of rows by its lines. -/
theorem join_list (cap : Value) (h : t.At d line) {rs : List Rows}
    (hrs : ∀ p ∈ rs.head?, p.Proper d) :
    ∃ b, (Move.list t).block = .ok b ∧
      Block.join ⟨d, line, cap⟩ (rs.map (Rows.step d)) b =
        (t.listRows.putList rs).map (Rows.step d) := by
  obtain ⟨r, hr, hstart, -⟩ := h.lines
  refine ⟨_, block_list t hr, ?_⟩
  show Block.joinList _ _ _ = _
  unfold Block.joinList
  rw [h.listEnd_eq hr]
  dsimp only
  rw [hstart]
  cases rs with
  | nil => rfl
  | cons p outer =>
    have hp := hrs p rfl
    have hiff : ((t.first : Int) - ((p.step d).span.start.line : Int) ≤ 1 ∧
        t.listRows.last = (p.step d).span.stop.line) ↔
        (t.listRows.first ≤ p.first + 1 ∧ t.listRows.last = p.last) := by
      have hline : (p.step d).span.start.line = p.first := congrArg Position.line hp.start_eq
      have hstop : (p.step d).span.stop.line = p.last := hp.stop_line
      rw [hline, hstop]
      show _ ↔ t.first ≤ p.first + 1 ∧ _
      omega
    simp only [List.map_cons, Rows.putList, hiff]
    split <;> rfl

/-- A token on its own joins a chain of rows by its lines, unless it has only the line below the
innermost rows. -/
theorem join_alone (cap : Value) (hname : ∃ s, t.type = .named s) (h : t.Lies d line)
    (hmore : t.isFence = false → t.isPair = false → d.hasBlank t.first = true →
      t.first + 1 ≠ t.stop) {rs : List Rows} (hrs : ∀ p ∈ rs.head?, p.Proper d)
    (hcut : t.isFence = false → ∀ p ∈ rs.head?, (t.plainRows d line).last = p.last + 1 →
      (t.plainRows d line).first ≤ p.last) :
    ∃ b, (Move.alone t).block = .ok b ∧
      Block.join ⟨d, line, cap⟩ (rs.map (Rows.step d)) b = (t.put d line rs).map (Rows.step d) := by
  obtain ⟨r, hr, -⟩ := h.lines
  refine ⟨_, block_alone hname hr, ?_⟩
  show Block.joinAlone _ _ _ = _
  unfold Block.joinAlone put
  show (if t.isFence = true then _ else _) = _
  by_cases hf : t.isFence = true
  · rw [if_pos hf, if_pos hf, fenceSpan_eq h hr, fenceContent_eq h hr]
    exact Rows.joinFence_span h.rows_at.proper hrs
  · have hplain : t.isFence = false := Bool.eq_false_iff.mpr hf
    rw [if_neg hf, if_neg hf, plainSpan_eq h hr (hmore hplain)]
    exact Rows.joinPlain_span (h.plainRows_proper (hmore hplain)) fun p hp =>
      ⟨hrs p hp, hcut hplain p hp⟩

/-- What a token on its own puts into a chain of rows has a property if all that it asks for has. -/
theorem put_grows {P : Rows → Prop} {rs : List Rows}
    (hfence : t.isFence = true → P t.rows ∧ ∀ c ∈ t.markedRows? line, P c)
    (hplain : t.isFence = false → P (t.plainRows d line) ∧ ∀ p ∈ rs.head?,
      (t.plainRows d line).last = p.last + 1 → P ⟨(t.plainRows d line).first, p.last⟩) :
    Rows.Grows P rs (t.put d line rs) := by
  unfold put
  split
  · next hf => exact Rows.putFence_grows (hfence hf).1 (hfence hf).2
  · next hf =>
    have hrows := hplain (Bool.eq_false_iff.mpr hf)
    exact Rows.putPlain_grows hrows.1 hrows.2

end

end Token

end Concentric
