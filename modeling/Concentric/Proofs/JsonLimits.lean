import Concentric.Proofs.PlainData

/-! The limits of reading JSON. A document without a value is at fault in some place, unless it is
given up before one is found: because too many containers are open, or because a whole number has too
many digits. Both can be seen in the document: it has more brackets that open something than may be
open at once, or that many digits in a row. -/

namespace Concentric.Json

variable {cs rest : List Char}

/-! ## What is left to read -/

theorem skip_suffix (cs : List Char) : skip cs <:+ cs := List.dropWhile_suffix _

theorem suffix_of_skip {c : Char} (h : skip cs = c :: rest) : rest <:+ cs := by
  have hrest := List.suffix_cons c rest
  rw [← h] at hrest
  exact hrest.trans (skip_suffix cs)

theorem unit?_suffix {u : Nat} (h : unit? cs = some (u, rest)) : rest <:+ cs := by
  unfold unit? at h
  split at h
  · next a b c d e tail =>
    split at h
    · obtain ⟨-, rfl⟩ := Prod.mk.inj (Option.some.inj h)
      exact List.suffix_append [a, b, c, d] _
    · cases h
  · cases h

theorem withLow_suffix {u : Nat} {c : Char} (h : withLow u cs = .ok (c, rest)) : rest <:+ cs := by
  unfold withLow at h
  split at h
  · next low =>
    split at h
    · cases h
      exact List.suffix_refl _
    split at h
    · cases h
    next v after hv =>
    split at h
    · obtain ⟨-, rfl⟩ := Prod.mk.inj (Except.ok.inj h)
      exact (unit?_suffix hv).trans (List.suffix_append ['\\', 'u'] low)
    · cases h
      exact List.suffix_refl _
  · cases h
    exact List.suffix_refl _

theorem escape_suffix {c : Char} (h : escape cs = .ok (c, rest)) : rest <:+ cs := by
  unfold escape at h
  split at h
  · cases h
  next d tail =>
  split at h
  · unfold codeEscape at h
    split at h
    · cases h
    next u after hu =>
    exact ((withLow_suffix h).trans (unit?_suffix hu)).trans (List.suffix_cons d tail)
  · split at h
    · cases h
      exact List.suffix_cons d _
    · cases h

theorem characters_suffix {p : List Char × List Char} (h : characters cs = .ok p) :
    p.2 <:+ cs := by
  fun_induction characters cs generalizing p with
  | case2 rest =>
    cases h
    exact List.suffix_cons _ _
  | case5 rest _ _ hescape _ q hq _ ih =>
    cases h
    exact ((ih hq).trans (escape_suffix hescape)).trans (List.suffix_cons _ rest)
  | case8 c rest _ _ _ q hq ih =>
    cases h
    exact (ih hq).trans (List.suffix_cons c rest)
  | _ => cases h

theorem leading_suffix (cs : List Char) : (Digits.leading cs).2 <:+ cs := by
  induction cs with
  | nil => exact List.suffix_refl _
  | cons c rest ih =>
    unfold Digits.leading
    split
    · exact ih.trans (List.suffix_cons c rest)
    · exact List.suffix_refl _

theorem wholePart?_suffix {ds : List Nat} (h : wholePart? cs = some (ds, rest)) : rest <:+ cs := by
  unfold wholePart? at h
  split at h
  · cases h
    exact List.suffix_cons _ _
  · have hsuffix := leading_suffix cs
    split at h
    · cases h
    · rw [Option.some.inj h] at hsuffix
      exact hsuffix

theorem fraction_suffix (cs : List Char) : (fraction cs).2 <:+ cs := by
  unfold fraction
  split
  · next rest =>
    split
    · exact List.suffix_refl _
    · exact (leading_suffix rest).trans (List.suffix_cons _ rest)
  · exact List.suffix_refl _

theorem sign_suffix (cs : List Char) : (Literal.sign cs).2 <:+ cs := by
  unfold Literal.sign
  split
  · exact List.suffix_cons _ _
  · exact List.suffix_cons _ _
  · exact List.suffix_refl _

theorem exponent?_suffix {e : Int} (h : Literal.exponent? cs = some (e, rest)) : rest <:+ cs := by
  unfold Literal.exponent? at h
  split at h
  · next c tail =>
    split at h
    · have hsuffix := leading_suffix (Literal.sign tail).2
      dsimp only at h
      split at h
      · cases h
      · next ds after _ hleading =>
        obtain ⟨-, rfl⟩ := Prod.mk.inj (Option.some.inj h)
        rw [hleading] at hsuffix
        exact (hsuffix.trans (sign_suffix tail)).trans (List.suffix_cons c tail)
    · cases h
  · cases h

theorem magnitude?_suffix {negative : Bool} {v : Except Stop Value}
    (h : magnitude? negative cs = some (v, rest)) : rest <:+ cs := by
  obtain ⟨⟨whole, r⟩, hwhole, h⟩ := Option.map_eq_some_iff.mp h
  have hr := wholePart?_suffix hwhole
  have hfraction := (fraction_suffix r).trans hr
  dsimp only at h
  split at h
  · split at h <;> exact (Prod.mk.inj h).2 ▸ hr
  · exact (Prod.mk.inj h).2 ▸ hfraction
  · next hexponent => exact (Prod.mk.inj h).2 ▸ (exponent?_suffix hexponent).trans hfraction

theorem atom?_suffix {v : Except Stop Value} (h : atom? cs = some (v, rest)) : rest <:+ cs := by
  unfold atom? at h
  split at h
  · exact (Prod.mk.inj (Option.some.inj h)).2 ▸ List.drop_suffix _ _
  · unfold number? at h
    split at h
    · exact (magnitude?_suffix h).trans (List.suffix_cons _ _)
    · exact magnitude?_suffix h

/-! ## What cannot be read -/

/-- The document has a row of `n` digits. -/
def HasDigits (n : Nat) (cs : List Char) : Prop :=
  ∃ row, row <:+ cs ∧ (Digits.leading row).1.length = n

/-- How many containers a document could open: its opening brackets. -/
def openers (cs : List Char) : Nat := cs.countP fun c => c == '[' || c == '\x7b'

theorem HasDigits.mono {n : Nat} (h : HasDigits n rest) (hsuffix : rest <:+ cs) :
    HasDigits n cs := by
  obtain ⟨row, hrow, hn⟩ := h
  exact ⟨row, hrow.trans hsuffix, hn⟩

theorem openers_le (hsuffix : rest <:+ cs) : openers rest ≤ openers cs :=
  hsuffix.sublist.countP_le

theorem openers_cons {c : Char} (h : (c == '[' || c == '\x7b') = true) (cs : List Char) :
    openers (c :: cs) = openers cs + 1 :=
  List.countP_cons_of_pos h

/-- How many containers are about to be opened in a mode: in an entry without a value, its map. -/
def Mode.pending : Mode → Nat
  | .key _ => 1
  | _ => 0

/-- What a document that is given up has too much of, with some containers open already. -/
def Stop.Explained (opened : Nat) (cs : List Char) : Stop → Prop
  | .fault _ => True
  | .tooDeep => depthLimit < opened + openers cs
  | .literalTooLong n => Literal.digitLimit < n ∧ HasDigits n cs

theorem Stop.Explained.mono {opened opened' : Nat} {e : Stop} (h : e.Explained opened rest)
    (hsuffix : rest <:+ cs) (hopened : opened ≤ opened') : e.Explained opened' cs := by
  cases e with
  | fault f => exact True.intro
  | tooDeep => exact Nat.lt_of_lt_of_le h (Nat.add_le_add hopened (openers_le hsuffix))
  | literalTooLong n => exact ⟨h.1, h.2.mono hsuffix⟩

/-- A bracket that opens a container counts for it. -/
theorem Stop.Explained.opening {opened : Nat} {c : Char} {e : Stop}
    (h : e.Explained (opened + 1) rest) (hsuffix : rest <:+ cs)
    (hc : (c == '[' || c == '\x7b') = true) : e.Explained opened (c :: cs) := by
  have hcs := h.mono hsuffix (Nat.le_refl _)
  cases e with
  | fault f => exact True.intro
  | tooDeep =>
    have hlimit : depthLimit < opened + 1 + openers cs := hcs
    show depthLimit < opened + openers (c :: cs)
    rw [openers_cons hc]
    omega
  | literalTooLong n => exact ⟨hcs.1, hcs.2.mono (List.suffix_cons c cs)⟩

theorem tooDeep_explained {opened : Nat} {c : Char} (hfull : depthLimit ≤ opened)
    (hc : (c == '[' || c == '\x7b') = true) (cs : List Char) :
    Stop.tooDeep.Explained opened (c :: cs) := by
  show depthLimit < opened + openers (c :: cs)
  rw [openers_cons hc]
  omega

theorem wholePart?_digits {ds : List Nat} (h : wholePart? cs = some (ds, rest))
    (hlong : Literal.digitLimit < ds.length) : HasDigits ds.length cs := by
  unfold wholePart? at h
  split at h
  · cases h
    exact absurd hlong (by decide)
  · split at h
    · cases h
    · exact ⟨cs, List.suffix_refl _, congrArg (fun r => r.1.length) (Option.some.inj h)⟩

theorem magnitude?_explained {negative : Bool} {e : Stop}
    (h : magnitude? negative cs = some (.error e, rest)) (opened : Nat) :
    e.Explained opened cs := by
  obtain ⟨⟨whole, r⟩, hwhole, h⟩ := Option.map_eq_some_iff.mp h
  dsimp only at h
  split at h
  · split at h
    · next hlong =>
      obtain rfl := Except.error.inj (Prod.mk.inj h).1
      exact ⟨hlong, wholePart?_digits hwhole hlong⟩
    · cases (Prod.mk.inj h).1
  · cases (Prod.mk.inj h).1
  · cases (Prod.mk.inj h).1

theorem atom?_explained {e : Stop} (h : atom? cs = some (.error e, rest)) (opened : Nat) :
    e.Explained opened cs := by
  unfold atom? at h
  split at h
  · cases (Prod.mk.inj (Option.some.inj h)).1
  · unfold number? at h
    split at h
    · exact (magnitude?_explained h opened).mono (List.suffix_cons _ _) (Nat.le_refl _)
    · exact magnitude?_explained h opened

/-- Containers that are open, and those that could be opened still, are too many where there is no
more room for one; no step of reading makes them more. -/
theorem run_explained {mode : Mode} {stack : List Frame} {e : Stop}
    (h : run mode stack cs = .error e) : e.Explained (stack.length + mode.pending) cs := by
  fun_induction run mode stack cs with
  | case1 | case9 | case12 | case14 | case15 | case17 | case20 | case23 =>
    obtain rfl := Except.error.inj h
    exact True.intro
  | case16 => cases h
  | case3 _ _ hfull | case6 _ _ hfull =>
    obtain rfl := Except.error.inj h
    exact tooDeep_explained hfull rfl _
  | case10 _ _ _ _ _ _ _ hatom =>
    obtain rfl := Except.error.inj h
    exact atom?_explained hatom _
  | case2 _ rest _ htext _ ih =>
    exact (ih h).mono ((characters_suffix htext).trans (List.suffix_cons _ rest)) (Nat.le_refl _)
  | case4 _ rest _ _ hskip _ ih | case7 _ rest _ _ hskip _ ih =>
    exact (ih h).mono ((suffix_of_skip hskip).trans (List.suffix_cons _ rest)) (Nat.le_refl _)
  | case5 _ rest _ _ _ ih | case8 _ rest _ _ _ ih => exact (ih h).opening (skip_suffix rest) rfl
  | case11 _ _ _ _ _ _ _ hatom _ ih => exact (ih h).mono (atom?_suffix hatom) (Nat.le_refl _)
  | case13 _ _ rest _ htext _ after hskip _ ih =>
    have hafter := (skip_suffix after).trans (suffix_of_skip hskip)
    exact (ih h).mono ((hafter.trans (characters_suffix htext)).trans (List.suffix_cons _ rest))
      (Nat.le_refl _)
  | case18 _ _ _ _ _ hskip _ ih | case21 _ _ _ _ _ _ hskip _ ih =>
    exact (ih h).mono (suffix_of_skip hskip) (Nat.le_succ _)
  | case19 _ _ _ _ after hskip _ ih | case22 _ _ _ _ _ after hskip _ ih =>
    exact (ih h).mono ((skip_suffix after).trans (suffix_of_skip hskip)) (Nat.le_refl _)

/-- A document that is given up has more opening brackets than containers may be open, or a whole
number with more digits than a whole number may have. -/
theorem read_explained {e : Stop} (h : read cs = .error e) : e.Explained 0 cs := by
  unfold read at h
  split at h
  · obtain rfl := Except.error.inj h
    exact True.intro
  · exact (run_explained h).mono (skip_suffix cs) (Nat.le_refl _)

end Concentric.Json
