import Concentric.Document

/-! Line breaks. A text is split at its breaks just as it is split at line feeds once every break is
one, so that a document loaded from a file has the lines of the text that the file holds. The two
scans look for a pair of carriage return and line feed each on its own, and have to take the same
characters for one break. -/

namespace Concentric

def Unbroken (s : String) : Prop := '\r' ∉ s.toList ∧ '\n' ∉ s.toList

instance (s : String) : Decidable (Unbroken s) := inferInstanceAs (Decidable (_ ∧ _))

namespace Lines

variable {cs : List Char} {ls : List (List Char)}

theorem cr_notMem_normalize (cs : List Char) : '\r' ∉ normalize cs := by
  fun_induction normalize cs with
  | case1 => simp
  | case2 rest ih | case3 rest _ ih => simp [ih]
  | case4 c rest _ hc ih =>
    have hne : '\r' ≠ c := fun h => hc h.symm
    simp [hne, ih]

/-- A text without carriage returns has no break but line feeds. -/
theorem normalize_of_notMem (h : '\r' ∉ cs) : normalize cs = cs := by
  fun_induction normalize cs with
  | case1 => rfl
  | case2 | case3 => simp at h
  | case4 c rest _ _ ih =>
    rw [ih (List.not_mem_of_not_mem_cons h)]

theorem split_unbroken (cs : List Char) : ∀ l ∈ split cs, '\r' ∉ l ∧ '\n' ∉ l := by
  fun_induction split cs with
  | case1 => simp
  | case2 rest ih | case3 rest _ ih | case4 rest ih => simpa using ih
  | case5 c rest _ hcr hlf l ls hsplit ih =>
    obtain ⟨hl, hls⟩ := List.forall_mem_cons.mp (hsplit ▸ ih)
    have hr : '\r' ≠ c := fun h => hcr h.symm
    have hn : '\n' ≠ c := fun h => hlf h.symm
    refine List.forall_mem_cons.mpr ⟨?_, hls⟩
    simp [hr, hn, hl]
  | case6 c rest _ _ _ hsplit => exact absurd hsplit (split_ne_nil rest)

/-- The breaks of a text are the line feeds of the text with a line feed for every break. -/
theorem split_eq_splitOn (cs : List Char) : split cs = (normalize cs).splitOn '\n' := by
  fun_induction split cs with
  | case1 => rfl
  | case2 rest ih => simp [normalize, List.splitOn_cons_eq_if_modifyHead, ih]
  | case3 rest hpair ih =>
    -- the carriage return stands alone, as no line feed comes after it
    have hnorm : normalize ('\r' :: rest) = '\n' :: normalize rest := by
      rw [normalize]
      exact hpair
    simp [hnorm, List.splitOn_cons_eq_if_modifyHead, ih]
  | case4 rest ih => simp [normalize, List.splitOn_cons_eq_if_modifyHead, ih]
  | case5 c rest hpair hcr hlf l ls hsplit ih =>
    have hnorm : normalize (c :: rest) = c :: normalize rest := by
      rw [normalize]
      · exact hpair
      · exact hcr
    have hc : c ≠ '\n' := hlf
    simp [hnorm, List.splitOn_cons_eq_if_modifyHead, hc, ← ih, hsplit]
  | case6 c rest _ _ _ hsplit => exact absurd hsplit (split_ne_nil rest)

theorem intercalate_split (cs : List Char) : ['\n'].intercalate (split cs) = normalize cs := by
  rw [split_eq_splitOn, List.intercalate_splitOn]

theorem normalize_normalize (cs : List Char) : normalize (normalize cs) = normalize cs :=
  normalize_of_notMem (cr_notMem_normalize cs)

theorem split_normalize (cs : List Char) : split (normalize cs) = split cs := by
  rw [split_eq_splitOn, normalize_normalize, ← split_eq_splitOn]

theorem cr_notMem_intercalate (hls : ∀ l ∈ ls, '\r' ∉ l) : '\r' ∉ ['\n'].intercalate ls := by
  induction ls with
  | nil => simp
  | cons l ls ih =>
    obtain ⟨hl, hls⟩ := List.forall_mem_cons.mp hls
    cases ls with
    | nil => simpa using hl
    | cons k ls => simpa [hl] using ih hls

/-- Lines with a line feed between each two are the lines of what they make. -/
theorem split_intercalate (hne : ls ≠ []) (hls : ∀ l ∈ ls, '\r' ∉ l ∧ '\n' ∉ l) :
    split (['\n'].intercalate ls) = ls := by
  have hcr : '\r' ∉ ['\n'].intercalate ls := cr_notMem_intercalate fun l hl => (hls l hl).1
  rw [split_eq_splitOn, normalize_of_notMem hcr]
  exact List.splitOn_intercalate '\n' (fun l hl => (hls l hl).2) hne

/-! ## Texts -/

@[simp] theorem toList_normalizeText (s : String) :
    (normalizeText s).toList = normalize s.toList := String.toList_ofList

theorem ofText_unbroken (s : String) : ∀ l ∈ ofText s, Unbroken l := by
  intro l hl
  obtain ⟨cs, hcs, rfl⟩ := List.mem_map.mp hl
  simpa [Unbroken] using split_unbroken s.toList cs hcs

theorem intercalate_ofText (s : String) : "\n".intercalate (ofText s) = normalizeText s := by
  apply String.toList_inj.mp
  rw [String.toList_intercalate, ofText, List.map_map, toList_normalizeText]
  simpa [Function.comp_def] using intercalate_split s.toList

theorem normalizeText_normalizeText (s : String) :
    normalizeText (normalizeText s) = normalizeText s := by
  apply String.toList_inj.mp
  rw [toList_normalizeText, toList_normalizeText, normalize_normalize]

theorem ofText_normalizeText (s : String) : ofText (normalizeText s) = ofText s := by
  rw [ofText, toList_normalizeText, split_normalize, ofText]

theorem ofText_intercalate {ls : List String} (hne : ls ≠ []) (hls : ∀ l ∈ ls, Unbroken l) :
    ofText ("\n".intercalate ls) = ls := by
  have hlists : ∀ l ∈ ls.map String.toList, '\r' ∉ l ∧ '\n' ∉ l := List.forall_mem_map.mpr hls
  have hsplit : split ("\n".intercalate ls).toList = ls.map String.toList := by
    rw [String.toList_intercalate]
    exact split_intercalate (by simpa using hne) hlists
  rw [ofText, hsplit, List.map_map]
  simp [Function.comp_def]

end Lines

namespace CodePoint

variable {points : List CodePoint}

theorem isSurrogate_ofText (s : String) : ∀ p ∈ ofText s, p.isSurrogate = false := by
  refine List.forall_mem_map.mpr fun c _ => ?_
  have hvalid : c.toNat.isValidChar := c.valid
  unfold Nat.isValidChar at hvalid
  unfold isSurrogate
  rw [Bool.and_eq_false_iff, decide_eq_false_iff_not, decide_eq_false_iff_not]
  show ¬ 0xD800 ≤ c.toNat ∨ ¬ c.toNat < 0xE000
  omega

theorem ofCodePoint?_ofChar (c : Char) : Codec.ofCodePoint? (ofChar c).val = some c := by
  have hvalid : c.toNat.isValidChar := c.valid
  rw [ofChar, Codec.ofCodePoint?, dif_pos hvalid]
  rfl

/-- The code points of a text have that text. -/
theorem text_ofText (s : String) : CodePoint.text (ofText s) = .ok s := by
  have hpure : (fun p : CodePoint => Codec.ofCodePoint? p.val) ∘ ofChar = pure :=
    funext ofCodePoint?_ofChar
  rw [CodePoint.text, ofText, List.mapM_map, hpure, List.mapM_pure]
  simp

theorem exists_ofChar {p : CodePoint} (h : p.isSurrogate = false) : ∃ c, ofChar c = p := by
  have hvalid : p.val.isValidChar := by
    have := p.isLt
    simp only [isSurrogate, Bool.and_eq_false_iff, decide_eq_false_iff_not] at h
    unfold Nat.isValidChar
    omega
  refine ⟨Char.ofNatAux p.val hvalid, Fin.ext ?_⟩
  show (Char.ofNatAux p.val hvalid).toNat = p.val
  rfl

/-- Code points without a surrogate are those of a text. -/
theorem exists_ofText (h : ∀ p ∈ points, p.isSurrogate = false) : ∃ s, ofText s = points := by
  induction points with
  | nil => exact ⟨"", rfl⟩
  | cons p ps ih =>
    obtain ⟨hp, hps⟩ := List.forall_mem_cons.mp h
    obtain ⟨c, rfl⟩ := exists_ofChar hp
    obtain ⟨s, rfl⟩ := ih hps
    exact ⟨String.ofList (c :: s.toList), by simp [ofText]⟩

end CodePoint

namespace Document

open Lines

variable {uri language : String} {version : Value}

theorem ofPoints_ofText (text : String) : ofPoints (CodePoint.ofText text) uri language version =
    .ok (ofText text uri language version "") := by
  rw [ofPoints, CodePoint.text_ofText]
  rfl

end Document

end Concentric
