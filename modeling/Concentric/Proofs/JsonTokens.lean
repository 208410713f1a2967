import Concentric.Json.Reader
import Concentric.Json.Writer
import Concentric.Proofs.WholeLiterals
import Mathlib.Data.List.Basic

/-! Tokens of documents: texts, numbers and names. What is written for one of them, in printable
characters of ASCII alone, is read back as it was: a text up to its closing quote, whatever follows
that, and a number as long as something follows that ends it. -/

namespace Concentric

namespace Json

variable {c : Char} {cs rest more : List Char}

/-- The characters that documents are written in: the printable ones of ASCII, and line feeds. -/
def IsPrinted (c : Char) : Prop := c = '\n' ∨ 0x20 ≤ c.toNat ∧ c.toNat < 0x7F

instance (c : Char) : Decidable (IsPrinted c) := inferInstanceAs (Decidable (_ ∨ _))

theorem isPrinted_of_all (h : cs.all fun c => decide (IsPrinted c)) : ∀ c ∈ cs, IsPrinted c :=
  fun c hc => of_decide_eq_true (List.all_eq_true.mp h c hc)

/-! ## Texts -/

theorem hexDigit?_digitChar {d : Nat} (hd : d < 16) : hexDigit? (Nat.digitChar d) = some d := by
  have hall : ∀ d < 16, hexDigit? (Nat.digitChar d) = some d := by decide
  exact hall d hd

/-- A unit is read back from its digits, if there is anything after them. -/
theorem unit?_hex4 {n : Nat} (hn : n < 65536) (hmore : more ≠ []) :
    unit? (hex4 n ++ more) = some (n, more) := by
  obtain ⟨c, rest, rfl⟩ := List.exists_cons_of_ne_nil hmore
  have hsum : ((n / 4096 % 16 * 16 + n / 256 % 16) * 16 + n / 16 % 16) * 16 + n % 16 = n := by omega
  have hdigit : ∀ m, hexDigit? (Nat.digitChar (m % 16)) = some (m % 16) := fun m =>
    hexDigit?_digitChar (Nat.mod_lt m (by decide))
  simp only [hex4, List.map_cons, List.map_nil, List.cons_append, List.nil_append, unit?, hdigit,
    hsum]

/-- Of a unit that is no high surrogate the character is its own, whatever comes next. -/
theorem withLow_of_not_high {u : Nat} (hu : isHigh u = false) (rest : List Char) :
    withLow u rest = .ok (unitChar u, rest) := by
  unfold withLow
  split
  · rw [hu, Bool.not_false, Bool.true_or, if_pos rfl]
  · rfl

theorem withLow_pair {u v : Nat} (hu : isHigh u = true) (hv : isLow v = true) (hmore : more ≠ []) :
    withLow u ('\\' :: 'u' :: (hex4 v ++ more)) = .ok (pairChar u v, more) := by
  have hlt : v < 65536 := by
    simp only [isLow, Bool.and_eq_true, decide_eq_true_eq] at hv
    omega
  have hdrop : ((hex4 v ++ more).drop 4).isEmpty = false := by simpa [hex4] using hmore
  simp only [withLow, hu, hdrop, unit?_hex4 hlt hmore, hv]
  rfl

/-- A character is read back from its code, be it in one unit or in two. -/
theorem escape_writeCode (c : Char) (hmore : more ≠ []) :
    ∃ cs, writeCode c.toNat = '\\' :: cs ∧ escape (cs ++ more) = .ok (c, more) := by
  have hvalid : c.toNat < 0xD800 ∨ 0xDFFF < c.toNat ∧ c.toNat < 0x110000 := c.valid
  have hc : Char.ofNat c.toNat = c := Char.ofNat_toNat c
  unfold writeCode
  by_cases hone : c.toNat < 0x10000
  · refine ⟨_, if_pos hone, ?_⟩
    have hhigh : isHigh c.toNat = false := by simp [isHigh]; omega
    have hlow : isLow c.toNat = false := by simp [isLow]; omega
    have hchar : unitChar c.toNat = c := by simp [unitChar, hhigh, hlow, hc]
    rw [List.cons_append, escape, if_pos rfl, codeEscape, unit?_hex4 (by omega) hmore]
    exact (withLow_of_not_high hhigh more).trans (by rw [hchar])
  · refine ⟨_, if_neg hone, ?_⟩
    have hhigh : isHigh (0xD800 + (c.toNat - 0x10000) / 1024) = true := by simp [isHigh]; omega
    have hlow : isLow (0xDC00 + (c.toNat - 0x10000) % 1024) = true := by simp [isLow]; omega
    have hcode : 0x10000 + (0xD800 + (c.toNat - 0x10000) / 1024 - 0xD800) * 1024 +
        (0xDC00 + (c.toNat - 0x10000) % 1024 - 0xDC00) = c.toNat := by omega
    rw [List.cons_append, List.append_assoc, escape, if_pos rfl, codeEscape,
      unit?_hex4 (by omega) (by simp)]
    exact (withLow_pair hhigh hlow hmore).trans (by rw [pairChar, hcode, hc])

/-- A character is written as itself, or as an escape that it is read back from. -/
theorem writeChar_cases (c : Char) :
    (writeChar c = [c] ∧ 0x20 ≤ c.toNat ∧ c ≠ '"' ∧ c ≠ '\\') ∨
      ∀ more ≠ [], ∃ cs, writeChar c = '\\' :: cs ∧ escape (cs ++ more) = .ok (c, more) := by
  unfold writeChar
  split_ifs with hquote hfeed hreturn htab hback hform hplain
  · refine Or.inr fun more _ => ⟨[c], rfl, ?_⟩
    rcases hquote with rfl | rfl <;> rfl
  · exact Or.inr fun more _ => ⟨['n'], rfl, by subst hfeed; rfl⟩
  · exact Or.inr fun more _ => ⟨['r'], rfl, by subst hreturn; rfl⟩
  · exact Or.inr fun more _ => ⟨['t'], rfl, by subst htab; rfl⟩
  · exact Or.inr fun more _ => ⟨['b'], rfl, by subst hback; rfl⟩
  · exact Or.inr fun more _ => ⟨['f'], rfl, by subst hform; rfl⟩
  · exact Or.inl ⟨rfl, hplain.1, fun h => hquote (Or.inl h), fun h => hquote (Or.inr h)⟩
  · exact Or.inr fun more hmore => escape_writeCode c hmore

theorem characters_writeChar {p : List Char × List Char} (c : Char) (h : characters more = .ok p) :
    characters (writeChar c ++ more) = .ok (c :: p.1, p.2) := by
  rcases writeChar_cases c with ⟨hwrite, hcontrol, hquote, hslash⟩ | hescape
  · have hno : ¬ c.toNat < 0x20 := by omega
    rw [hwrite, List.singleton_append, characters, if_neg hquote, if_neg hslash, if_neg hno, h]
  · have hmore : more ≠ [] := by
      rintro rfl
      rw [characters] at h
      cases h
    obtain ⟨cs, hwrite, hread⟩ := hescape more hmore
    have hslash : ¬ '\\' = '"' := by decide
    rw [hwrite, List.cons_append, characters, if_neg hslash, if_pos rfl]
    split
    · next heq => cases hread.symm.trans heq
    · next heq =>
      obtain ⟨rfl, rfl⟩ := Prod.mk.inj (Except.ok.inj (hread.symm.trans heq))
      rw [h]

/-- A text is read back up to its closing quote. -/
theorem characters_quoted (cs rest : List Char) :
    characters (cs.flatMap writeChar ++ ['"'] ++ rest) = .ok (cs, rest) := by
  induction cs with
  | nil => rw [List.flatMap_nil, List.nil_append, List.singleton_append, characters, if_pos rfl]
  | cons c cs ih =>
    rw [List.flatMap_cons, List.append_assoc, List.append_assoc, ← List.append_assoc _ _ rest]
    exact characters_writeChar c ih

theorem isPrinted_hex4 (n : Nat) : ∀ c ∈ hex4 n, IsPrinted c := by
  have hall : ∀ d < 16, IsPrinted (Nat.digitChar d) := by decide
  have hdigit : ∀ m, IsPrinted (Nat.digitChar (m % 16)) := fun m =>
    hall _ (Nat.mod_lt m (by decide))
  simp [hex4, hdigit]

theorem isPrinted_writeChar (x : Char) : ∀ c ∈ writeChar x, IsPrinted c := by
  have hslash : IsPrinted '\\' := by decide
  have hu : IsPrinted 'u' := by decide
  unfold writeChar writeCode
  split_ifs with hquote hfeed hreturn htab hback hform hplain hone
  · rcases hquote with rfl | rfl <;> exact isPrinted_of_all rfl
  iterate 5 exact isPrinted_of_all rfl
  · exact List.forall_mem_singleton.mpr (Or.inr hplain)
  · simpa [hslash, hu] using isPrinted_hex4 _
  · simp only [List.forall_mem_cons, List.forall_mem_append]
    exact ⟨hslash, hu, isPrinted_hex4 _, hslash, hu, isPrinted_hex4 _⟩

theorem isPrinted_writeText (cs : List Char) : ∀ c ∈ writeText cs, IsPrinted c := by
  have hquote : IsPrinted '"' := by decide
  simp only [writeText, List.forall_mem_cons, List.forall_mem_append, List.mem_flatMap]
  refine ⟨hquote, ?_, hquote, by simp⟩
  rintro c ⟨x, -, hx⟩
  exact isPrinted_writeChar x c hx

/-! ## Numbers and names -/

theorem isPrinted_of_isDigit (h : c.isDigit = true) : IsPrinted c := by
  obtain ⟨hlow, hhigh⟩ := Digits.isDigit_iff.mp h
  have hlow : 48 ≤ c.toNat := hlow
  have hhigh : c.toNat ≤ 57 := hhigh
  exact Or.inr (by omega)

theorem isPrinted_ofInt (n : Int) : ∀ c ∈ Digits.ofInt n, IsPrinted c := by
  have hdigits : ∀ m, ∀ c ∈ Digits.ofNat m, IsPrinted c := fun m c hc =>
    isPrinted_of_isDigit (Digits.isDigit_of_mem_ofNat hc)
  cases n with
  | ofNat m => exact hdigits m
  | negSucc m => exact List.forall_mem_cons.mpr ⟨by decide, hdigits (m + 1)⟩

theorem ne_of_isDigit (hc : c.isDigit = true) (d : Char) (hd : d.isDigit = false) : c ≠ d := by
  rintro rfl
  rw [hc] at hd
  cases hd

/-- White space, and the characters that texts and containers start and end with. -/
def marks : List Char := [' ', '\t', '\n', '\r', '"', '[', ']', '\x7b', '\x7d']

theorem notMem_marks_of_isDigit (hc : c.isDigit = true) : c ∉ marks := by
  have hmarks : marks.all fun m => !m.isDigit := by decide
  intro hmem
  have hno := List.all_eq_true.mp hmarks c hmem
  rw [hc] at hno
  cases hno

/-- Nothing follows, or something that ends a number. -/
def Ends (cs : List Char) : Prop := ∀ c ∈ cs.head?, c = ',' ∨ c = '\n'

theorem leading_worths (hcs : ∀ c ∈ cs, c.isDigit = true) (hrest : Ends rest) :
    Digits.leading (cs ++ rest) = (Digits.worths cs, rest) := by
  induction cs with
  | nil =>
    cases rest with
    | nil => rfl
    | cons c rest => rcases hrest c rfl with rfl | rfl <;> rfl
  | cons c cs ih =>
    obtain ⟨hc, hcs⟩ := List.forall_mem_cons.mp hcs
    rw [List.cons_append, Digits.leading, Digits.ascii?_of_isDigit hc, ih hcs]
    rfl

theorem exists_head_ofNat (m : Nat) :
    ∃ c cs, Digits.ofNat m = c :: cs ∧ c.isDigit = true := by
  obtain ⟨c, cs, hcs⟩ := List.exists_cons_of_ne_nil (Nat.toDigits_ne_nil (n := m) (b := 10))
  have hmem : c ∈ Digits.ofNat m := List.mem_of_mem_head? (congrArg List.head? hcs)
  exact ⟨c, cs, hcs, Digits.isDigit_of_mem_ofNat hmem⟩

theorem exists_head_ofInt (n : Int) : ∃ c cs, Digits.ofInt n = c :: cs ∧ c ∉ marks := by
  cases n with
  | ofNat m =>
    obtain ⟨c, cs, hcs, hc⟩ := exists_head_ofNat m
    exact ⟨c, cs, hcs, notMem_marks_of_isDigit hc⟩
  | negSucc m => exact ⟨_, _, rfl, by decide⟩

/-- Only the digits of zero start with a zero. -/
theorem head_ofNat_ne_zero {m : Nat} (hm : m ≠ 0) : ∀ c ∈ (Digits.ofNat m).head?, c ≠ '0' := by
  induction m using Nat.strongRecOn with
  | ind m ih =>
    unfold Digits.ofNat at ih ⊢
    rw [Nat.toDigits_eq_if (by decide)]
    split
    · next hlt =>
      have hall : ∀ m < 10, m ≠ 0 → Nat.digitChar m ≠ '0' := by decide
      exact fun c hc => Option.some.inj hc ▸ hall m hlt hm
    · rw [List.head?_append_of_ne_nil _ Nat.toDigits_ne_nil]
      exact ih (m / 10) (by omega) (by omega)

theorem wholePart?_ofNat (m : Nat) (hrest : Ends rest) :
    wholePart? (Digits.ofNat m ++ rest) = some (Digits.worths (Digits.ofNat m), rest) := by
  by_cases hm : m = 0
  · subst hm
    rfl
  have hleading := leading_worths (fun c hc => Digits.isDigit_of_mem_ofNat (n := m) hc) hrest
  have hhead := head_ofNat_ne_zero hm
  obtain ⟨c, cs, hcs, -⟩ := exists_head_ofNat m
  rw [hcs] at hhead hleading ⊢
  unfold wholePart?
  split
  · next heq => exact absurd (List.cons.inj heq).1 (hhead c rfl)
  · rw [hleading]
    rfl

theorem fraction_of_ends (hrest : Ends rest) : fraction rest = ([], rest) := by
  unfold fraction
  split
  · exact absurd (hrest '.' rfl) (by decide)
  · rfl

theorem exponent?_of_ends (hrest : Ends rest) : Literal.exponent? rest = none := by
  cases rest with
  | nil => rfl
  | cons c rest => rcases hrest c rfl with rfl | rfl <;> rfl

theorem magnitude?_ofNat {m : Nat} (hm : (Digits.ofNat m).length ≤ Literal.digitLimit)
    (hrest : Ends rest) (negative : Bool) :
    magnitude? negative (Digits.ofNat m ++ rest) =
      some (.ok (.whole (if negative then -(m : Int) else m)), rest) := by
  have hshort : ¬ Literal.digitLimit < (Digits.worths (Digits.ofNat m)).length := by
    rw [Digits.worths, List.length_map]
    omega
  rw [magnitude?, wholePart?_ofNat m hrest, Option.map_some]
  dsimp only
  rw [fraction_of_ends hrest, exponent?_of_ends hrest]
  dsimp only
  rw [if_neg hshort, Digits.value_worths]

/-- No name starts with a digit, or with a minus sign and a digit. -/
theorem names_of_isDigit (hc : c.isDigit = true) (cs : List Char) :
    (names.find? fun n => n.1.isPrefixOf (c :: cs)) = none ∧
      (names.find? fun n => n.1.isPrefixOf ('-' :: c :: cs)) = none := by
  have hne := fun d hd => (ne_of_isDigit hc d hd).symm
  simp [names, hne 'n' rfl, hne 't' rfl, hne 'f' rfl, hne 'N' rfl, hne 'I' rfl, hne '-' rfl]

/-- A number is read back from its digits, if it is not too long and ends there. -/
theorem atom?_ofInt {n : Int} (hn : Literal.Short n) (hrest : Ends rest) :
    atom? (Digits.ofInt n ++ rest) = some (.ok (.whole n), rest) := by
  unfold atom?
  cases n with
  | ofNat m =>
    obtain ⟨c, cs, hcs, hc⟩ := exists_head_ofNat m
    have hread := magnitude?_ofNat (m := m) hn hrest false
    rw [hcs, List.cons_append] at hread
    rw [Digits.ofInt, hcs, List.cons_append, (names_of_isDigit hc _).1]
    dsimp only
    unfold number?
    split
    · next heq =>
      obtain rfl := (List.cons.inj heq).1
      cases hc
    · exact hread
  | negSucc m =>
    obtain ⟨c, cs, hcs, hc⟩ := exists_head_ofNat (m + 1)
    have hread := magnitude?_ofNat (m := m + 1) hn hrest true
    rw [hcs] at hread
    rw [Digits.ofInt, hcs, List.cons_append, List.cons_append, (names_of_isDigit hc _).2]
    exact hread

theorem atom?_nothing (rest : List Char) :
    atom? ("null".toList ++ rest) = some (.ok .nothing, rest) := rfl

theorem atom?_truth (b : Bool) (rest : List Char) :
    atom? ((if b then "true".toList else "false".toList) ++ rest) =
      some (.ok (.truth b), rest) := by
  cases b <;> rfl

end Json

end Concentric
