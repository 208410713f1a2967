import Concentric.Unicode.Blank
import Concentric.Unicode.LowerCase
import Concentric.Unicode.Word

/-! Texts that stay as they are. The small letters that capitals become have no others to become,
so lower case is the same the second time. What is neither blank in front nor at its end is what is
left of it when the blanks around it are dropped. -/

namespace Concentric.Unicode

/-- What holds of each code point of a set holds of each of its characters. -/
theorem Ranges.forall_of_all {s : Ranges} {p : Char → Bool}
    (h : (s.pairs.all fun r =>
      (List.range' r.1 (r.2 + 1 - r.1)).all fun n => p (Char.ofNat n)) = true)
    {c : Char} (hc : s.has c = true) : p c = true := by
  obtain ⟨r, hr, hfirst, hlast⟩ := Ranges.has_iff.mp hc
  have hrange := List.all_eq_true.mp h r hr
  have hmem : c.toNat ∈ List.range' r.1 (r.2 + 1 - r.1) := by
    rw [List.mem_range'_1]
    omega
  have hp := List.all_eq_true.mp hrange c.toNat hmem
  rwa [Char.ofNat_toNat] at hp

theorem isWord_of_isBlank {c : Char} (h : isBlank c = true) : isWord c = false := by
  have hall := Ranges.forall_of_all (p := fun c => !isWord c) (s := blanks) (by decide +kernel) h
  simpa using hall

/-! ## Small letters -/

/-- The character has no small letter other than itself. -/
def IsSmall (c : Char) : Prop := c ≠ 'İ' ∧ ∀ r ∈ caseRuns, r.has c.toNat = false

instance (c : Char) : Decidable (IsSmall c) := inferInstanceAs (Decidable (_ ∧ _))

namespace CaseRun

def image (r : CaseRun) (n : Nat) : Nat := ((n : Int) + r.shift).toNat

def codes (r : CaseRun) : List Nat :=
  List.range' r.first ((r.last - r.first) / r.step + 1) r.step

/-- A run turns no code point into one of another run. Most runs lie below or above the other. -/
def isApart (r q : CaseRun) : Bool :=
  (r.image r.last).blt q.first || q.last.blt (r.image r.first) ||
    r.codes.all fun n => !q.has (r.image n)

/-- What a run turns a code point into is a character, and not the dotted capital I. -/
def isPlain (r : CaseRun) : Bool :=
  r.codes.all fun n => r.image n != 'İ'.toNat && decide (r.image n).isValidChar

variable {r q : CaseRun} {n : Nat}

theorem mem_codes (h : r.has n = true) : n ∈ r.codes := by
  simp only [has, Bool.and_eq_true, decide_eq_true_eq, beq_iff_eq] at h
  obtain ⟨⟨hfirst, hlast⟩, hmod⟩ := h
  have hdiv : r.step * ((n - r.first) / r.step) = n - r.first :=
    Nat.mul_div_cancel' (Nat.dvd_of_mod_eq_zero hmod)
  have hle : (n - r.first) / r.step ≤ (r.last - r.first) / r.step :=
    Nat.div_le_div_right (by omega)
  exact List.mem_range'.mpr ⟨(n - r.first) / r.step, by omega, by omega⟩

theorem has_image (hapart : r.isApart q = true) (h : r.has n = true) :
    q.has (r.image n) = false := by
  have hmem := mem_codes h
  simp only [has, Bool.and_eq_true, decide_eq_true_eq] at h
  have hhigh : r.image n ≤ r.image r.last := by unfold image; omega
  have hlow : r.image r.first ≤ r.image n := by unfold image; omega
  rcases (Bool.or_eq_true _ _).mp hapart with hside | hall
  · have hout : ¬ (q.first ≤ r.image n ∧ r.image n ≤ q.last) := by
      simp only [Bool.or_eq_true, Nat.blt_eq] at hside
      omega
    simp only [has, Bool.and_eq_false_imp, Bool.and_eq_true, decide_eq_true_eq]
    exact fun hin => absurd hin hout
  · simpa using List.all_eq_true.mp hall n hmem

end CaseRun

theorem caseRuns_apart : (caseRuns.all fun r => caseRuns.all r.isApart) = true := by
  decide +kernel

theorem caseRuns_plain : caseRuns.all CaseRun.isPlain = true := by decide +kernel

/-- What a run turns its capitals into are small letters. -/
theorem isSmall_of_run {r : CaseRun} (hr : r ∈ caseRuns) {n : Nat} (hn : r.has n = true) :
    IsSmall (Char.ofNat (r.image n)) := by
  have hplain := List.all_eq_true.mp (List.all_eq_true.mp caseRuns_plain r hr) n
    (CaseRun.mem_codes hn)
  simp only [Bool.and_eq_true, bne_iff_ne, ne_eq, decide_eq_true_eq] at hplain
  have hcode : (Char.ofNat (r.image n)).toNat = r.image n := by
    unfold Char.ofNat
    rw [dif_pos hplain.2]
    rfl
  refine ⟨fun hdotted => hplain.1 ?_, fun q hq => ?_⟩
  · rw [← hcode, hdotted]
  · have hapart := List.all_eq_true.mp (List.all_eq_true.mp caseRuns_apart r hr) q hq
    rw [hcode]
    exact CaseRun.has_image hapart hn

theorem isSmall_of_ends : IsSmall 'i' ∧ IsSmall '\u0307' ∧ IsSmall 'ς' ∧ IsSmall 'σ' := by
  decide +kernel

theorem lowerChar_of_isSmall {c : Char} (h : IsSmall c) : lowerChar c = [c] := by
  have hfind : caseRuns.find? (·.has c.toNat) = none :=
    List.find?_eq_none.mpr fun r hr => by rw [h.2 r hr]; exact Bool.false_ne_true
  unfold lowerChar
  rw [if_neg h.1, hfind]

theorem isSmall_of_mem_lowerChar {c d : Char} (h : d ∈ lowerChar c) : IsSmall d := by
  unfold lowerChar at h
  split at h
  · rcases List.mem_cons.mp h with rfl | h
    · exact isSmall_of_ends.1
    · exact List.mem_singleton.mp h ▸ isSmall_of_ends.2.1
  · next hdotted =>
    split at h
    · next r hr =>
      obtain rfl := List.mem_singleton.mp h
      exact isSmall_of_run (List.mem_of_find?_eq_some hr)
        (List.find?_some (p := fun r : CaseRun => r.has c.toNat) hr)
    · next hnone =>
      obtain rfl := List.mem_singleton.mp h
      exact ⟨hdotted, fun r hr => Bool.eq_false_iff.mpr (List.find?_eq_none.mp hnone r hr)⟩

theorem isSmall_of_mem_lowerAfter {before cs : List Char} {d : Char}
    (h : d ∈ lowerAfter before cs) : IsSmall d := by
  induction cs generalizing before with
  | nil => cases h
  | cons c rest ih =>
    rcases List.mem_append.mp h with h | h
    · split at h
      · split at h
        · exact List.mem_singleton.mp h ▸ isSmall_of_ends.2.2.1
        · exact List.mem_singleton.mp h ▸ isSmall_of_ends.2.2.2
      · exact isSmall_of_mem_lowerChar h
    · exact ih h

theorem isSmall_of_mem_lower {cs : List Char} {d : Char} (h : d ∈ lower cs) : IsSmall d :=
  isSmall_of_mem_lowerAfter h

/-- A text without capitals is its own lower case. -/
theorem lower_of_isSmall {cs : List Char} (h : ∀ c ∈ cs, IsSmall c) : lower cs = cs := by
  unfold lower
  generalize [] = before
  induction cs generalizing before with
  | nil => rfl
  | cons c rest ih =>
    have hc := h c List.mem_cons_self
    have hsigma : c ≠ 'Σ' := by
      rintro rfl
      revert hc
      decide +kernel
    unfold lowerAfter
    rw [if_neg hsigma, lowerChar_of_isSmall hc, ih (fun d hd => h d (List.mem_cons_of_mem _ hd))]
    rfl

/-! ## Blanks around a text -/

theorem dropWhile_append_of_head {p : Char → Bool} {front cs : List Char}
    (hfront : ∀ c ∈ front, p c = true) (hhead : ∀ c ∈ cs.head?, p c = false) :
    (front ++ cs).dropWhile p = cs := by
  rw [List.dropWhile_append_of_pos hfront]
  cases cs with
  | nil => rfl
  | cons c rest => rw [List.dropWhile_cons_of_neg (by simpa using hhead c rfl)]

/-- Of a text with blanks around it the text is left. -/
theorem trim_surrounded {front cs back : List Char} (hfront : ∀ c ∈ front, isBlank c = true)
    (hback : ∀ c ∈ back, isBlank c = true) (hhead : ∀ c ∈ cs.head?, isBlank c = false)
    (hlast : ∀ c ∈ cs.getLast?, isBlank c = false) : trim (front ++ cs ++ back) = cs := by
  unfold trim
  cases cs with
  | nil =>
    have hall : ∀ c ∈ front ++ back, isBlank c = true := fun c hc =>
      (List.mem_append.mp hc).elim (hfront c) (hback c)
    have hnil : (front ++ back ++ []).dropWhile isBlank = [] :=
      dropWhile_append_of_head hall fun c hc => by cases hc
    rw [List.append_nil] at hnil ⊢
    rw [hnil]
    rfl
  | cons c rest =>
    have hopen : ∀ d ∈ (c :: rest ++ back).head?, isBlank d = false := hhead
    have hclose : ∀ d ∈ (c :: rest).reverse.head?, isBlank d = false := by
      rwa [List.head?_reverse]
    have hreverse : ∀ d ∈ back.reverse, isBlank d = true := fun d hd => hback d (List.mem_reverse.mp hd)
    rw [List.append_assoc, dropWhile_append_of_head hfront hopen, List.reverse_append,
      dropWhile_append_of_head hreverse hclose, List.reverse_reverse]

/-- Of a text without blanks in it the text is left. -/
theorem trim_padded {front cs back : List Char} (hfront : ∀ c ∈ front, isBlank c = true)
    (hback : ∀ c ∈ back, isBlank c = true) (hcs : ∀ c ∈ cs, isBlank c = false) :
    trim (front ++ cs ++ back) = cs :=
  trim_surrounded hfront hback (fun c hc => hcs c (List.mem_of_mem_head? hc))
    fun c hc => hcs c (List.mem_of_getLast? hc)

theorem head?_dropWhile {p : Char → Bool} {cs : List Char} :
    ∀ c ∈ (cs.dropWhile p).head?, p c = false := by
  intro c hc
  have hnot := List.head?_dropWhile_not p cs
  rw [Option.mem_def.mp hc] at hnot
  exact hnot

/-- What is left of a text has no blanks at its ends. -/
theorem trim_trim (cs : List Char) : trim (trim cs) = trim cs := by
  have hfront : trim cs <+: cs.dropWhile isBlank := by
    rw [← List.reverse_suffix, trim, List.reverse_reverse]
    exact List.dropWhile_suffix _
  have hhead : ∀ c ∈ (trim cs).head?, isBlank c = false := by
    intro c hc
    obtain ⟨rest, hrest⟩ := hfront
    have hopen : c ∈ (cs.dropWhile isBlank).head? := by
      rw [← hrest, List.head?_append, Option.mem_def.mp hc]
      rfl
    exact head?_dropWhile c hopen
  have hlast : ∀ c ∈ (trim cs).getLast?, isBlank c = false := by
    rw [trim, List.getLast?_reverse]
    exact head?_dropWhile
  simpa using @trim_surrounded [] (trim cs) [] (by simp) (by simp) hhead hlast
end Concentric.Unicode
