import Concentric.Number.Literal
import Concentric.Proofs.LetterCase
import Mathlib.Data.List.TakeWhile

/-! Literals of whole numbers by their grammar: blanks, a sign or none, digits of any script with
single underscores between them, and blanks. A text is read as a whole number if and only if it is
such a literal, and then as the number that its digits and its sign stand for. A number that is
written with no more digits than may be read is a literal of itself. -/

namespace Concentric

/-! ## Numbers as they are written -/

namespace Digits

variable {c : Char} {cs : List Char} {m n : Nat}

def worths (cs : List Char) : List Nat := cs.map fun c => c.toNat - '0'.toNat

theorem isDigit_iff : c.isDigit = true ↔ '0' ≤ c ∧ c ≤ '9' := by
  rw [Char.isDigit, Bool.and_eq_true, decide_eq_true_iff, decide_eq_true_iff]
  exact Iff.rfl

theorem ascii?_of_isDigit (h : c.isDigit = true) : ascii? c = some (c.toNat - '0'.toNat) :=
  if_pos (isDigit_iff.mp h)

theorem isDigit_of_mem_ofNat (h : c ∈ ofNat n) : c.isDigit = true :=
  Nat.isDigit_of_mem_toDigits (by decide) (by decide) h

theorem ofNat_injective (h : ofNat m = ofNat n) : m = n := by
  have hvalue := congrArg (fun ds => Nat.ofDigitChars 10 ds 0) h
  simpa [ofNat, Nat.ofDigitChars_toDigits] using hvalue

theorem value_worths (n : Nat) : value (worths (ofNat n)) = n := by
  have hread : Nat.ofDigitChars 10 (ofNat n) 0 = n := Nat.ofDigitChars_ten_toDigits
  rw [Nat.ofDigitChars_eq_foldl] at hread
  rw [value, worths, List.foldl_map]
  exact hread

end Digits

/-! ## The grammar -/

namespace Literal

variable {c : Char} {cs rest : List Char} {ds : List Nat} {n : Int}

/-- A blank that may stand around a number: of ASCII those of layout, and beyond it every one. -/
def isSpace (c : Char) : Bool := isGap c || (127 ≤ c.toNat && Unicode.isBlank c)

/-- Digits of any script with single underscores between digits, and what the digits are worth. -/
inductive Row : List Char → List Nat → Prop
  | last {c : Char} {d : Nat} (worth : Unicode.digitValue? c = some d) : Row [c] [d]
  | digit {c : Char} {d : Nat} {cs : List Char} {ds : List Nat}
      (worth : Unicode.digitValue? c = some d) (more : Row cs ds) : Row (c :: cs) (d :: ds)
  | underscore {c : Char} {d : Nat} {cs : List Char} {ds : List Nat}
      (worth : Unicode.digitValue? c = some d) (more : Row cs ds) : Row (c :: '_' :: cs) (d :: ds)

/-- A sign or none, and whether it is that of a negative number. -/
inductive Sign : List Char → Bool → Prop
  | absent : Sign [] false
  | plus : Sign ['+'] false
  | minus : Sign ['-'] true

/-- The text is a literal of the whole number. -/
inductive Whole : List Char → Int → Prop
  | mk {front mark row back : List Char} {negative : Bool} {ds : List Nat}
      (before : ∀ c ∈ front, isSpace c = true) (sign : Sign mark negative) (digits : Row row ds)
      (short : ds.length ≤ digitLimit) (after : ∀ c ∈ back, isSpace c = true) :
      Whole (front ++ mark ++ row ++ back)
        (if negative then -(Digits.value ds : Int) else Digits.value ds)

/-! ## What characters stand for -/

/-- The digits of ASCII are the first ones, and all others lie beyond it. -/
theorem digitValue?_of_ascii (hc : c.toNat < 127) : Unicode.digitValue? c = Digits.ascii? c := by
  have hlater : ∀ z ∈ Unicode.zeros.tail, 127 ≤ z := by decide
  have hnone : (Unicode.zeros.tail.find? fun z => z ≤ c.toNat && c.toNat < z + 10) = none :=
    List.find?_eq_none.mpr fun z hz => by
      have := hlater z hz
      simp only [Bool.and_eq_true, decide_eq_true_eq]
      omega
  have hzeros : Unicode.zeros = 48 :: Unicode.zeros.tail := rfl
  have hrange : ('0' ≤ c ∧ c ≤ '9') ↔ (48 ≤ c.toNat ∧ c.toNat < 58) := by
    have hlow : '0' ≤ c ↔ 48 ≤ c.toNat := Iff.rfl
    have hhigh : c ≤ '9' ↔ c.toNat ≤ 57 := Iff.rfl
    rw [hlow, hhigh]
    omega
  unfold Unicode.digitValue? Digits.ascii?
  rw [hzeros, List.find?_cons, hnone]
  by_cases h : 48 ≤ c.toNat ∧ c.toNat < 58
  · rw [if_pos (hrange.mpr h)]
    simp [h.1, h.2]
  · rw [if_neg (mt hrange.mp h)]
    have : (decide (48 ≤ c.toNat) && decide (c.toNat < 48 + 10)) = false := by
      simp only [Bool.and_eq_false_iff, decide_eq_false_iff_not]
      omega
    rw [this]
    rfl

theorem digitValue?_of_isBlank (hc : Unicode.isBlank c = true) : Unicode.digitValue? c = none := by
  have hapart : ∀ z ∈ Unicode.zeros, ∀ r ∈ Unicode.blanks.pairs, r.2 < z ∨ z + 10 ≤ r.1 := by decide
  obtain ⟨r, hr, hlow, hhigh⟩ := Unicode.Ranges.has_iff.mp hc
  have hnone : (Unicode.zeros.find? fun z => z ≤ c.toNat && c.toNat < z + 10) = none :=
    List.find?_eq_none.mpr fun z hz => by
      have := hapart z hz r hr
      simp only [Bool.and_eq_true, decide_eq_true_eq]
      omega
  rw [Unicode.digitValue?, hnone]
  rfl

theorem ascii?_digitChar {d : Nat} (hd : d < 10) : Digits.ascii? (Nat.digitChar d) = some d := by
  have hall : ∀ d < 10, Digits.ascii? (Nat.digitChar d) = some d := by decide
  exact hall d hd

/-- Beyond ASCII a character stands for a space, for a digit, or for nothing in a number. -/
theorem plain_cases (hc : ¬ c.toNat < 127) :
    (Unicode.isBlank c = true ∧ plain c = ' ') ∨
      (Unicode.isBlank c = false ∧ ∃ d < 10, Unicode.digitValue? c = some d ∧
        plain c = Nat.digitChar d) ∨
      (Unicode.isBlank c = false ∧ Unicode.digitValue? c = none ∧ plain c = '?') := by
  unfold plain
  rw [if_neg hc]
  by_cases hblank : Unicode.isBlank c = true
  · exact Or.inl ⟨hblank, if_pos hblank⟩
  · have hfalse := Bool.eq_false_iff.mpr hblank
    rw [if_neg hblank]
    cases hd : Unicode.digitValue? c with
    | none => exact Or.inr (Or.inr ⟨hfalse, rfl, rfl⟩)
    | some d => exact Or.inr (Or.inl ⟨hfalse, d, Unicode.digitValue?_lt hd, rfl, rfl⟩)

@[simp] theorem ascii?_plain (c : Char) : Digits.ascii? (plain c) = Unicode.digitValue? c := by
  by_cases hc : c.toNat < 127
  · rw [digitValue?_of_ascii hc, plain, if_pos hc]
  rcases plain_cases hc with ⟨hblank, hplain⟩ | ⟨-, d, hlt, hd, hplain⟩ | ⟨-, hnone, hplain⟩
  · rw [hplain, digitValue?_of_isBlank hblank]
    rfl
  · rw [hplain, hd, ascii?_digitChar hlt]
  · rw [hplain, hnone]
    rfl

@[simp] theorem isGap_plain (c : Char) : isGap (plain c) = isSpace c := by
  unfold isSpace
  by_cases hc : c.toNat < 127
  · have hbelow : decide (127 ≤ c.toNat) = false := decide_eq_false (by omega)
    rw [plain, if_pos hc, hbelow, Bool.false_and, Bool.or_false]
  have hgap : isGap c = false := by
    have hspace : (c == ' ') = false := beq_false_of_ne fun h => hc (h ▸ by decide)
    have hhigh : decide (c.toNat ≤ 13) = false := decide_eq_false (by omega)
    rw [isGap, hspace, hhigh, Bool.and_false, Bool.or_false]
  have habove : decide (127 ≤ c.toNat) = true := decide_eq_true (by omega)
  rw [hgap, habove, Bool.false_or, Bool.true_and]
  rcases plain_cases hc with ⟨hblank, hplain⟩ | ⟨hblank, d, hlt, -, hplain⟩ | ⟨hblank, -, hplain⟩
  · rw [hplain, hblank]
    rfl
  · have hall : ∀ d < 10, isGap (Nat.digitChar d) = false := by decide
    rw [hplain, hblank, hall d hlt]
  · rw [hplain, hblank]
    rfl

/-- A mark of ASCII that is neither a digit nor a space stands for itself alone. -/
theorem plain_eq_iff {mark : Char} (hmark : mark ∈ ['-', '+', '_']) : plain c = mark ↔ c = mark := by
  obtain ⟨hascii, hspace, hnothing, hdigit⟩ : mark.toNat < 127 ∧ mark ≠ ' ' ∧ mark ≠ '?' ∧
      ∀ d < 10, mark ≠ Nat.digitChar d := by
    simp only [List.mem_cons, List.not_mem_nil, or_false] at hmark
    rcases hmark with rfl | rfl | rfl <;> decide
  by_cases hc : c.toNat < 127
  · rw [plain, if_pos hc]
  have hne : c ≠ mark := fun h => hc (h ▸ hascii)
  refine iff_of_false (fun h => ?_) hne
  rcases plain_cases hc with ⟨-, hplain⟩ | ⟨-, d, hlt, -, hplain⟩ | ⟨-, -, hplain⟩
  · exact hspace (h.symm.trans hplain)
  · exact hdigit d hlt (h.symm.trans hplain)
  · exact hnothing (h.symm.trans hplain)

theorem isBlank_of_isSpace (h : isSpace c = true) : Unicode.isBlank c = true := by
  rcases Bool.or_eq_true_iff.mp h with hgap | hbeyond
  · have hrange : (9 ≤ c.toNat ∧ c.toNat ≤ 13) ∨ c = ' ' := by simpa [isGap] using hgap
    rcases hrange with hlayout | rfl
    · exact Unicode.Ranges.has_iff.mpr ⟨(9, 13), by decide, hlayout⟩
    · decide
  · exact (Bool.and_eq_true_iff.mp hbeyond).2

theorem not_digit_of_isSpace (h : isSpace c = true) :
    Unicode.digitValue? c = none ∧ c ≠ '_' := by
  have hblank := isBlank_of_isSpace h
  refine ⟨digitValue?_of_isBlank hblank, ?_⟩
  rintro rfl
  revert hblank
  decide

/-! ## Signs -/

theorem sign_map (cs : List Char) :
    sign (cs.map plain) = ((sign cs).1, (sign cs).2.map plain) := by
  cases cs with
  | nil => rfl
  | cons c rest =>
    by_cases hminus : c = '-'
    · subst hminus
      rfl
    by_cases hplus : c = '+'
    · subst hplus
      rfl
    have hminus' := mt (plain_eq_iff (by decide)).mp hminus
    have hplus' := mt (plain_eq_iff (by decide)).mp hplus
    simp [sign, hminus, hplus, hminus', hplus']

theorem sign_cases (cs : List Char) : ∃ mark, Sign mark (sign cs).1 ∧ cs = mark ++ (sign cs).2 := by
  unfold sign
  split
  · exact ⟨['-'], .minus, rfl⟩
  · exact ⟨['+'], .plus, rfl⟩
  · exact ⟨[], .absent, rfl⟩

theorem sign_append {mark : List Char} {negative : Bool} (h : Sign mark negative)
    (hhead : ∀ c ∈ cs.head?, c ≠ '-' ∧ c ≠ '+') : sign (mark ++ cs) = (negative, cs) := by
  cases h with
  | absent =>
    cases cs with
    | nil => rfl
    | cons c rest =>
      obtain ⟨hminus, hplus⟩ := hhead c rfl
      simp [sign, hminus, hplus]
  | plus => rfl
  | minus => rfl

/-! ## Digits -/

/-- What may go on a row of digits: nothing, more digits, or an underscore and more digits. -/
def Continues (cs : List Char) (ds : List Nat) : Prop :=
  (cs = [] ∧ ds = []) ∨ Row cs ds ∨ ∃ more, cs = '_' :: more ∧ Row more ds

theorem Row.of_continues {d : Nat} (worth : Unicode.digitValue? c = some d)
    (h : Continues cs ds) : Row (c :: cs) (d :: ds) := by
  rcases h with ⟨rfl, rfl⟩ | hrow | ⟨more, rfl, hrow⟩
  · exact .last worth
  · exact .digit worth hrow
  · exact .underscore worth hrow

theorem Row.exists_head (h : Row cs ds) :
    ∃ c rest d, cs = c :: rest ∧ Unicode.digitValue? c = some d := by
  cases h with
  | last worth => exact ⟨_, _, _, rfl, worth⟩
  | digit worth more => exact ⟨_, _, _, rfl, worth⟩
  | underscore worth more => exact ⟨_, _, _, rfl, worth⟩

/-- A digit is neither a sign nor a space. -/
theorem Row.head_plain (h : Row cs ds) :
    ∀ c ∈ (cs ++ rest).head?, (c ≠ '-' ∧ c ≠ '+') ∧ isSpace c = false := by
  obtain ⟨d, more, worth, rfl, hd⟩ := h.exists_head
  intro c hc
  obtain rfl := Option.some.inj hc
  refine ⟨⟨?_, ?_⟩, ?_⟩
  · rintro rfl
    cases hd
  · rintro rfl
    cases hd
  · by_contra hspace
    rw [(not_digit_of_isSpace (by simpa using hspace)).1] at hd
    cases hd

/-- What is taken as digits is a row of them, or goes on one. -/
theorem digitRun_sound {afterDigit : Bool} {left : List Char}
    (h : digitRun afterDigit (cs.map plain) = some (ds, left)) :
    ∃ row rest, cs = row ++ rest ∧ left = rest.map plain ∧
      (Row row ds ∨ afterDigit = true ∧ Continues row ds) := by
  induction cs generalizing afterDigit ds with
  | nil =>
    cases afterDigit with
    | false => cases h
    | true =>
      cases h
      exact ⟨[], [], rfl, rfl, Or.inr ⟨rfl, Or.inl ⟨rfl, rfl⟩⟩⟩
  | cons c cs ih =>
    rw [List.map_cons, digitRun, ascii?_plain] at h
    split at h
    · next d hd =>
      obtain ⟨⟨more, left'⟩, hmore, heq⟩ := Option.map_eq_some_iff.mp h
      obtain ⟨rfl, rfl⟩ := Prod.mk.inj heq
      obtain ⟨row, rest, rfl, rfl, hrow⟩ := ih hmore
      have hgoes : Continues row more := hrow.elim (fun h => Or.inr (Or.inl h)) And.right
      exact ⟨c :: row, rest, rfl, rfl, Or.inl (.of_continues hd hgoes)⟩
    · split at h
      · next hunderscore =>
        obtain ⟨hmark, rfl⟩ := hunderscore
        obtain rfl := (plain_eq_iff (by decide)).mp hmark
        obtain ⟨row, rest, rfl, rfl, hrow⟩ := ih h
        have hmore : Row row ds := hrow.resolve_right fun hno => Bool.false_ne_true hno.1
        exact ⟨'_' :: row, rest, rfl, rfl, Or.inr ⟨rfl, Or.inr (Or.inr ⟨row, rfl, hmore⟩)⟩⟩
      · split at h
        · next hafter =>
          cases h
          exact ⟨[], c :: cs, rfl, rfl, Or.inr ⟨hafter, Or.inl ⟨rfl, rfl⟩⟩⟩
        · cases h

/-- A row of digits is taken as a whole where a space follows it, or nothing. -/
theorem digitRun_complete (h : Row cs ds) (hrest : ∀ c ∈ rest.head?, isSpace c = true)
    (afterDigit : Bool) :
    digitRun afterDigit ((cs ++ rest).map plain) = some (ds, rest.map plain) := by
  have hend : digitRun true (rest.map plain) = some ([], rest.map plain) := by
    cases rest with
    | nil => rfl
    | cons c rest =>
      obtain ⟨hdigit, hmark⟩ := not_digit_of_isSpace (hrest c rfl)
      simp [digitRun, hdigit, plain_eq_iff, hmark]
  induction h generalizing afterDigit with
  | last worth => simp [digitRun, worth, hend]
  | digit worth more ih => simp [digitRun, worth, -List.map_append, ih]
  | underscore worth more ih =>
    have hunderscore : plain '_' = '_' := rfl
    have hnone : Digits.ascii? '_' = none := rfl
    simp [digitRun, worth, hunderscore, hnone, -List.map_append, ih]

/-! ## Whole numbers -/

theorem dropWhile_isGap_map (cs : List Char) :
    (cs.map plain).dropWhile isGap = (cs.dropWhile isSpace).map plain := by
  have hsame : isGap ∘ plain = isSpace := funext isGap_plain
  rw [List.dropWhile_map, hsame]

theorem whole_of_read (h : read cs = .ok n) : Whole cs n := by
  unfold read readAscii at h
  rw [dropWhile_isGap_map, sign_map] at h
  obtain ⟨mark, hmark, hcs⟩ := sign_cases (cs.dropWhile isSpace)
  dsimp only at h
  split at h
  · cases h
  next ds left hrun =>
  split at h
  · cases h
  next hshort =>
  split at h
  · next hback =>
    obtain ⟨row, rest, hbody, rfl, hrow⟩ := digitRun_sound hrun
    have hrow := hrow.resolve_right fun hno => Bool.false_ne_true hno.1
    rw [dropWhile_isGap_map, List.map_eq_nil_iff, List.dropWhile_eq_nil_iff] at hback
    obtain rfl := Except.ok.inj h
    have hwhole := Whole.mk (fun c hc => List.mem_takeWhile_imp (p := isSpace) (l := cs) hc) hmark
      hrow (Nat.le_of_not_lt hshort) hback
    rwa [List.append_assoc, List.append_assoc, ← hbody, ← hcs,
      List.takeWhile_append_dropWhile] at hwhole
  · cases h

theorem read_of_whole (h : Whole cs n) : read cs = .ok n := by
  obtain ⟨before, sign, digits, short, after⟩ := h
  next front mark row back negative ds =>
  have hhead : ∀ c ∈ (mark ++ (row ++ back)).head?, isSpace c = false := by
    cases sign with
    | absent => exact fun c hc => (digits.head_plain c hc).2
    | plus | minus => exact fun c hc => Option.some.inj hc ▸ rfl
  have hback : (back.map plain).dropWhile isGap = [] := by
    rw [dropWhile_isGap_map, List.dropWhile_eq_nil_iff.mpr after, List.map_nil]
  unfold read readAscii
  rw [dropWhile_isGap_map, sign_map, List.append_assoc, List.append_assoc,
    Unicode.dropWhile_append_of_head before hhead,
    sign_append sign fun c hc => (digits.head_plain c hc).1]
  dsimp only
  rw [digitRun_complete digits fun c hc => after c (List.mem_of_mem_head? hc)]
  dsimp only
  rw [if_neg (Nat.not_lt_of_le short), if_pos hback]

/-- A text is read as a whole number if and only if it is a literal of it. -/
theorem read_eq_ok_iff : read cs = .ok n ↔ Whole cs n := ⟨whole_of_read, read_of_whole⟩

theorem Whole.unique {m : Int} (h : Whole cs n) (h' : Whole cs m) : n = m :=
  Except.ok.inj ((read_of_whole h).symm.trans (read_of_whole h'))

theorem Row.mem (h : Row cs ds) (hc : c ∈ cs) : (∃ d, Unicode.digitValue? c = some d) ∨ c = '_' := by
  induction h with
  | last worth => exact Or.inl ⟨_, List.mem_singleton.mp hc ▸ worth⟩
  | digit worth more ih =>
    rcases List.mem_cons.mp hc with rfl | hc
    · exact Or.inl ⟨_, worth⟩
    · exact ih hc
  | underscore worth more ih =>
    rcases List.mem_cons.mp hc with rfl | hc
    · exact Or.inl ⟨_, worth⟩
    rcases List.mem_cons.mp hc with rfl | hc
    · exact Or.inr rfl
    · exact ih hc

theorem Whole.ne_nil (h : Whole cs n) : cs ≠ [] := by
  obtain ⟨-, -, digits, -, -⟩ := h
  obtain ⟨c, rest, d, rfl, -⟩ := digits.exists_head
  simp

/-- A literal has no colon in it. -/
theorem Whole.colon_notMem (h : Whole cs n) : ':' ∉ cs := by
  obtain ⟨before, sign, digits, -, after⟩ := h
  intro hmem
  simp only [List.mem_append] at hmem
  rcases hmem with ((hfront | hmark) | hrow) | hback
  · exact absurd (before _ hfront) (by decide)
  · cases sign <;> simp at hmark
  · rcases digits.mem hrow with ⟨d, hd⟩ | hunderscore
    · cases hd
    · cases hunderscore
  · exact absurd (after _ hback) (by decide)

/-! ## Numbers read back -/

/-- The number is written with no more digits than a literal may have. -/
def Short (n : Int) : Prop := (Digits.ofNat n.natAbs).length ≤ digitLimit

instance (n : Int) : Decidable (Short n) := inferInstanceAs (Decidable (_ ≤ _))

theorem digitValue?_of_isDigit (h : c.isDigit = true) :
    Unicode.digitValue? c = some (c.toNat - '0'.toNat) := by
  have hhigh : c.toNat ≤ 57 := (Digits.isDigit_iff.mp h).2
  rw [digitValue?_of_ascii (by omega), Digits.ascii?_of_isDigit h]

theorem isBlank_of_isDigit (h : c.isDigit = true) : Unicode.isBlank c = false := by
  by_contra hblank
  have hnone := digitValue?_of_isBlank (by simpa using hblank)
  rw [digitValue?_of_isDigit h] at hnone
  cases hnone

theorem Row.of_digits (hne : cs ≠ []) (h : ∀ c ∈ cs, c.isDigit = true) :
    Row cs (Digits.worths cs) := by
  induction cs with
  | nil => exact absurd rfl hne
  | cons c cs ih =>
    obtain ⟨hc, hcs⟩ := List.forall_mem_cons.mp h
    have hworth := digitValue?_of_isDigit hc
    cases cs with
    | nil => exact .last hworth
    | cons d cs => exact .digit hworth (ih (List.cons_ne_nil _ _) hcs)

/-- A number that is not too long is read as it is written. -/
theorem whole_ofInt (h : Short n) : Whole (Digits.ofInt n) n := by
  have hdigits : ∀ m : Nat, Row (Digits.ofNat m) (Digits.worths (Digits.ofNat m)) := fun m =>
    .of_digits Nat.toDigits_ne_nil fun c hc => Digits.isDigit_of_mem_ofNat hc
  have hshort : ∀ m : Nat, (Digits.ofNat m).length ≤ digitLimit →
      (Digits.worths (Digits.ofNat m)).length ≤ digitLimit := fun m hm => by
    rwa [Digits.worths, List.length_map]
  have hnone : ∀ c ∈ ([] : List Char), isSpace c = true := fun c hc => absurd hc List.not_mem_nil
  cases n with
  | ofNat m =>
    have hwhole := Whole.mk hnone .absent (hdigits m) (hshort m h) hnone
    rw [Digits.value_worths, List.append_nil] at hwhole
    exact hwhole
  | negSucc m =>
    have hwhole := Whole.mk hnone .minus (hdigits (m + 1)) (hshort (m + 1) h) hnone
    rw [Digits.value_worths, List.append_nil] at hwhole
    exact hwhole

end Literal

end Concentric
