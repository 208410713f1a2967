import Concentric.Chain
import Concentric.Position.Pair
import Concentric.Proofs.Stream
import Concentric.Proofs.WholeLiterals

/-! Positions read from values. A text names a position if it is a whole number, or two of them with
a colon between, and no other text does. Any value names a position or is reported for what is wrong
with it, unless one of its coordinates is a number without bound. What a position is written as is
read back as the position, with any blanks around it. -/

namespace Concentric

/-! ## Numbers without bound -/

namespace Value

variable {v : Value}

/-- The number is not finite, and greater or less than all others. -/
def IsInfinite (v : Value) : Prop := ∃ negative, v = .real (.infinite negative)

theorem toWhole_eq_infinite : v.toWhole = .error .infinite ↔ v.IsInfinite := by
  have hliteral : ∀ (text : String) (x : Except LiteralFault Int),
      x.mapError (Failure.ofLiteral text) ≠ .error .infinite := by
    intro text x
    cases x with
    | ok n => exact nofun
    | error e => cases e <;> exact nofun
  constructor
  · intro h
    cases v with
    | real x =>
      cases x with
      | infinite negative => exact ⟨negative, rfl⟩
      | _ => cases h
    | text s => exact absurd h (hliteral _ _)
    | octets bs => exact absurd h (hliteral _ _)
    | _ => cases h
  · rintro ⟨negative, rfl⟩
    rfl

end Value

namespace Position

variable {line character : Value} {p : Position} {s : String}

/-- The failure is a report of what is wrong with a position. -/
def Faulty (f : Failure) : Prop := ∃ fault v, f = .report (.invalidPosition fault v)

/-- There is a position, or a report of what is wrong with it. -/
def Settled (x : Except Failure Position) : Prop := (∃ p, x = .ok p) ∨ ∃ f, x = .error f ∧ Faulty f

/-- A coordinate without bound comes to be looked at: the line, or the character after a line that
stands for a whole number. -/
def Unbounded (line character : Value) : Prop :=
  line.IsInfinite ∨ (∃ n, line.toWhole = .ok n) ∧ character.IsInfinite

theorem coordinate_cases (fault : PositionFault) (v : Value) :
    (∃ n, v.toWhole = .ok n ∧ coordinate fault v = .ok n) ∨
      (v.IsInfinite ∧ coordinate fault v = .error .infinite) ∨
      ((∀ n, v.toWhole ≠ .ok n) ∧ ∃ f, coordinate fault v = .error f ∧ Faulty f) := by
  rw [← Value.toWhole_eq_infinite]
  unfold coordinate
  cases hv : v.toWhole with
  | ok n => exact Or.inl ⟨n, rfl, rfl⟩
  | error f =>
    cases f with
    | infinite => exact Or.inr (Or.inl ⟨rfl, rfl⟩)
    | _ => exact Or.inr (Or.inr ⟨nofun, _, rfl, fault, v, rfl⟩)

theorem ofCoordinates_of_ok {l c : Int} (hline : line.toWhole = .ok l)
    (hcharacter : character.toWhole = .ok c) : ofCoordinates line character = .ok (clamped l c) := by
  unfold ofCoordinates coordinate
  rw [hline, hcharacter]
  rfl

/-- A coordinate without bound is a failure of its own. -/
theorem ofCoordinates_of_unbounded (h : Unbounded line character) :
    ofCoordinates line character = .error .infinite := by
  unfold ofCoordinates coordinate
  rcases h with hline | ⟨⟨l, hline⟩, hcharacter⟩
  · rw [Value.toWhole_eq_infinite.mpr hline]
    rfl
  · rw [hline, Value.toWhole_eq_infinite.mpr hcharacter]
    rfl

/-- Other coordinates are whole numbers, or the first that is none is reported. -/
theorem ofCoordinates_of_bounded (h : ¬ Unbounded line character) :
    (∃ l c, line.toWhole = .ok l ∧ character.toWhole = .ok c) ∨
      (((∀ l, line.toWhole ≠ .ok l) ∨ ∀ c, character.toWhole ≠ .ok c) ∧
        ∃ f, ofCoordinates line character = .error f ∧ Faulty f) := by
  rcases coordinate_cases .lineNotWhole line with
    ⟨l, hl, hline⟩ | ⟨hinfinite, -⟩ | ⟨hl, f, hline, hfaulty⟩
  · rcases coordinate_cases .characterNotWhole character with
      ⟨c, hc, -⟩ | ⟨hinfinite, -⟩ | ⟨hc, f, hcharacter, hfaulty⟩
    · exact Or.inl ⟨l, c, hl, hc⟩
    · exact absurd (Or.inr ⟨⟨l, hl⟩, hinfinite⟩) h
    · refine Or.inr ⟨Or.inr hc, f, ?_, hfaulty⟩
      rw [ofCoordinates, hline, Failure.ok_bind, hcharacter]
      rfl
  · exact absurd (Or.inl hinfinite) h
  · refine Or.inr ⟨Or.inl hl, f, ?_, hfaulty⟩
    rw [ofCoordinates, hline]
    rfl

/-! ## Texts -/

/-- The text names the position: as a line, or as a line and a character with a colon between. What
is below zero counts as zero. -/
inductive Named : List Char → Position → Prop
  | line {cs : List Char} {l : Int} (h : Literal.Whole cs l) : Named cs ⟨l.toNat, 0⟩
  | both {cs ds : List Char} {l c : Int} (line : Literal.Whole cs l) (first : ':' ∉ cs)
      (character : Literal.Whole ds c) : Named (cs ++ ':' :: ds) ⟨l.toNat, c.toNat⟩

theorem toWhole_text {cs : List Char} {n : Int} :
    (Value.text (String.ofList cs)).toWhole = .ok n ↔ Literal.Whole cs n := by
  rw [← Literal.read_eq_ok_iff, Value.toWhole, String.toList_ofList]
  cases Literal.read cs <;> simp [Except.mapError]

theorem cut?_eq_none_iff {mark : Char} {cs : List Char} :
    Text.cut? mark cs = none ↔ mark ∉ cs := by
  rw [← not_iff_not, ← ne_eq, Option.ne_none_iff_exists', not_not]
  constructor
  · rintro ⟨⟨a, b⟩, h⟩
    rw [(Text.cut?_eq_some_iff.mp h).1]
    simp
  · intro h
    obtain ⟨a, b, hcs, hfirst⟩ := List.eq_append_cons_of_mem h
    exact ⟨(a, b), Text.cut?_eq_some_iff.mpr ⟨hcs, hfirst⟩⟩

theorem named_of_cut {cs a b : List Char} (h : Text.cut? ':' cs = some (a, b)) :
    Named cs p ↔ ∃ l c, Literal.Whole a l ∧ Literal.Whole b c ∧ p = clamped l c := by
  obtain ⟨hcs, hfirst⟩ := Text.cut?_eq_some_iff.mp h
  constructor
  · intro hnamed
    cases hnamed with
    | line hwhole => exact absurd (by simp [hcs]) hwhole.colon_notMem
    | @both cs ds l c hline hcolon hcharacter =>
      have hcut : Text.cut? ':' (cs ++ ':' :: ds) = some (cs, ds) :=
        Text.cut?_eq_some_iff.mpr ⟨rfl, hcolon⟩
      obtain ⟨rfl, rfl⟩ := Prod.mk.inj (Option.some.inj (hcut.symm.trans h))
      exact ⟨l, c, hline, hcharacter, rfl⟩
  · rintro ⟨l, c, hline, hcharacter, rfl⟩
    rw [hcs]
    exact .both hline hfirst hcharacter

theorem named_of_uncut {cs : List Char} (h : Text.cut? ':' cs = none) :
    Named cs p ↔ ∃ l, Literal.Whole cs l ∧ p = clamped l 0 := by
  constructor
  · intro hnamed
    cases hnamed with
    | line hwhole => exact ⟨_, hwhole, rfl⟩
    | both hline hcolon hcharacter => exact absurd (by simp) (cut?_eq_none_iff.mp h)
  · rintro ⟨l, hline, rfl⟩
    exact .line hline

/-- A text up to its colon, and what stands for the character. -/
theorem ofHead_cases (s : String) (head : List Char) {tail : Value} (hfinite : ¬ tail.IsInfinite) :
    (∃ l c, Literal.Whole head l ∧ tail.toWhole = .ok c ∧
      (if head = [] then .error (.report (.invalidPosition .textWithoutLine (.text s)))
        else ofCoordinates (.text (String.ofList head)) tail) = .ok (clamped l c)) ∨
    ((∀ l c, Literal.Whole head l → tail.toWhole ≠ .ok c) ∧ ∃ f,
      (if head = [] then .error (.report (.invalidPosition .textWithoutLine (.text s)))
        else ofCoordinates (.text (String.ofList head)) tail) = .error f ∧ Faulty f) := by
  by_cases hhead : head = []
  · rw [if_pos hhead]
    exact Or.inr ⟨fun l c hline => absurd hhead hline.ne_nil, _, rfl, _, _, rfl⟩
  rw [if_neg hhead]
  have hbounded : ¬ Unbounded (.text (String.ofList head)) tail := by
    rintro (⟨negative, hline⟩ | ⟨-, hcharacter⟩)
    · cases hline
    · exact hfinite hcharacter
  rcases ofCoordinates_of_bounded hbounded with ⟨l, c, hline, hcharacter⟩ | ⟨hnot, hfaulty⟩
  · exact Or.inl ⟨l, c, toWhole_text.mp hline, hcharacter, ofCoordinates_of_ok hline hcharacter⟩
  · refine Or.inr ⟨fun l c hline => ?_, hfaulty⟩
    exact (hnot.resolve_left fun hno => hno l (toWhole_text.mpr hline)) c

theorem ofText_cases (s : String) :
    (∃ p, Named (Unicode.trim s.toList) p ∧ ofText s = .ok p) ∨
      ((∀ p, ¬ Named (Unicode.trim s.toList) p) ∧ ∃ f, ofText s = .error f ∧ Faulty f) := by
  unfold ofText
  cases hcut : Text.cut? ':' (Unicode.trim s.toList) with
  | some parts =>
    obtain ⟨a, b⟩ := parts
    simp only [named_of_cut hcut]
    have htext : ¬ (Value.text (String.ofList b)).IsInfinite := fun ⟨negative, h⟩ => by cases h
    refine (ofHead_cases s a htext).imp ?_ ?_
    · rintro ⟨l, c, hline, hcharacter, hok⟩
      exact ⟨_, ⟨l, c, hline, toWhole_text.mp hcharacter, rfl⟩, hok⟩
    · rintro ⟨hnot, hfaulty⟩
      refine ⟨?_, hfaulty⟩
      rintro p ⟨l, c, hline, hcharacter, -⟩
      exact hnot l c hline (toWhole_text.mpr hcharacter)
  | none =>
    simp only [named_of_uncut hcut]
    have hzero : ¬ (Value.whole 0).IsInfinite := fun ⟨negative, h⟩ => by cases h
    refine (ofHead_cases s (Unicode.trim s.toList) hzero).imp ?_ ?_
    · rintro ⟨l, c, hline, hcharacter, hok⟩
      obtain rfl := Except.ok.inj hcharacter
      exact ⟨_, ⟨l, hline, rfl⟩, hok⟩
    · rintro ⟨hnot, hfaulty⟩
      refine ⟨?_, hfaulty⟩
      rintro p ⟨l, hline, -⟩
      exact hnot l 0 hline rfl

theorem Named.unique {cs : List Char} (h : Named cs p) {q : Position} (h' : Named cs q) : p = q := by
  cases hcut : Text.cut? ':' cs with
  | some parts =>
    obtain ⟨l, c, hl, hc, rfl⟩ := (named_of_cut hcut).mp h
    obtain ⟨l', c', hl', hc', rfl⟩ := (named_of_cut hcut).mp h'
    rw [hl.unique hl', hc.unique hc']
  | none =>
    obtain ⟨l, hl, rfl⟩ := (named_of_uncut hcut).mp h
    obtain ⟨l', hl', rfl⟩ := (named_of_uncut hcut).mp h'
    rw [hl.unique hl']

theorem ofText_of_named (h : Named (Unicode.trim s.toList) p) : ofText s = .ok p := by
  rcases ofText_cases s with ⟨q, hq, hok⟩ | ⟨hnot, -⟩
  · rw [hok, hq.unique h]
  · exact absurd h (hnot p)

/-- A text is read as a position if and only if it names that position once the blanks around it are
dropped, and any text that names none is reported. -/
theorem ofValue_text_iff (s : String) :
    (∀ p, ofValue (.text s) = .ok p ↔ Named (Unicode.trim s.toList) p) ∧
      ((∃ p, Named (Unicode.trim s.toList) p) ∨ ∃ f, ofValue (.text s) = .error f ∧ Faulty f) := by
  refine ⟨fun p => ⟨fun hok => ?_, ofText_of_named⟩, ?_⟩
  · rcases ofText_cases s with ⟨q, hq, hread⟩ | ⟨-, f, herror, -⟩
    · exact Except.ok.inj (hread.symm.trans hok) ▸ hq
    · cases herror.symm.trans hok
  · exact (ofText_cases s).imp (fun ⟨p, hp, _⟩ => ⟨p, hp⟩) And.right

/-- An Arabic digit and an ASCII one make twelve, and a character below zero counts as zero. -/
example : (ofValue (.text " +١_2 : -3")).toOption = some ⟨12, 0⟩ := by decide +kernel

/-! ## Values of any kind -/

/-- What a value that is neither a position nor a text has for line and character: two entries, the
entries of a map under these names, the second of which may be missing, or two attributes that are
there. -/
inductive Shows : Value → Value → Value → Prop
  | list (line character : Value) : Shows (.list [line, character]) line character
  | tuple (line character : Value) : Shows (.tuple [line, character]) line character
  | map {es : List (String × Value)} {line : Value} (h : Value.lookup? "line" es = some line) :
      Shows (.map es) line ((Value.lookup? "character" es).getD (.whole 0))
  | thing {attributes : List (String × Value)} {line character : Value}
      (hline : Value.lookup? "line" attributes = some line) (there : line ≠ .nothing)
      (hcharacter : Value.lookup? "character" attributes = some character)
      (there' : character ≠ .nothing) : Shows (.thing attributes) line character

theorem ofValue_of_shows {v : Value} (h : Shows v line character) :
    ofValue v = ofCoordinates line character := by
  cases h with
  | list | tuple => rfl
  | map h => rw [ofValue, h]
  | thing hline there hcharacter there' =>
    simp only [ofValue, Value.attribute?, hline, hcharacter]

/-- A value that has no line and character is a position or a text, or is reported. -/
theorem shows_or_settled (v : Value) :
    (∃ line character, Shows v line character) ∨ Settled (ofValue v) := by
  have hentries : ∀ whole vs, (∀ line character, vs ≠ [line, character]) →
      Settled (ofEntries whole vs) := by
    intro whole vs hnot
    unfold ofEntries
    split
    · exact absurd rfl (hnot _ _)
    · exact Or.inr ⟨_, rfl, _, _, rfl⟩
  have hreported : ∀ fault w, Settled (.error (.report (.invalidPosition fault w))) :=
    fun fault w => Or.inr ⟨_, rfl, fault, w, rfl⟩
  by_cases hshows : ∃ line character, Shows v line character
  · exact Or.inl hshows
  have hnot : ∀ line character, ¬ Shows v line character := fun l c h => hshows ⟨l, c, h⟩
  refine Or.inr ?_
  cases v with
  | position p => exact Or.inl ⟨p, rfl⟩
  | text s => exact (ofText_cases s).imp (fun ⟨p, _, hok⟩ => ⟨p, hok⟩) And.right
  | list vs => exact hentries _ vs fun l c h => hnot l c (h ▸ .list l c)
  | tuple vs => exact hentries _ vs fun l c h => hnot l c (h ▸ .tuple l c)
  | map es =>
    simp only [ofValue]
    split
    · exact hreported _ _
    · next line hline => exact absurd (.map hline) (hnot _ _)
  | thing attributes =>
    simp only [ofValue, Value.attribute?]
    split
    · exact hreported _ _
    · exact hreported _ _
    · exact hreported _ _
    · exact hreported _ _
    · next line character there there' hline hcharacter =>
      exact absurd (.thing hline there hcharacter there') (hnot _ _)
  | _ => exact hreported _ _

/-- A coordinate without bound comes to be looked at in the value. -/
def MeetsInfinite (v : Value) : Prop :=
  ∃ line character, Shows v line character ∧ Unbounded line character

theorem ofValue_of_meetsInfinite {v : Value} (h : MeetsInfinite v) :
    ofValue v = .error .infinite := by
  obtain ⟨line, character, hshows, hunbounded⟩ := h
  exact (ofValue_of_shows hshows).trans (ofCoordinates_of_unbounded hunbounded)

theorem settled_of_not_meetsInfinite {v : Value} (h : ¬ MeetsInfinite v) : Settled (ofValue v) := by
  rcases shows_or_settled v with ⟨line, character, hshows⟩ | hsettled
  · rw [ofValue_of_shows hshows]
    have hbounded : ¬ Unbounded line character := fun hunbounded => h ⟨_, _, hshows, hunbounded⟩
    rcases ofCoordinates_of_bounded hbounded with ⟨l, c, hline, hcharacter⟩ | ⟨-, hfaulty⟩
    · exact Or.inl ⟨_, ofCoordinates_of_ok hline hcharacter⟩
    · exact Or.inr hfaulty
  · exact hsettled

theorem not_settled_of_infinite {x : Except Failure Position} (h : x = .error .infinite) :
    ¬ Settled x := by
  rintro (⟨p, hok⟩ | ⟨f, herror, fault, v, rfl⟩)
  · cases h.symm.trans hok
  · cases h.symm.trans herror

/-- A value of any kind names a position or is reported, unless a coordinate without bound comes to
be looked at in it; that is a failure of its own. -/
theorem ofValue_settled_iff (v : Value) :
    (Settled (ofValue v) ↔ ¬ MeetsInfinite v) ∧ (ofValue v = .error .infinite ↔ MeetsInfinite v) := by
  refine ⟨⟨fun hsettled hmeets => ?_, settled_of_not_meetsInfinite⟩,
    ⟨fun hinfinite => ?_, ofValue_of_meetsInfinite⟩⟩
  · exact not_settled_of_infinite (ofValue_of_meetsInfinite hmeets) hsettled
  · by_contra hnot
    exact not_settled_of_infinite hinfinite (settled_of_not_meetsInfinite hnot)

/-- A line without bound, next to a character that is a number. -/
theorem infiniteLine_not_settled :
    ¬ Settled (ofValue (.list [.real (.infinite false), .whole 0])) :=
  not_settled_of_infinite rfl

/-! ## Positions as they are written -/

/-- Both coordinates are written with no more digits than may be read. -/
def Short (p : Position) : Prop := Literal.Short p.line ∧ Literal.Short p.character

instance (p : Position) : Decidable p.Short := inferInstanceAs (Decidable (_ ∧ _))

theorem toList_text (p : Position) :
    p.text.toList = Digits.ofNat p.line ++ ':' :: Digits.ofNat p.character := by
  simp [text, Digits.text, Digits.ofInt]

theorem named_text (h : p.Short) : Named p.text.toList p := by
  have hline : Literal.Whole (Digits.ofNat p.line) p.line := Literal.whole_ofInt h.1
  have hcharacter : Literal.Whole (Digits.ofNat p.character) p.character := Literal.whole_ofInt h.2
  rw [toList_text]
  exact .both hline hline.colon_notMem hcharacter

/-- Blanks around the text of a position are dropped, as it begins and ends with a digit. -/
theorem trim_text {a b : List Char} (ha : ∀ c ∈ a, Unicode.isBlank c = true)
    (hb : ∀ c ∈ b, Unicode.isBlank c = true) (p : Position) :
    Unicode.trim (a ++ p.text.toList ++ b) = p.text.toList := by
  have hdigit : ∀ {n : Nat} {c : Char}, c ∈ Digits.ofNat n → Unicode.isBlank c = false :=
    fun hc => Literal.isBlank_of_isDigit (Digits.isDigit_of_mem_ofNat hc)
  have hne : ∀ n, Digits.ofNat n ≠ [] := fun n => Nat.toDigits_ne_nil
  rw [toList_text]
  refine Unicode.trim_surrounded ha hb ?_ ?_
  · rw [List.head?_append_of_ne_nil _ (hne _)]
    exact fun c hc => hdigit (List.mem_of_mem_head? hc)
  · rw [← List.singleton_append, ← List.append_assoc, List.getLast?_append_of_ne_nil _ (hne _)]
    exact fun c hc => hdigit (List.mem_of_getLast? hc)

theorem ofCoordinates_whole (p : Position) :
    ofCoordinates (.whole p.line) (.whole p.character) = .ok p := rfl

/-- A position is read back from its text with any blanks around it, and from its map, its pair and
its list. So different positions have different texts. -/
theorem ofValue_written {a b : String} (h : p.Short) (ha : ∀ c ∈ a.toList, Unicode.isBlank c = true)
    (hb : ∀ c ∈ b.toList, Unicode.isBlank c = true) :
    ofValue (.text (a ++ p.text ++ b)) = .ok p ∧ ofValue p.toValue = .ok p ∧
      ofValue (.tuple (p.toList.map fun n => .whole n)) = .ok p ∧
      ofValue (.list (p.toList.map fun n => .whole n)) = .ok p ∧
      ∀ q : Position, q.Short → q.text = p.text → q = p := by
  have htrim := trim_text ha hb p
  refine ⟨ofText_of_named ?_, ofCoordinates_whole p, ofCoordinates_whole p, ofCoordinates_whole p,
    fun q hq htext => ?_⟩
  · rw [String.toList_append, String.toList_append, htrim]
    exact named_text h
  · exact (named_text hq).unique (htext ▸ named_text h)

/-- A line number of four digits, with a space before and a line feed and a no-break space after. -/
theorem deepLine_read :
    Short ⟨4096, 0⟩ ∧ (∀ c ∈ " ".toList, Unicode.isBlank c = true) ∧
      (∀ c ∈ "\n\u00a0".toList, Unicode.isBlank c = true) ∧
      ofValue (.text (" " ++ text ⟨4096, 0⟩ ++ "\n\u00a0")) = .ok ⟨4096, 0⟩ := by
  have hshort : Short ⟨4096, 0⟩ := by decide
  have hbefore : ∀ c ∈ " ".toList, Unicode.isBlank c = true := List.all_eq_true.mp (by decide)
  have hafter : ∀ c ∈ "\n\u00a0".toList, Unicode.isBlank c = true :=
    List.all_eq_true.mp (by decide)
  exact ⟨hshort, hbefore, hafter, (ofValue_written hshort hbefore hafter).1⟩

end Position

end Concentric
