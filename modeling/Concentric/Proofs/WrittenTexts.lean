import Concentric.Proofs.Decoding

/-! Written texts. Any text can be written as octets in UTF-8, UTF-16 and UTF-32, with a byte order
mark in front or, in UTF-8, without one. Such octets are loaded as the text that was written, with a
line feed for every break. Only where a text starts with a NUL or with the character of the mark
itself could one mark be taken for another, or a character for a mark. -/

namespace Concentric

/-! ## UTF-8 -/

namespace Utf8

variable {a b c d : UInt8} {bs rest : List UInt8}

theorem toNat_toUInt8 {n : Nat} (h : n < 256) : n.toUInt8.toNat = n := by
  simp [Nat.toUInt8, UInt8.toNat_ofNat']
  omega

theorem lt_iff_toNat (k : UInt8) : a < k ↔ a.toNat < k.toNat := Iff.rfl

theorem isContinuation_iff : isContinuation b = true ↔ 0x80 ≤ b.toNat ∧ b.toNat < 0xC0 := by
  simp [isContinuation, UInt8.le_iff_toNat_le, UInt8.lt_iff_toNat_lt]

theorem mayFollow_iff : mayFollow a b = true ↔ (0x80 ≤ b.toNat ∧ b.toNat < 0xC0) ∧
    (a.toNat = 0xE0 → 0xA0 ≤ b.toNat) ∧ (a.toNat = 0xED → b.toNat < 0xA0) ∧
    (a.toNat = 0xF0 → 0x90 ≤ b.toNat) ∧ (a.toNat = 0xF4 → b.toNat < 0x90) := by
  simp only [mayFollow, Bool.and_eq_true, isContinuation_iff, ← UInt8.toNat_inj]
  refine and_congr_right fun _ => ?_
  split_ifs <;> simp_all [UInt8.le_iff_toNat_le, UInt8.lt_iff_toNat_lt]

/-! Octets are read by the form of the first of them. -/

theorem next_one (ha : a.toNat < 0x80) : next (a :: rest) = .ok (Char.ofNat a.toNat, rest) := by
  have h : a < 0x80 := ha
  simp [next, h]

theorem next_two (ha : 0xC2 ≤ a.toNat) (ha' : a.toNat < 0xE0) (hb : isContinuation b = true) :
    next (a :: b :: rest) = .ok (Char.ofNat (a.toNat % 32 * 64 + payload b), rest) := by
  have h1 : ¬ a < 0x80 := by rw [lt_iff_toNat]; simp; omega
  have h2 : ¬ a < 0xC2 := by rw [lt_iff_toNat]; simp; omega
  have h3 : a < 0xE0 := ha'
  simp [next, h1, h2, h3, hb]

theorem next_three (ha : 0xE0 ≤ a.toNat) (ha' : a.toNat < 0xF0) (hb : mayFollow a b = true)
    (hc : isContinuation c = true) :
    next (a :: b :: c :: rest) =
      .ok (Char.ofNat (a.toNat % 16 * 4096 + payload b * 64 + payload c), rest) := by
  have h1 : ¬ a < 0x80 := by rw [lt_iff_toNat]; simp; omega
  have h2 : ¬ a < 0xC2 := by rw [lt_iff_toNat]; simp; omega
  have h3 : ¬ a < 0xE0 := by rw [lt_iff_toNat]; simp; omega
  have h4 : a < 0xF0 := ha'
  simp [next, h1, h2, h3, h4, hb, hc]

theorem next_four (ha : 0xF0 ≤ a.toNat) (ha' : a.toNat < 0xF5) (hb : mayFollow a b = true)
    (hc : isContinuation c = true) (hd : isContinuation d = true) :
    next (a :: b :: c :: d :: rest) = .ok (Char.ofNat
      (a.toNat % 8 * 262144 + payload b * 4096 + payload c * 64 + payload d), rest) := by
  have h1 : ¬ a < 0x80 := by rw [lt_iff_toNat]; simp; omega
  have h2 : ¬ a < 0xC2 := by rw [lt_iff_toNat]; simp; omega
  have h3 : ¬ a < 0xE0 := by rw [lt_iff_toNat]; simp; omega
  have h4 : ¬ a < 0xF0 := by rw [lt_iff_toNat]; simp; omega
  have h5 : a < 0xF5 := ha'
  simp [next, h1, h2, h3, h4, h5, hb, hc, hd]

/-- A character is read back from its octets, whatever comes after them. -/
theorem next_encodeChar (x : Char) (rest : List UInt8) :
    next (encodeChar x ++ rest) = .ok (x, rest) := by
  have hvalid : x.toNat < 0xD800 ∨ 0xDFFF < x.toNat ∧ x.toNat < 0x110000 := x.valid
  have hx : Char.ofNat x.toNat = x := Char.ofNat_toNat x
  have hlast := toNat_toUInt8 (show 0x80 + x.toNat % 64 < 256 by omega)
  have hmiddle := toNat_toUInt8 (show 0x80 + x.toNat / 64 % 64 < 256 by omega)
  unfold encodeChar
  dsimp only
  by_cases h1 : x.toNat < 0x80
  · have ha := toNat_toUInt8 (show x.toNat < 256 by omega)
    rw [if_pos h1, List.singleton_append, next_one (by omega), ha, hx]
  by_cases h2 : x.toNat < 0x800
  · have ha := toNat_toUInt8 (show 0xC0 + x.toNat / 64 < 256 by omega)
    have hsum : (0xC0 + x.toNat / 64) % 32 * 64 + (0x80 + x.toNat % 64) % 64 = x.toNat := by omega
    rw [if_neg h1, if_pos h2, List.cons_append, List.singleton_append,
      next_two (by omega) (by omega) (isContinuation_iff.mpr (by omega))]
    rw [payload, ha, hlast, hsum, hx]
  by_cases h3 : x.toNat < 0x10000
  · have ha := toNat_toUInt8 (show 0xE0 + x.toNat / 4096 < 256 by omega)
    have hsum : (0xE0 + x.toNat / 4096) % 16 * 4096 + (0x80 + x.toNat / 64 % 64) % 64 * 64 +
        (0x80 + x.toNat % 64) % 64 = x.toNat := by omega
    rw [if_neg h1, if_neg h2, if_pos h3, List.cons_append, List.cons_append, List.singleton_append,
      next_three (by omega) (by omega) (mayFollow_iff.mpr (by omega))
        (isContinuation_iff.mpr (by omega))]
    rw [payload, payload, ha, hmiddle, hlast, hsum, hx]
  · have ha := toNat_toUInt8 (show 0xF0 + x.toNat / 262144 < 256 by omega)
    have hb := toNat_toUInt8 (show 0x80 + x.toNat / 4096 % 64 < 256 by omega)
    have hsum : (0xF0 + x.toNat / 262144) % 8 * 262144 + (0x80 + x.toNat / 4096 % 64) % 64 * 4096 +
        (0x80 + x.toNat / 64 % 64) % 64 * 64 + (0x80 + x.toNat % 64) % 64 = x.toNat := by omega
    rw [if_neg h1, if_neg h2, if_neg h3, List.cons_append, List.cons_append, List.cons_append,
      List.singleton_append, next_four (by omega) (by omega) (mayFollow_iff.mpr (by omega))
        (isContinuation_iff.mpr (by omega)) (isContinuation_iff.mpr (by omega))]
    rw [payload, payload, payload, ha, hb, hmiddle, hlast, hsum, hx]

theorem decodeFrom_of_next {x : Char} (h : next bs = .ok (x, rest)) (place : Nat) :
    decodeFrom place bs = (decodeFrom (place + (encodeChar x).length) rest).map (x :: ·) := by
  cases bs with
  | nil => cases h
  | cons b bs =>
    rw [decodeFrom]
    split
    · next f hf =>
      rw [h] at hf
      cases hf
    · next y rest' hy =>
      rw [h] at hy
      cases hy
      rfl

theorem encode_cons (x : Char) (cs : List Char) : encode (x :: cs) = encodeChar x ++ encode cs :=
  List.flatMap_cons

/-- A text is read back from its octets. -/
theorem decode_encode (cs : List Char) : decode (encode cs) = .ok cs := by
  have hfrom : ∀ place, decodeFrom place (encode cs) = .ok cs := by
    induction cs with
    | nil =>
      intro place
      rw [encode, List.flatMap_nil, decodeFrom]
    | cons x cs ih =>
      intro place
      rw [encode_cons, decodeFrom_of_next (next_encodeChar x _), ih]
      rfl
  exact hfrom 0

end Utf8

/-! ## UTF-16 and UTF-32 -/

/-- Which octet of a unit comes first: the low one or the high one. -/
inductive ByteOrder
  | little
  | big
  deriving DecidableEq, Repr

namespace ByteOrder

def octets16 : ByteOrder → Nat → List UInt8
  | little, n => [n.toUInt8, (n / 256).toUInt8]
  | big, n => [(n / 256).toUInt8, n.toUInt8]

def octets32 : ByteOrder → Nat → List UInt8
  | little, n => octets16 little n ++ octets16 little (n / 65536)
  | big, n => octets16 big (n / 65536) ++ octets16 big n

def unit16 : ByteOrder → UInt8 → UInt8 → Nat
  | little => Codec.little16
  | big => Codec.big16

def unit32 : ByteOrder → UInt8 → UInt8 → UInt8 → UInt8 → Nat
  | little => Codec.little32
  | big => Codec.big32

theorem octets16_eq (o : ByteOrder) {n : Nat} (h : n < 65536) :
    ∃ a b, o.octets16 n = [a, b] ∧ o.unit16 a b = n := by
  have hlow : n.toUInt8.toNat = n % 256 := UInt8.toNat_ofNat'
  have hhigh := Utf8.toNat_toUInt8 (show n / 256 < 256 by omega)
  cases o <;> refine ⟨_, _, rfl, ?_⟩
  · rw [unit16, Codec.little16]
    omega
  · rw [unit16, Codec.big16]
    omega

theorem octets32_eq (o : ByteOrder) {n : Nat} (h : n < 4294967296) :
    ∃ a b c d, o.octets32 n = [a, b, c, d] ∧ o.unit32 a b c d = n := by
  have hlow : ∀ m : Nat, m.toUInt8.toNat = m % 256 := fun m => UInt8.toNat_ofNat'
  cases o <;> refine ⟨_, _, _, _, rfl, ?_⟩
  · simp only [unit32, Codec.little32, Codec.little16, hlow]
    omega
  · simp only [unit32, Codec.big32, Codec.big16, hlow]
    omega

end ByteOrder

namespace Codec

variable {us : List Nat}

/-- The units of sixteen bits of a character: one, or a high and a low surrogate. -/
def units16 (c : Char) : List Nat :=
  if c.toNat < 0x10000 then [c.toNat]
  else [0xD800 + (c.toNat - 0x10000) / 1024, 0xDC00 + (c.toNat - 0x10000) % 1024]

def encode16 (o : ByteOrder) (cs : List Char) : List UInt8 :=
  (cs.flatMap units16).flatMap o.octets16

def encode32 (o : ByteOrder) (cs : List Char) : List UInt8 :=
  (cs.map Char.toNat).flatMap o.octets32

theorem toNat_lt (c : Char) : c.toNat < 0x110000 := by
  have hvalid : c.toNat < 0xD800 ∨ 0xDFFF < c.toNat ∧ c.toNat < 0x110000 := c.valid
  omega

theorem units16_lt (c : Char) : ∀ u ∈ units16 c, u < 65536 := by
  have hc := toNat_lt c
  unfold units16
  split
  · simpa
  · simp only [List.forall_mem_cons]
    exact ⟨by omega, by omega, fun _ h => absurd h List.not_mem_nil⟩

theorem pairs_octets16 (o : ByteOrder) (h : ∀ u ∈ us, u < 65536) :
    pairs o.unit16 (us.flatMap o.octets16) = some us := by
  induction us with
  | nil => rfl
  | cons u us ih =>
    obtain ⟨hu, hus⟩ := List.forall_mem_cons.mp h
    obtain ⟨a, b, hoctets, hunit⟩ := o.octets16_eq hu
    rw [List.flatMap_cons, hoctets, List.cons_append, List.singleton_append, pairs, ih hus, hunit]
    rfl

theorem quads_octets32 (o : ByteOrder) (h : ∀ u ∈ us, u < 4294967296) :
    quads o.unit32 (us.flatMap o.octets32) = some us := by
  induction us with
  | nil => rfl
  | cons u us ih =>
    obtain ⟨hu, hus⟩ := List.forall_mem_cons.mp h
    obtain ⟨a, b, c, d, hoctets, hunit⟩ := o.octets32_eq hu
    rw [List.flatMap_cons, hoctets]
    simp only [List.cons_append, List.nil_append]
    rw [quads, ih hus, hunit]
    rfl

/-- A character is read back from its units, whatever comes after them. -/
theorem ofUnits16_units16 (c : Char) (us : List Nat) :
    ofUnits16 (units16 c ++ us) = (ofUnits16 us).map (c :: ·) := by
  have hvalid : c.toNat < 0xD800 ∨ 0xDFFF < c.toNat ∧ c.toNat < 0x110000 := c.valid
  have hc : Char.ofNat c.toNat = c := Char.ofNat_toNat c
  unfold units16
  split
  · rw [List.singleton_append, ofUnits16.eq_def]
    dsimp only
    rw [if_neg (by omega), if_neg (by omega), hc]
  · have hsum : 0x10000 + (0xD800 + (c.toNat - 0x10000) / 1024 - 0xD800) * 1024 +
        (0xDC00 + (c.toNat - 0x10000) % 1024 - 0xDC00) = c.toNat := by omega
    rw [List.cons_append, List.singleton_append, ofUnits16.eq_def]
    dsimp only
    rw [if_pos (by omega), if_pos (by omega), hsum, hc]

theorem ofUnits16_flatMap (cs : List Char) : ofUnits16 (cs.flatMap units16) = some cs := by
  induction cs with
  | nil => rfl
  | cons c cs ih =>
    rw [List.flatMap_cons, ofUnits16_units16, ih]
    rfl

theorem decode16_encode16 (o : ByteOrder) (cs : List Char) :
    decode16 o.unit16 (encode16 o cs) = some cs := by
  have hlt : ∀ u ∈ cs.flatMap units16, u < 65536 := by
    intro u hu
    obtain ⟨c, -, hc⟩ := List.mem_flatMap.mp hu
    exact units16_lt c u hc
  rw [decode16, encode16, pairs_octets16 o hlt]
  exact ofUnits16_flatMap cs

theorem ofCodePoint?_toNat (c : Char) : ofCodePoint? c.toNat = some c := by
  have hvalid : c.toNat.isValidChar := c.valid
  rw [ofCodePoint?, dif_pos hvalid]
  rfl

theorem decode32_encode32 (o : ByteOrder) (cs : List Char) :
    decode32 o.unit32 (encode32 o cs) = some cs := by
  have hlt : ∀ u ∈ cs.map Char.toNat, u < 4294967296 := by
    intro u hu
    obtain ⟨c, -, rfl⟩ := List.mem_map.mp hu
    have := toNat_lt c
    omega
  have hpoints : (cs.map Char.toNat).mapM ofCodePoint? = some cs := by
    have hpure : ofCodePoint? ∘ Char.toNat = pure := funext ofCodePoint?_toNat
    rw [List.mapM_map, hpure, List.mapM_pure]
    simp
  rw [decode32, encode32, quads_octets32 o hlt]
  exact hpoints

/-! ## Reading by name -/

theorem ofName?_name (c : Codec) : ofName? c.name = some c := by
  cases c <;> decide +kernel

theorem isName_name (c : Codec) : IsName c.name := by
  cases c <;> decide

theorem decode?_nil (c : Codec) : c.decode? [] = some [] := by
  have hnil : Utf8.decode [] = .ok [] := Utf8.decode_encode []
  cases c with
  | utf8 | utf8Marked =>
    show (Utf8.decode []).toOption = some []
    rw [hnil]
    rfl
  | _ => rfl

/-- What octets are in a codec is what is read under its name. -/
theorem read_name {c : Codec} {bs : List UInt8} {cs : List Char} (l : Locale)
    (h : c.decode? bs = some cs) : read l c.name bs = .ok cs := by
  have hnul : c.name.toList.contains '\x00' = false := by simpa [IsName] using isName_name c
  unfold read
  rw [hnul, if_neg Bool.false_ne_true, ofName?_name]
  cases bs with
  | nil =>
    rw [Option.some.inj ((decode?_nil c).symm.trans h)]
    rfl
  | cons b bs =>
    rw [List.isEmpty_cons, if_neg Bool.false_ne_true]
    cases c with
    | utf8 =>
      show readUtf8 (b :: bs) = .ok cs
      rw [decode?] at h
      rw [readUtf8, Failure.eq_ok_of_toOption h]
      rfl
    | _ =>
      dsimp only
      rw [h]

end Codec

/-! ## Marks -/

/-- The ways to write any text as octets: UTF-8 without a mark or with one, and the others with one
and in either order. -/
inductive TextForm
  | utf8
  | utf8Marked
  | utf16 (o : ByteOrder)
  | utf32 (o : ByteOrder)
  deriving DecidableEq, Repr

namespace TextForm

def codec : TextForm → Codec
  | utf8 => .utf8
  | utf8Marked => .utf8Marked
  | utf16 .little => .utf16Little
  | utf16 .big => .utf16Big
  | utf32 .little => .utf32Little
  | utf32 .big => .utf32Big

def mark : TextForm → List UInt8
  | utf8 => []
  | utf8Marked => [0xEF, 0xBB, 0xBF]
  | utf16 .little => [0xFF, 0xFE]
  | utf16 .big => [0xFE, 0xFF]
  | utf32 .little => [0xFF, 0xFE, 0x00, 0x00]
  | utf32 .big => [0x00, 0x00, 0xFE, 0xFF]

/-- The octets of a text after the mark. -/
def encode : TextForm → List Char → List UInt8
  | utf8, cs | utf8Marked, cs => Utf8.encode cs
  | utf16 o, cs => Codec.encode16 o cs
  | utf32 o, cs => Codec.encode32 o cs

/-- The octets of a text with the mark. -/
def octets (form : TextForm) (cs : List Char) : List UInt8 := form.mark ++ form.encode cs

/-- The text does not start with a NUL or with the character of the mark. -/
def Clear (cs : List Char) : Prop := ∀ c ∈ cs.head?, c ≠ '\x00' ∧ c ≠ '\uFEFF'

variable {cs : List Char}

/-- What is read of the mark: UTF-8 drops it on its own. -/
def front : TextForm → List Char
  | utf8 | utf8Marked => []
  | utf16 _ | utf32 _ => ['\uFEFF']

/-- Octets of a text are read as it, behind the mark where that is read as a character. -/
theorem decode?_octets (form : TextForm) (cs : List Char) :
    form.codec.decode? (form.octets cs) = some (form.front ++ cs) := by
  have hutf8 : Utf8.decode (Utf8.encode cs) = .ok cs := Utf8.decode_encode cs
  cases form with
  | utf8 | utf8Marked =>
    show (Utf8.decode (Utf8.encode cs)).toOption = some cs
    rw [hutf8]
    rfl
  | utf16 o =>
    -- the mark is the octets of the character
    have h := Codec.decode16_encode16 o ('\uFEFF' :: cs)
    cases o <;> exact h
  | utf32 o =>
    have h := Codec.decode32_encode32 o ('\uFEFF' :: cs)
    cases o <;> exact h

/-- Behind the mark of UTF-16 there is no NUL, which would make it the mark of UTF-32. -/
theorem no_zeros_encode16 (h : Clear cs) :
    [0x00, 0x00].isPrefixOf (Codec.encode16 .little cs) = false := by
  cases cs with
  | nil => rfl
  | cons c cs =>
    obtain ⟨u, us, hunits, hzero, hlt⟩ : ∃ u us, Codec.units16 c = u :: us ∧ u ≠ 0 ∧ u < 65536 := by
      have hlt := Codec.units16_lt c
      unfold Codec.units16 at hlt ⊢
      split at hlt
      · next hone =>
        refine ⟨_, _, if_pos hone, fun hzero => (h c rfl).1 ?_, hone⟩
        rw [← Char.ofNat_toNat c, hzero]
      · next hone => exact ⟨_, _, if_neg hone, by omega, hlt _ List.mem_cons_self⟩
    have hlow : u.toUInt8.toNat = u % 256 := UInt8.toNat_ofNat'
    have hhigh := Utf8.toNat_toUInt8 (show u / 256 < 256 by omega)
    have hnot : ¬ (0 = u.toUInt8 ∧ 0 = (u / 256).toUInt8) := by
      rintro ⟨hl, hh⟩
      rw [← hl] at hlow
      rw [← hh] at hhigh
      simp only [UInt8.toNat_zero] at hlow hhigh
      omega
    simpa [Codec.encode16, hunits, ByteOrder.octets16, List.isPrefixOf_cons_cons] using hnot

/-- Octets of UTF-8 do not start with a mark: three of them are no UTF-8, and the others are read as
the characters that the text does not start with. -/
theorem no_mark_encode (h : Clear cs) :
    ∀ m ∈ Codec.marks, m.1.isPrefixOf (Utf8.encode cs) = false := by
  intro m hm
  rw [Bool.eq_false_iff]
  intro hfront
  obtain ⟨rest, hrest⟩ := List.isPrefixOf_iff_prefix.mp hfront
  cases cs with
  | nil =>
    have hsome : ∀ m ∈ Codec.marks, m.1 ≠ [] := by decide
    exact hsome m hm (List.append_eq_nil_iff.mp hrest).1
  | cons c cs =>
    obtain ⟨hnul, hmark⟩ := h c rfl
    have hnext : Utf8.next (m.1 ++ rest) = .ok (c, Utf8.encode cs) := by
      rw [hrest, Utf8.encode_cons]
      exact Utf8.next_encodeChar c _
    simp only [Codec.marks, List.mem_cons, List.not_mem_nil, or_false] at hm
    rcases hm with rfl | rfl | rfl | rfl | rfl
    · simp [Utf8.next] at hnext
    · simp [Utf8.next] at hnext
      exact hnul hnext.1.symm
    · have hlead : Utf8.mayFollow 0xEF 0xBB = true := rfl
      have hlast : Utf8.isContinuation 0xBF = true := rfl
      rw [List.cons_append, List.cons_append, List.singleton_append,
        Utf8.next_three (by decide) (by decide) hlead hlast] at hnext
      injection hnext with hnext
      exact hmark (Prod.mk.inj hnext).1.symm
    · simp [Utf8.next] at hnext
    · simp [Utf8.next] at hnext

theorem sniff_octets (l : Locale) (form : TextForm) (h : Clear cs) :
    Codec.sniff l (form.octets cs) = .ok form.codec.name := by
  unfold Codec.sniff octets
  cases form with
  | utf8 =>
    have hnone : (Codec.marks.find? fun m => m.1.isPrefixOf (Utf8.encode cs)) = none :=
      List.find?_eq_none.mpr fun m hm => by simp [no_mark_encode h m hm]
    have hread : Codec.read l Codec.utf8.name (Utf8.encode cs) = .ok cs :=
      Codec.read_name l (decode?_octets .utf8 cs)
    simp only [mark, encode, List.nil_append, hnone, Codec.firstToRead, hread, codec]
  | utf8Marked => simp [Codec.marks, mark, codec]
  | utf16 o =>
    cases o with
    | little =>
      have hlong : [0xFF, 0xFE, 0x00, 0x00].isPrefixOf
          (0xFF :: 0xFE :: Codec.encode16 .little cs) = false := by
        simpa [List.isPrefixOf_cons_cons] using no_zeros_encode16 h
      simp [Codec.marks, mark, codec, encode, hlong]
    | big => simp [Codec.marks, mark, codec]
  | utf32 o => cases o <;> simp [Codec.marks, mark, codec]

end TextForm

namespace LoadedText

/-- One mark in front is dropped, and the text does not start with another. -/
theorem dropMark_front (form : TextForm) {cs : List Char} (h : TextForm.Clear cs) :
    dropMark (form.front ++ cs) = cs := by
  cases form with
  | utf8 | utf8Marked =>
    cases cs with
    | nil => rfl
    | cons c cs =>
      have hmark : c ≠ '\uFEFF' := (h c rfl).2
      show dropMark (c :: cs) = c :: cs
      rw [dropMark]
      intro rest heq
      exact hmark (List.cons.inj heq).1
  | utf16 o | utf32 o => rfl

theorem head?_normalize {cs : List Char} (h : TextForm.Clear cs) :
    (Lines.normalize cs).head? ≠ some '\uFEFF' := by
  unfold Lines.normalize
  split
  · simp
  · simp
  · simp
  · next c rest _ _ =>
    have hmark : c ≠ '\uFEFF' := (h c rfl).2
    simpa using hmark

/-- Octets of a text that starts neither with a NUL nor with the character of the mark are loaded as
the text with a line feed for every break, whatever codec is preferred where there is no mark. -/
theorem load_octets {t : FileTree} {l : Locale} {p : Path} {text : String} (form : TextForm)
    (hclear : TextForm.Clear text.toList) (hfile : t.read p = .ok (form.octets text.toList)) :
    load t l p "" = .ok ⟨p, Lines.normalizeText text, form.codec.name, .ofPath p⟩ ∧
      (Lines.normalizeText text).toList.head? ≠ some '\uFEFF' := by
  have hsniff := TextForm.sniff_octets l form hclear
  have hread := Codec.read_name l (form.decode?_octets text.toList)
  constructor
  · rw [load_of_read hfile, ofOctets_of_sniff hsniff, hread, Failure.ok_bind,
      dropMark_front form hclear]
    rfl
  · rw [Lines.normalizeText, String.toList_ofList]
    exact head?_normalize hclear

/-- A character whose low octet is zero, and one beyond sixteen bits, in little endian UTF-16: the
octets start as those of UTF-32 do, but for the last of its mark. -/
theorem twoUnits_loaded :
    TextForm.Clear "Ā\r\n😀\r".toList ∧
    load (.oneFile "a.md" [0xFF, 0xFE, 0x00, 0x01, 0x0D, 0x00, 0x0A, 0x00, 0x3D, 0xD8, 0x00, 0xDE,
      0x0D, 0x00]) { preferred := "cp1252" } ⟨"", ["a.md"]⟩ "" =
        .ok ⟨⟨"", ["a.md"]⟩, "Ā\n😀\n", "utf-16-le", .markdown⟩ := by
  have hclear : TextForm.Clear "Ā\r\n😀\r".toList := by
    intro c hc
    obtain rfl := Option.some.inj hc
    exact ⟨by decide, by decide⟩
  exact ⟨hclear, (load_octets (.utf16 .little) hclear rfl).1⟩

end LoadedText

end Concentric
