import Concentric.Proofs.WrittenTexts

/-! Codecs read texts and nothing else. What a codec of a byte order mark reads is the octets of the
text that it reads, so that octets are read if and only if somebody could have written them: no
overlong form, no lone surrogate and no odd octet at the end gets through. Together with the octets
of `TextForm` this says which files have a text. -/

namespace Concentric

/-! ## UTF-8 -/

namespace Utf8

variable {a b c d : UInt8} {bs rest : List UInt8} {cs : List Char} {x : Char} {n : Nat}

theorem toNat_ofNat (h : n.isValidChar) : (Char.ofNat n).toNat = n := by
  rw [Char.ofNat, dif_pos h]
  rfl

theorem toUInt8_eq (h : n % 256 = a.toNat) : n.toUInt8 = a :=
  UInt8.toNat_inj.mp (UInt8.toNat_ofNat'.trans h)

/-! A character has the octets that it was read from. -/

theorem encodeChar_one (ha : a.toNat < 0x80) : encodeChar (Char.ofNat a.toNat) = [a] := by
  have hvalid : a.toNat.isValidChar := Or.inl (by omega)
  unfold encodeChar
  rw [toNat_ofNat hvalid]
  dsimp only
  rw [if_pos ha, toUInt8_eq (a := a) (by omega)]

theorem encodeChar_two (ha : 0xC2 ≤ a.toNat) (ha' : a.toNat < 0xE0)
    (hb : isContinuation b = true) :
    encodeChar (Char.ofNat (a.toNat % 32 * 64 + payload b)) = [a, b] := by
  have hb := isContinuation_iff.mp hb
  have hvalid : (a.toNat % 32 * 64 + b.toNat % 64).isValidChar := Or.inl (by omega)
  unfold encodeChar payload
  rw [toNat_ofNat hvalid]
  dsimp only
  rw [if_neg (by omega), if_pos (by omega), toUInt8_eq (a := a) (by omega),
    toUInt8_eq (a := b) (by omega)]

theorem encodeChar_three (ha : 0xE0 ≤ a.toNat) (ha' : a.toNat < 0xF0)
    (hb : mayFollow a b = true) (hc : isContinuation c = true) :
    encodeChar (Char.ofNat (a.toNat % 16 * 4096 + payload b * 64 + payload c)) = [a, b, c] := by
  obtain ⟨hb, hlow, hsurrogate, -⟩ := mayFollow_iff.mp hb
  have hc := isContinuation_iff.mp hc
  have hvalid : (a.toNat % 16 * 4096 + b.toNat % 64 * 64 + c.toNat % 64).isValidChar := by
    unfold Nat.isValidChar
    omega
  unfold encodeChar payload
  rw [toNat_ofNat hvalid]
  dsimp only
  rw [if_neg (by omega), if_neg (by omega), if_pos (by omega), toUInt8_eq (a := a) (by omega),
    toUInt8_eq (a := b) (by omega), toUInt8_eq (a := c) (by omega)]

theorem encodeChar_four (ha : 0xF0 ≤ a.toNat) (ha' : a.toNat < 0xF5)
    (hb : mayFollow a b = true) (hc : isContinuation c = true) (hd : isContinuation d = true) :
    encodeChar (Char.ofNat
      (a.toNat % 8 * 262144 + payload b * 4096 + payload c * 64 + payload d)) = [a, b, c, d] := by
  obtain ⟨hb, -, -, hlow, hhigh⟩ := mayFollow_iff.mp hb
  have hc := isContinuation_iff.mp hc
  have hd := isContinuation_iff.mp hd
  have hvalid : (a.toNat % 8 * 262144 + b.toNat % 64 * 4096 + c.toNat % 64 * 64 +
      d.toNat % 64).isValidChar := by
    unfold Nat.isValidChar
    omega
  unfold encodeChar payload
  rw [toNat_ofNat hvalid]
  dsimp only
  rw [if_neg (by omega), if_neg (by omega), if_neg (by omega), toUInt8_eq (a := a) (by omega),
    toUInt8_eq (a := b) (by omega), toUInt8_eq (a := c) (by omega),
    toUInt8_eq (a := d) (by omega)]

/-- What is read of octets is the octets of the character in front. -/
theorem eq_of_next (h : next bs = .ok (x, rest)) : bs = encodeChar x ++ rest := by
  revert h
  fun_cases next bs with
  | case2 a tail ha =>
    intro h
    cases h
    rw [encodeChar_one ha, List.singleton_append]
  | case6 a _ hlow hhigh b tail hb =>
    intro h
    cases h
    rw [encodeChar_two (Nat.le_of_not_lt hlow) hhigh (by simpa using hb)]
    rfl
  | case11 a _ _ hlow hhigh b c tail hb hc =>
    intro h
    cases h
    rw [encodeChar_three (Nat.le_of_not_lt hlow) hhigh (by simpa using hb) (by simpa using hc)]
    rfl
  | case18 a _ _ _ hlow hhigh b c d tail hb hc hd =>
    intro h
    cases h
    rw [encodeChar_four (Nat.le_of_not_lt hlow) hhigh (by simpa using hb) (by simpa using hc)
      (by simpa using hd)]
    rfl
  | _ =>
    intro h
    cases h

/-- Octets that are read have a character in front, and the rest of them is read. -/
theorem decodeFrom_cons {place : Nat} (h : decodeFrom place (b :: bs) = .ok cs) :
    ∃ x rest later, next (b :: bs) = .ok (x, rest) ∧
      decodeFrom (place + (encodeChar x).length) rest = .ok later ∧ cs = x :: later := by
  rw [decodeFrom] at h
  split at h
  · cases h
  next x rest hnext =>
  cases hlater : decodeFrom (place + (encodeChar x).length) rest with
  | error e =>
    rw [hlater] at h
    cases h
  | ok later =>
    rw [hlater] at h
    exact ⟨x, rest, later, hnext, hlater, (Except.ok.inj h).symm⟩

theorem eq_of_decodeFrom {place : Nat} (h : decodeFrom place bs = .ok cs) : bs = encode cs := by
  induction cs generalizing bs place with
  | nil =>
    cases bs with
    | nil => rfl
    | cons b bs =>
      obtain ⟨x, rest, later, -, -, hcs⟩ := decodeFrom_cons h
      cases hcs
  | cons y cs ih =>
    cases bs with
    | nil =>
      rw [decodeFrom] at h
      cases h
    | cons b bs =>
      obtain ⟨x, rest, later, hnext, hlater, hcs⟩ := decodeFrom_cons h
      cases hcs
      rw [eq_of_next hnext, encode_cons, ih hlater]

/-- Octets are read as a text if and only if they are the octets of that text. -/
theorem decode_eq_ok_iff : decode bs = .ok cs ↔ bs = encode cs :=
  ⟨eq_of_decodeFrom, fun h => by rw [h, decode_encode]⟩

theorem encode_injective {ds : List Char} (h : encode cs = encode ds) : cs = ds :=
  Except.ok.inj ((decode_encode cs).symm.trans (decode_eq_ok_iff.mpr h))

end Utf8

/-! ## UTF-16 and UTF-32 -/

namespace ByteOrder

theorem unit16_lt (o : ByteOrder) (a b : UInt8) : o.unit16 a b < 65536 := by
  have ha := a.toNat_lt
  have hb := b.toNat_lt
  cases o with
  | little =>
    show a.toNat + 256 * b.toNat < 65536
    omega
  | big =>
    show 256 * a.toNat + b.toNat < 65536
    omega

/-- A unit is written by its low sixteen bits. -/
theorem octets16_of_mod (o : ByteOrder) {a b : UInt8} {n : Nat}
    (h : n % 65536 = o.unit16 a b) : o.octets16 n = [a, b] := by
  have ha := a.toNat_lt
  have hb := b.toNat_lt
  cases o with
  | little =>
    replace h : n % 65536 = a.toNat + 256 * b.toNat := h
    rw [octets16, Utf8.toUInt8_eq (a := a) (by omega), Utf8.toUInt8_eq (a := b) (by omega)]
  | big =>
    replace h : n % 65536 = 256 * a.toNat + b.toNat := h
    rw [octets16, Utf8.toUInt8_eq (a := a) (by omega), Utf8.toUInt8_eq (a := b) (by omega)]

theorem octets16_unit16 (o : ByteOrder) (a b : UInt8) : o.octets16 (o.unit16 a b) = [a, b] :=
  o.octets16_of_mod (Nat.mod_eq_of_lt (o.unit16_lt a b))

theorem octets32_unit32 (o : ByteOrder) (a b c d : UInt8) :
    o.octets32 (o.unit32 a b c d) = [a, b, c, d] := by
  have hfront := o.unit16_lt a b
  have hback := o.unit16_lt c d
  cases o with
  | little =>
    have hunit : little.unit32 a b c d = little.unit16 a b + 65536 * little.unit16 c d := rfl
    rw [octets32, octets16_of_mod (a := a) (b := b) little (by omega),
      octets16_of_mod (a := c) (b := d) little (by omega)]
    rfl
  | big =>
    have hunit : big.unit32 a b c d = 65536 * big.unit16 a b + big.unit16 c d := rfl
    rw [octets32, octets16_of_mod (a := a) (b := b) big (by omega),
      octets16_of_mod (a := c) (b := d) big (by omega)]
    rfl

end ByteOrder

namespace Codec

variable {us : List Nat} {bs : List UInt8} {cs : List Char} {o : ByteOrder}

theorem eq_of_pairs (h : pairs o.unit16 bs = some us) :
    bs = us.flatMap o.octets16 ∧ ∀ u ∈ us, u < 65536 := by
  fun_induction pairs o.unit16 bs generalizing us with
  | case1 =>
    cases h
    exact ⟨rfl, fun u hu => absurd hu List.not_mem_nil⟩
  | case2 => cases h
  | case3 a b rest ih =>
    obtain ⟨later, hlater, rfl⟩ := Option.map_eq_some_iff.mp h
    obtain ⟨hrest, hlt⟩ := ih hlater
    rw [List.flatMap_cons, o.octets16_unit16, ← hrest]
    exact ⟨rfl, List.forall_mem_cons.mpr ⟨o.unit16_lt a b, hlt⟩⟩

theorem eq_of_quads (h : quads o.unit32 bs = some us) : bs = us.flatMap o.octets32 := by
  fun_induction quads o.unit32 bs generalizing us with
  | case1 =>
    cases h
    rfl
  | case2 a b c d rest ih =>
    obtain ⟨later, hlater, rfl⟩ := Option.map_eq_some_iff.mp h
    rw [List.flatMap_cons, o.octets32_unit32, ← ih hlater]
    rfl
  | case3 => cases h

/-- A pair of surrogates is the units of a character beyond sixteen bits. -/
theorem units16_pair {u v : Nat} (hu : 0xD800 ≤ u ∧ u < 0xDC00) (hv : 0xDC00 ≤ v ∧ v < 0xE000) :
    units16 (Char.ofNat (0x10000 + (u - 0xD800) * 1024 + (v - 0xDC00))) = [u, v] := by
  have hvalid : (0x10000 + (u - 0xD800) * 1024 + (v - 0xDC00)).isValidChar :=
    Or.inr ⟨by omega, by omega⟩
  have hhigh : 0xD800 + (0x10000 + (u - 0xD800) * 1024 + (v - 0xDC00) - 0x10000) / 1024 = u := by
    omega
  have hlow : 0xDC00 + (0x10000 + (u - 0xD800) * 1024 + (v - 0xDC00) - 0x10000) % 1024 = v := by
    omega
  rw [units16, Utf8.toNat_ofNat hvalid, if_neg (by omega), hhigh, hlow]

theorem units16_single {u : Nat} (hhigh : ¬ (0xD800 ≤ u ∧ u < 0xDC00))
    (hlow : ¬ (0xDC00 ≤ u ∧ u < 0xE000)) (hlt : u < 65536) : units16 (Char.ofNat u) = [u] := by
  have hvalid : u.isValidChar := by
    unfold Nat.isValidChar
    omega
  rw [units16, Utf8.toNat_ofNat hvalid, if_pos hlt]

theorem eq_of_ofUnits16 (h : ofUnits16 us = some cs) (hlt : ∀ u ∈ us, u < 65536) :
    us = cs.flatMap units16 := by
  fun_induction ofUnits16 us generalizing cs with
  | case1 =>
    cases h
    rfl
  | case2 u hu v rest hv ih =>
    obtain ⟨later, hlater, rfl⟩ := Option.map_eq_some_iff.mp h
    have hrest := ih hlater fun w hw => hlt w (by simp [hw])
    rw [List.flatMap_cons, units16_pair hu hv, ← hrest]
    rfl
  | case3 => cases h
  | case4 => cases h
  | case5 => cases h
  | case6 u rest hhigh hlow ih =>
    obtain ⟨later, hlater, rfl⟩ := Option.map_eq_some_iff.mp h
    obtain ⟨hu, hlt⟩ := List.forall_mem_cons.mp hlt
    rw [List.flatMap_cons, units16_single hhigh hlow hu, ← ih hlater hlt]
    rfl

theorem eq_of_ofCodePoint? {n : Nat} {c : Char} (h : ofCodePoint? n = some c) : n = c.toNat := by
  rw [ofCodePoint?] at h
  by_cases hvalid : n.isValidChar
  · rw [dif_pos hvalid] at h
    obtain rfl := Option.some.inj h
    rfl
  · rw [dif_neg hvalid] at h
    cases h

theorem eq_of_points (h : us.mapM ofCodePoint? = some cs) : us = cs.map Char.toNat := by
  induction us generalizing cs with
  | nil =>
    cases h
    rfl
  | cons u us ih =>
    rw [List.mapM_cons] at h
    obtain ⟨c, hc, h⟩ := Option.bind_eq_some_iff.mp h
    obtain ⟨later, hlater, h⟩ := Option.bind_eq_some_iff.mp h
    cases h
    rw [List.map_cons, ← eq_of_ofCodePoint? hc, ← ih hlater]

theorem eq_of_decode16 (h : decode16 o.unit16 bs = some cs) : bs = encode16 o cs := by
  obtain ⟨us, hpairs, hunits⟩ := Option.bind_eq_some_iff.mp h
  obtain ⟨hbs, hlt⟩ := eq_of_pairs hpairs
  rw [hbs, eq_of_ofUnits16 hunits hlt, encode16]

theorem eq_of_decode32 (h : decode32 o.unit32 bs = some cs) : bs = encode32 o cs := by
  obtain ⟨us, hquads, hpoints⟩ := Option.bind_eq_some_iff.mp h
  rw [eq_of_quads hquads, eq_of_points hpoints, encode32]

/-! ## Reading by name -/

theorem readUtf8_eq_ok_iff : readUtf8 bs = .ok cs ↔ bs = Utf8.encode cs := by
  rw [← Utf8.decode_eq_ok_iff, readUtf8]
  cases Utf8.decode bs <;> simp [Except.mapError]

theorem decode?_utf8 : utf8.decode? bs = some cs ↔ bs = Utf8.encode cs := by
  rw [← Utf8.decode_eq_ok_iff, decode?]
  cases Utf8.decode bs <;> simp [Except.toOption]

/-- What octets are not in a codec is not read under its name. -/
theorem read_of_none {c : Codec} (l : Locale) (h : c.decode? bs = none) :
    ∃ u, read l c.name bs = .error (.undecodable u) := by
  have hnul : c.name.toList.contains '\x00' = false := by simpa [IsName] using isName_name c
  unfold read
  rw [hnul, if_neg Bool.false_ne_true, ofName?_name]
  cases bs with
  | nil =>
    rw [decode?_nil] at h
    cases h
  | cons b bs =>
    rw [List.isEmpty_cons, if_neg Bool.false_ne_true]
    cases c with
    | utf8 =>
      cases hread : readUtf8 (b :: bs) with
      | error f =>
        obtain ⟨u, rfl⟩ := readUtf8_eq_error hread
        exact ⟨u, rfl⟩
      | ok cs =>
        rw [decode?_utf8.mpr (readUtf8_eq_ok_iff.mp hread)] at h
        cases h
    | _ =>
      dsimp only
      rw [h]
      exact ⟨_, rfl⟩

end Codec

/-! ## Marks -/

namespace TextForm

variable {form : TextForm} {bs rest : List UInt8} {cs : List Char}

/-- The mark is read as a character of its own in UTF-16, -/
theorem decode16_mark (o : ByteOrder) (rest : List UInt8) :
    Codec.decode16 o.unit16 ((utf16 o).mark ++ rest) =
      (Codec.decode16 o.unit16 rest).map ('\uFEFF' :: ·) := by
  have hunits : ∀ us, Codec.ofUnits16 (0xFEFF :: us) =
      (Codec.ofUnits16 us).map ('\uFEFF' :: ·) := Codec.ofUnits16_units16 '\uFEFF'
  have hpairs : Codec.pairs o.unit16 ((utf16 o).mark ++ rest) =
      (Codec.pairs o.unit16 rest).map (0xFEFF :: ·) := by cases o <;> rfl
  rw [Codec.decode16, Codec.decode16, hpairs]
  cases Codec.pairs o.unit16 rest with
  | none => rfl
  | some us => exact hunits us

/-- and in UTF-32. -/
theorem decode32_mark (o : ByteOrder) (rest : List UInt8) :
    Codec.decode32 o.unit32 ((utf32 o).mark ++ rest) =
      (Codec.decode32 o.unit32 rest).map ('\uFEFF' :: ·) := by
  have hquads : Codec.quads o.unit32 ((utf32 o).mark ++ rest) =
      (Codec.quads o.unit32 rest).map (0xFEFF :: ·) := by cases o <;> rfl
  rw [Codec.decode32, Codec.decode32, hquads]
  cases Codec.quads o.unit32 rest with
  | none => rfl
  | some us =>
    show (0xFEFF :: us).mapM Codec.ofCodePoint? = (us.mapM Codec.ofCodePoint?).map _
    have hmark : Codec.ofCodePoint? 0xFEFF = some '\uFEFF' := Codec.ofCodePoint?_toNat '\uFEFF'
    rw [List.mapM_cons, hmark]
    cases us.mapM Codec.ofCodePoint? <;> rfl

/-- Octets behind a mark are read if and only if they are the octets of a text. -/
theorem decode?_iff (h : form.mark <+: bs) :
    (∃ cs, form.codec.decode? bs = some cs) ↔ ∃ cs, bs = form.octets cs := by
  refine ⟨fun ⟨cs, hcs⟩ => ?_, fun ⟨cs, hcs⟩ => ⟨_, hcs ▸ form.decode?_octets cs⟩⟩
  obtain ⟨rest, rfl⟩ := h
  cases form with
  | utf8 | utf8Marked => exact ⟨cs, congrArg _ (Codec.decode?_utf8.mp hcs)⟩
  | utf16 o =>
    replace hcs : Codec.decode16 o.unit16 ((utf16 o).mark ++ rest) = some cs := by
      cases o <;> exact hcs
    rw [decode16_mark] at hcs
    obtain ⟨later, hlater, -⟩ := Option.map_eq_some_iff.mp hcs
    exact ⟨later, congrArg _ (Codec.eq_of_decode16 hlater)⟩
  | utf32 o =>
    replace hcs : Codec.decode32 o.unit32 ((utf32 o).mark ++ rest) = some cs := by
      cases o <;> exact hcs
    rw [decode32_mark] at hcs
    obtain ⟨later, hlater, -⟩ := Option.map_eq_some_iff.mp hcs
    exact ⟨later, congrArg _ (Codec.eq_of_decode32 hlater)⟩

/-- The octets keep what a mark in front of them promises: they are a text in the form of the first
of the marks that is there. -/
def MarkKept (bs : List UInt8) : Prop :=
  ∀ m, (Codec.marks.find? fun m => m.1.isPrefixOf bs) = some m →
    ∃ form cs, m = (mark form, codec form) ∧ bs = form.octets cs

theorem exists_of_mem_marks {m : List UInt8 × Codec} (h : m ∈ Codec.marks) :
    ∃ form, m = (mark form, codec form) := by
  have hmarks : Codec.marks = [utf32 .little, utf32 .big, utf8Marked, utf16 .little,
      utf16 .big].map fun form => (form.mark, form.codec) := rfl
  rw [hmarks] at h
  obtain ⟨form, -, rfl⟩ := List.mem_map.mp h
  exact ⟨form, rfl⟩

end TextForm

/-! ## Choosing and loading -/

namespace Codec

variable {l : Locale} {bs : List UInt8}

open TextForm (MarkKept)

theorem sniff_of_markKept (hname : IsName l.preferred) (h : MarkKept bs) :
    ∃ n cs, sniff l bs = .ok n ∧ read l n bs = .ok cs := by
  cases hmark : marks.find? fun m => m.1.isPrefixOf bs with
  | none => exact (sniff_cases l hmark).resolve_right fun ⟨hnul, _⟩ => hnul hname
  | some m =>
    obtain ⟨form, cs, rfl, hbs⟩ := h m hmark
    exact ⟨form.codec.name, _, sniff_of_mark l hmark,
      read_name l (hbs ▸ form.decode?_octets cs)⟩

theorem sniff_of_not_markKept (l : Locale) (h : ¬ MarkKept bs) :
    ∃ n u, sniff l bs = .ok n ∧ read l n bs = .error (.undecodable u) := by
  obtain ⟨m, h⟩ := not_forall.mp h
  obtain ⟨hmark, hnot⟩ := Classical.not_imp.mp h
  obtain ⟨form, rfl⟩ := TextForm.exists_of_mem_marks (List.mem_of_find?_eq_some hmark)
  have hfront := List.find?_some hmark
  have hnone : form.codec.decode? bs = none := by
    refine Option.eq_none_iff_forall_ne_some.mpr fun cs hcs => ?_
    obtain ⟨text, hbs⟩ := (TextForm.decode?_iff (List.isPrefixOf_iff_prefix.mp hfront)).mp ⟨cs, hcs⟩
    exact hnot ⟨form, text, rfl, hbs⟩
  obtain ⟨u, hu⟩ := read_of_none _ hnone
  exact ⟨form.codec.name, u, sniff_of_mark l hmark, hu⟩

end Codec

namespace LoadedText

open TextForm (MarkKept)

/-- The codec that is chosen for octets reads them, and a file of them is loaded, if and only if they
keep what a mark in front of them promises. Octets without a mark promise nothing. Where the promise
is not kept there is a fault of decoding and no second choice. -/
theorem load_iff_markKept {t : FileTree} {l : Locale} {p : Path} {bs : List UInt8}
    (hname : Codec.IsName l.preferred) (hfile : t.read p = .ok bs) :
    ∃ n, Codec.sniff l bs = .ok n ∧
      ((∃ cs, Codec.read l n bs = .ok cs) ↔ MarkKept bs) ∧
      ((∃ loaded, load t l p "" = .ok loaded) ↔ MarkKept bs) ∧
      (¬ MarkKept bs → ∃ u, load t l p "" = .error (.undecodable u)) := by
  rw [load_of_read hfile]
  by_cases hkept : MarkKept bs
  · obtain ⟨n, cs, hn, hcs⟩ := Codec.sniff_of_markKept hname hkept
    rw [ofOctets_of_sniff hn, hcs]
    exact ⟨n, hn, iff_of_true ⟨cs, hcs⟩ hkept, iff_of_true ⟨_, rfl⟩ hkept, fun h => absurd hkept h⟩
  · obtain ⟨n, u, hn, hu⟩ := Codec.sniff_of_not_markKept l hkept
    rw [ofOctets_of_sniff hn, hu]
    refine ⟨n, hn, iff_of_false ?_ hkept, iff_of_false ?_ hkept, fun _ => ⟨u, rfl⟩⟩
    · rintro ⟨cs, hcs⟩
      rw [hu] at hcs
      cases hcs
    · rintro ⟨loaded, h⟩
      cases h

/-- Octets that are no UTF-8 and no ASCII, without a mark. -/
theorem plainOctets_loaded : Codec.IsName "ascii" ∧
    FileTree.read (.oneFile "a.md" [0x61, 0xFF]) ⟨"", ["a.md"]⟩ = .ok [0x61, 0xFF] ∧
    ∃ loaded, load (.oneFile "a.md" [0x61, 0xFF]) { preferred := "ascii" } ⟨"", ["a.md"]⟩ "" =
      .ok loaded := by
  have hname : Codec.IsName "ascii" := by decide
  have hunmarked : MarkKept [0x61, 0xFF] := fun m hm => by cases hm
  obtain ⟨n, -, -, hloaded, -⟩ := load_iff_markKept (t := .oneFile "a.md" [0x61, 0xFF])
    (l := { preferred := "ascii" }) (p := ⟨"", ["a.md"]⟩) hname rfl
  exact ⟨hname, rfl, hloaded.mpr hunmarked⟩

/-- The mark of UTF-16 and half a unit: what is chosen does not read it. -/
theorem halfUnit_not_loaded :
    Codec.sniff { preferred := "UTF-8" } [0xFF, 0xFE, 0x61] = .ok "utf-16-le" ∧
    (∀ cs, Codec.read { preferred := "UTF-8" } "utf-16-le" [0xFF, 0xFE, 0x61] ≠ .ok cs) ∧
    ∃ u, load (.oneFile "a.md" [0xFF, 0xFE, 0x61]) { preferred := "UTF-8" } ⟨"", ["a.md"]⟩ "" =
      .error (.undecodable u) := by
  have hnone : Codec.utf16Little.decode? [0xFF, 0xFE, 0x61] = none := rfl
  obtain ⟨u, hu⟩ : ∃ u, Codec.read { preferred := "UTF-8" } "utf-16-le" [0xFF, 0xFE, 0x61] =
    .error (.undecodable u) := Codec.read_of_none _ hnone
  have hsniff : Codec.sniff { preferred := "UTF-8" } [0xFF, 0xFE, 0x61] = .ok "utf-16-le" := rfl
  have hfile : FileTree.read (.oneFile "a.md" [0xFF, 0xFE, 0x61]) ⟨"", ["a.md"]⟩ =
    .ok [0xFF, 0xFE, 0x61] := rfl
  refine ⟨hsniff, fun cs hcs => ?_, u, ?_⟩
  · rw [hu] at hcs
    cases hcs
  · rw [load_of_read hfile, ofOctets_of_sniff hsniff, hu]
    rfl

end LoadedText

end Concentric
