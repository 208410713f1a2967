import Concentric.Files.Loading
import Concentric.Proofs.FilesMade

/-! Octets that are read. Without a byte order mark in front a codec is chosen that reads them, as
the last one to be tried reads anything. Only a mark is trusted before anything is read, so it is
octets with a mark that may turn out to be no text. -/

namespace Concentric

namespace Codec

variable {bs : List UInt8} {names : List String} {encoding : String} {f : Failure} {l : Locale}

/-- The name is one that may be looked up. -/
def IsName (encoding : String) : Prop := '\x00' ∉ encoding.toList

instance (encoding : String) : Decidable (IsName encoding) :=
  inferInstanceAs (Decidable (_ ∉ _))

theorem read_latin1 (l : Locale) (bs : List UInt8) : ∃ cs, read l latin1.name bs = .ok cs := by
  have hname : latin1.name.toList.contains '\x00' = false := by decide
  have hcodec : ofName? latin1.name = some latin1 := by decide +kernel
  unfold read
  rw [hname, if_neg Bool.false_ne_true, hcodec]
  split
  · exact ⟨[], rfl⟩
  · exact ⟨_, rfl⟩

/-- Octets are not read where they are no text in the codec, or where no codec has the name. -/
theorem read_eq_error (h : read l encoding bs = .error f) :
    (¬ IsName encoding ∧ f = .refused .nulInEncoding) ∨ (∃ u, f = .undecodable u) ∨
      f = .unknownCodec encoding := by
  unfold read at h
  split at h
  · next hnul =>
    exact Or.inl ⟨fun hname => hname (by simpa using hnul), (Except.error.inj h).symm⟩
  · refine Or.inr ?_
    split at h
    · cases h
    · split at h
      · split at h
        · exact Or.inr (Except.error.inj h).symm
        · next reader _ =>
          cases hreader : reader bs with
          | ok cs =>
            rw [hreader] at h
            cases h
          | error u =>
            rw [hreader] at h
            exact Or.inl ⟨u, (Except.error.inj h).symm⟩
      · exact Or.inl (readUtf8_eq_error h)
      · split at h
        · cases h
        · exact Or.inl ⟨_, (Except.error.inj h).symm⟩

/-- One of the names is chosen, or Latin-1, unless one of them is no name at all. -/
theorem firstToRead_cases (l : Locale) (bs : List UInt8) (names : List String) :
    (∃ n cs, firstToRead l bs names = .ok n ∧ read l n bs = .ok cs) ∨
      ((∃ n ∈ names, ¬ IsName n) ∧ firstToRead l bs names = .error (.refused .nulInEncoding)) := by
  induction names with
  | nil =>
    obtain ⟨cs, hcs⟩ := read_latin1 l bs
    exact Or.inl ⟨latin1.name, cs, rfl, hcs⟩
  | cons n rest ih =>
    cases hread : read l n bs with
    | ok cs => exact Or.inl ⟨n, cs, by simp only [firstToRead, hread], hread⟩
    | error f =>
      have hskip : (∃ u, f = .undecodable u) ∨ f = .unknownCodec n →
          firstToRead l bs (n :: rest) = firstToRead l bs rest := by
        rintro (⟨u, rfl⟩ | rfl) <;> simp only [firstToRead, hread]
      rcases read_eq_error hread with ⟨hnul, rfl⟩ | hother
      · exact Or.inr ⟨⟨n, List.mem_cons_self, hnul⟩, by simp only [firstToRead, hread]⟩
      · rw [hskip hother]
        exact ih.imp_right fun ⟨⟨m, hm, hnul⟩, herror⟩ =>
          ⟨⟨m, List.mem_cons_of_mem _ hm, hnul⟩, herror⟩

theorem sniff_of_mark (l : Locale) {m : List UInt8 × Codec}
    (h : (marks.find? fun m => m.1.isPrefixOf bs) = some m) :
    sniff l bs = .ok m.2.name := by
  unfold sniff
  rw [h]

/-- Octets without a mark are read in the codec that is chosen for them. -/
theorem sniff_cases (l : Locale)
    (hmark : (marks.find? fun m => m.1.isPrefixOf bs) = none) :
    (∃ n cs, sniff l bs = .ok n ∧ read l n bs = .ok cs) ∨
      (¬ IsName l.preferred ∧ sniff l bs = .error (.refused .nulInEncoding)) := by
  have hutf8 : IsName utf8.name := by decide
  unfold sniff
  rw [hmark]
  refine (firstToRead_cases l bs _).imp_right fun ⟨⟨n, hn, hnul⟩, herror⟩ => ⟨?_, herror⟩
  rcases List.mem_cons.mp hn with rfl | hn
  · exact absurd hutf8 hnul
  · rw [List.mem_singleton.mp hn] at hnul
    split at hnul
    · exact absurd hutf8 hnul
    · exact hnul

end Codec

/-! ## Loading -/

namespace LoadedText

/-- Octets are loaded as what they are in the codec that is chosen for them. -/
theorem ofOctets_of_sniff {p : Path} {l : Locale} {n : String} {bs : List UInt8}
    (h : Codec.sniff l bs = .ok n) :
    ofOctets l p "" bs = Codec.read l n bs >>= fun cs =>
      pure ⟨p, String.ofList (Lines.normalize (dropMark cs)), n, .ofPath p⟩ := by
  show (Codec.sniff l bs >>= fun n => _) = _
  rw [h, Failure.ok_bind]

theorem load_of_read {t : FileTree} {p : Path} {bs : List UInt8} (h : t.read p = .ok bs)
    (l : Locale) (encoding : String) :
    load t l p encoding = ofOctets l p encoding bs := by
  rw [load, h]
  rfl

/-- Octets that are not loaded have a mark, and are no text in the codec of that mark. -/
theorem ofOctets_eq_error {l : Locale} {p : Path} {bs : List UInt8} {f : Failure}
    (h : ofOctets l p "" bs = .error f) :
    (¬ Codec.IsName l.preferred ∧ f = .refused .nulInEncoding) ∨
      ∃ m ∈ Codec.marks, m.1.isPrefixOf bs = true ∧ Codec.read l m.2.name bs = .error f := by
  cases hmark : Codec.marks.find? fun m => m.1.isPrefixOf bs with
  | none =>
    rcases Codec.sniff_cases l hmark with ⟨n, cs, hn, hcs⟩ | ⟨hnul, herror⟩
    · rw [ofOctets_of_sniff hn, hcs] at h
      cases h
    · replace h : (Codec.sniff l bs >>= fun n => _) = _ := h
      rw [herror] at h
      exact Or.inl ⟨hnul, (Except.error.inj h).symm⟩
  | some m =>
    have hfront := List.find?_some hmark
    refine Or.inr ⟨m, List.mem_of_find?_eq_some hmark, hfront, ?_⟩
    rw [ofOctets_of_sniff (Codec.sniff_of_mark l hmark)] at h
    exact (Failure.bind_eq_error.mp h).resolve_right fun ⟨cs, _, hpure⟩ => by cases hpure

end LoadedText

/-- A path leads to a file, or to none, or is too long to be looked up. -/
theorem FileTree.isFile_cases (t : FileTree) (p : Path) :
    (∃ n place, t.lookup p = .ok (.file n) ∧ t.place p = .ok place ∧ t.isFile p = .ok true) ∨
    t.isFile p = .ok false ∨
    (t.lookup p = .error .nameTooLong ∧ t.isFile p = .error .nameTooLong) := by
  unfold isFile
  cases hlookup : t.lookup p with
  | ok e =>
    obtain ⟨place, hplace, -⟩ := lookup_eq_ok_iff.mp hlookup
    cases e with
    | directory | link => exact Or.inr (Or.inl rfl)
    | file n => exact Or.inl ⟨n, place, rfl, hplace, rfl⟩
  | error fault =>
    cases fault with
    | nameTooLong => exact Or.inr (Or.inr ⟨rfl, rfl⟩)
    | _ => exact Or.inr (Or.inl rfl)

/-- A document is loaded, or there is none to be loaded, or its path is too long to be looked up, or
its file may not be read, or its octets are not loaded. -/
theorem Document.load_eq_error {t : FileTree} {base : String} {l : Locale} {p : Path} {f : Failure}
    (h : load t base l p "" = .error f) :
    (∃ r, f = .report r) ∨ (f = .file .nameTooLong ∧ t.lookup p = .error .nameTooLong) ∨
      (∃ n fault, f = .file fault ∧ t.lookup p = .ok (.file n) ∧ t.read p = .error fault) ∨
      ∃ bs, t.read p = .ok bs ∧ LoadedText.ofOctets l p "" bs = .error f := by
  unfold load at h
  rcases t.isFile_cases p with ⟨n, place, hlookup, hplace, hthere⟩ | habsent | ⟨hlong, hthere⟩
  · rw [hthere] at h
    replace h : (LoadedText.load t l p "" >>= fun loaded =>
      (t.place p).mapError .file >>= fun place => pure _) = _ := h
    rw [LoadedText.load, hplace] at h
    refine Or.inr (Or.inr ?_)
    cases hread : t.read p with
    | error fault =>
      rw [hread] at h
      exact Or.inl ⟨n, fault, (Except.error.inj h).symm, hlookup, rfl⟩
    | ok bs =>
      rw [hread] at h
      refine Or.inr ⟨bs, rfl, ?_⟩
      exact (Failure.bind_eq_error.mp h).resolve_right fun ⟨loaded, _, hpure⟩ => by cases hpure
  · rw [habsent] at h
    exact Or.inl ⟨_, (Except.error.inj h).symm⟩
  · rw [hthere] at h
    exact Or.inr (Or.inl ⟨(Except.error.inj h).symm, hlong⟩)

end Concentric
