import Concentric.Proofs.ExactCodecs
import Concentric.Proofs.JsonLimits
import Concentric.Proofs.SettingsLayers

/-! Settings of a file alone, whatever octets it has. A text in UTF-8 gives the settings of its
entries if it is a map and all that it has for fields is accepted, and what holds in general
otherwise, be it JSON or not. No settings come of other octets, nor of a text that reading gives up
for its depth or for the length of a number. -/

namespace Concentric

namespace Stored

variable {document : List Char} {es : List (String × Value)} {stored : Stored} {f : Failure}

/-- The settings are those of a text in a settings file: of its entries if it is a map with nothing
for a field that is not accepted, and what holds in general if it is anything else. -/
structure Stands (document : List Char) (s : Settings) : Prop where
  held : ∀ es, Json.read document = .ok (.map es) →
    (∀ (f : Field) v, es.lookup f.name = some v → f.accepts v = true) →
      ∀ f, s.get f = (es.lookup f.name).getD (Settings.standard.get f)
  otherwise : (∀ es, Json.read document = .ok (.map es) →
    ∃ (f : Field) (v : Value), es.lookup f.name = some v ∧ f.accepts v = false) → s = .standard

/-- A text that is no map stands for what holds in general. -/
theorem stands_standard (h : ∀ es, Json.read document ≠ .ok (.map es)) :
    Stands document .standard :=
  ⟨fun es hes => absurd hes (h es), fun _ => rfl⟩

theorem stands_entries (h : Json.read document = .ok (.map es)) :
    Stands document (entries es).settings := by
  refine ⟨fun es' hes' haccepts f => ?_, fun hrejected => ?_⟩
  · obtain rfl : es = es' := Value.map.inj (Except.ok.inj (h.symm.trans hes'))
    have husable : (entries es).usable = true := by
      by_contra hnot
      obtain ⟨g, v, hheld, hno⟩ := not_usable_iff.mp hnot
      rw [haccepts g v hheld] at hno
      cases hno
    rw [(get_settings _).2, value?, if_pos husable]
    rfl
  · exact settings_of_not_usable (not_usable_iff.mpr (hrejected es h))

theorem stands_of_ofText (h : ofText document = .ok stored) : Stands document stored.settings := by
  unfold ofText at h
  split at h
  · next es hread =>
    obtain rfl := Except.ok.inj h
    exact stands_entries hread
  · next hnot hread =>
    obtain rfl := Except.ok.inj h
    exact stands_standard fun es hes => hnot es (Except.ok.inj (hread.symm.trans hes))
  · next fault hread =>
    obtain rfl := Except.ok.inj h
    exact stands_standard fun es hes => by cases hread.symm.trans hes
  · cases h
  · cases h

/-- Reading gives a text up for its depth or for the length of a number, and finds too much of that
in it. -/
theorem ofText_eq_error (h : ofText document = .error f) :
    (f = .nestedTooDeep ∧ Json.read document = .error .tooDeep ∧
      Json.depthLimit < Json.openers document) ∨
    ∃ n, f = .refused (.literalTooLong n) ∧ Json.read document = .error (.literalTooLong n) ∧
      Literal.digitLimit < n ∧ Json.HasDigits n document := by
  unfold ofText at h
  split at h
  · cases h
  · cases h
  · cases h
  · next hread =>
    obtain rfl := Except.error.inj h
    have hexplained : Json.depthLimit < 0 + Json.openers document := Json.read_explained hread
    exact Or.inl ⟨rfl, hread, by omega⟩
  · next n hread =>
    obtain rfl := Except.error.inj h
    obtain ⟨hlong, hdigits⟩ := Json.read_explained hread
    exact Or.inr ⟨n, rfl, hread, hlong, hdigits⟩

end Stored

namespace Settings

variable {t : FileTree} {p : Path} {bs : List UInt8} {environment : List (String × String)}

theorem load_of_file (hfile : t.read p = .ok bs)
    (hunset : ∀ f : Field, environment.lookup f.envVariable = none) :
    load t p [] environment = Stored.ofOctets bs >>= fun stored => pure stored.settings := by
  have hgiven : Override.ofEnvironment environment = [] := by
    simp [Override.ofEnvironment, Override.given, hunset]
  rw [load, Stored.read, hfile, hgiven]
  rfl

/-- Whatever octets a file has, with no overrides and no variables it gives the settings that its
text stands for, unless it has no text in UTF-8 or its text is given up: for more opening brackets
than containers may be open, or for a whole number with more digits than it may have. -/
theorem load_alone (hfile : t.read p = .ok bs)
    (hunset : ∀ f : Field, environment.lookup f.envVariable = none) :
    (∃ cs s, bs = Utf8.encode cs ∧ load t p [] environment = .ok s ∧
      Stored.Stands (Lines.normalize cs) s) ∨
    ((∀ cs, bs ≠ Utf8.encode cs) ∧ ∃ u, load t p [] environment = .error (.undecodable u)) ∨
    (∃ cs, bs = Utf8.encode cs ∧ Json.read (Lines.normalize cs) = .error .tooDeep ∧
      Json.depthLimit < Json.openers (Lines.normalize cs) ∧
      load t p [] environment = .error .nestedTooDeep) ∨
    ∃ cs n, bs = Utf8.encode cs ∧
      Json.read (Lines.normalize cs) = .error (.literalTooLong n) ∧
      Literal.digitLimit < n ∧ Json.HasDigits n (Lines.normalize cs) ∧
      load t p [] environment = .error (.refused (.literalTooLong n)) := by
  rw [load_of_file hfile hunset, Stored.ofOctets]
  cases hread : Codec.readUtf8 bs with
  | error f =>
    obtain ⟨u, rfl⟩ := Codec.readUtf8_eq_error hread
    refine Or.inr (Or.inl ⟨fun cs hcs => ?_, u, rfl⟩)
    rw [Codec.readUtf8_eq_ok_iff.mpr hcs] at hread
    cases hread
  | ok cs =>
    have hcs := Codec.readUtf8_eq_ok_iff.mp hread
    rw [Failure.ok_bind]
    cases htext : Stored.ofText (Lines.normalize cs) with
    | ok stored => exact Or.inl ⟨cs, stored.settings, hcs, rfl, Stored.stands_of_ofText htext⟩
    | error f =>
      rcases Stored.ofText_eq_error htext with ⟨rfl, hdeep⟩ | ⟨n, rfl, hlong⟩
      · exact Or.inr (Or.inr (Or.inl ⟨cs, hcs, hdeep.1, hdeep.2, rfl⟩))
      · exact Or.inr (Or.inr (Or.inr ⟨cs, n, hcs, hlong.1, hlong.2.1, hlong.2.2, rfl⟩))

/-- A file with a depth that is no depth, and with a switch. -/
def zeroDepth : String := "\x7b\"list_depth_cap\": 0, \"enable_tables\": false\x7d"

/-- The depth is not accepted, so that the switch does not count. -/
theorem zeroDepth_standard :
    FileTree.read (.oneFile "a.json" (Utf8.octets zeroDepth)) ⟨"", ["a.json"]⟩ =
      .ok (Utf8.octets zeroDepth) ∧
    (∀ f : Field, [("HOME", "/root")].lookup f.envVariable = none) ∧
    load (.oneFile "a.json" (Utf8.octets zeroDepth)) ⟨"", ["a.json"]⟩ [] [("HOME", "/root")] =
      .ok standard := by
  have hunset : ∀ f : Field, [("HOME", "/root")].lookup f.envVariable = none := by
    intro f
    cases f <;> rfl
  have hrejected : (Stored.ofText zeroDepth.toList).toOption.any fun stored => !stored.usable := by
    decide +kernel
  have hnormal : Lines.normalize zeroDepth.toList = zeroDepth.toList := by decide +kernel
  refine ⟨rfl, hunset, ?_⟩
  rcases load_alone (t := .oneFile "a.json" (Utf8.octets zeroDepth))
      (p := ⟨"", ["a.json"]⟩) rfl hunset with
    ⟨cs, s, hcs, hload, hstands⟩ | ⟨hnot, -⟩ | ⟨cs, hcs, hread, -⟩ | ⟨cs, n, hcs, hread, -⟩
  · obtain rfl := Utf8.encode_injective hcs
    rw [hload, hstands.otherwise]
    intro es hes
    rw [hnormal] at hes
    rw [Stored.ofText, hes] at hrejected
    have hnot : ¬ (Stored.entries es).usable = true := by
      simpa [Except.toOption] using hrejected
    exact Stored.not_usable_iff.mp hnot
  · exact absurd rfl (hnot zeroDepth.toList)
  · obtain rfl := Utf8.encode_injective hcs
    rw [Stored.ofText, ← hnormal, hread] at hrejected
    cases hrejected
  · obtain rfl := Utf8.encode_injective hcs
    rw [Stored.ofText, ← hnormal, hread] at hrejected
    cases hrejected

/-- A map without entries behind an octet that is in no text. -/
theorem strayOctet_not_loaded : ∃ u,
    load (.oneFile "a.json" [0xFF, 0x7B, 0x7D]) ⟨"", ["a.json"]⟩ [] [] =
      .error (.undecodable u) := by
  have hstart : Utf8.next [0xFF, 0x7B, 0x7D] = .error .start := rfl
  have hfile : FileTree.read (.oneFile "a.json" [0xFF, 0x7B, 0x7D]) ⟨"", ["a.json"]⟩ =
      .ok [0xFF, 0x7B, 0x7D] := rfl
  rw [load_of_file hfile fun f => rfl, Stored.ofOctets]
  cases hread : Codec.readUtf8 [0xFF, 0x7B, 0x7D] with
  | error f =>
    obtain ⟨u, rfl⟩ := Codec.readUtf8_eq_error hread
    exact ⟨u, rfl⟩
  | ok cs =>
    have hdecode := Utf8.decode_eq_ok_iff.mpr (Codec.readUtf8_eq_ok_iff.mp hread)
    obtain ⟨x, rest, later, hnext, -⟩ := Utf8.decodeFrom_cons hdecode
    rw [hstart] at hnext
    cases hnext

end Settings

end Concentric
