import Concentric.Proofs.Sections
import Concentric.Proofs.WholeLiterals
import Mathlib.Data.List.Nodup

/-! Slugs as the names of headings. A numbered slug is told apart from every other numbered one, so
two headings can share a slug only where the text of one of them reads like the numbered slug of the
other. A slug has neither capitals nor blanks, so it is looked up as it is, and what is found is the
first heading that has it. -/

namespace Concentric

namespace Slug

open Unicode

/-! ## Numbered slugs -/

theorem toList_numbered (s : String) {n : Nat} (hn : 0 < n) :
    (numbered s n).toList = s.toList ++ '-' :: Digits.ofNat n := by
  have hne : n ≠ 0 := Nat.pos_iff_ne_zero.mp hn
  simp [numbered, hne, Digits.text, Digits.ofInt]

theorem dash_notMem_digits (n : Nat) : '-' ∉ Digits.ofNat n := by
  intro h
  have := Digits.isDigit_of_mem_ofNat h
  revert this
  decide

/-- The number of a slug is what stands behind its last hyphen. -/
theorem numbered_injective {s t : String} {m n : Nat} (hm : 0 < m) (hn : 0 < n)
    (h : numbered s m = numbered t n) : s = t ∧ m = n := by
  have hcut : ∀ (u : String) (k : Nat), 0 < k → Text.cut? '-' (numbered u k).toList.reverse =
      some ((Digits.ofNat k).reverse, u.toList.reverse) := by
    intro u k hk
    refine Text.cut?_eq_some_iff.mpr ⟨by simp [toList_numbered u hk], ?_⟩
    exact fun hmem => dash_notMem_digits k (List.mem_reverse.mp hmem)
  have hpair := (hcut s m hm).symm.trans ((congrArg _ (by rw [h])).trans (hcut t n hn))
  simp only [Option.some.injEq, Prod.mk.injEq, List.reverse_inj] at hpair
  exact ⟨String.toList_inj.mp hpair.2, Digits.ofNat_injective hpair.1⟩

/-- Two slugs with numbers make one name only if one of them has no number. -/
theorem eq_or_plain_of_numbered {s t : String} {m n : Nat} (h : numbered s m = numbered t n) :
    (s = t ∧ m = n) ∨ (m = 0 ∧ 0 < n ∧ s = numbered t n) ∨ (n = 0 ∧ 0 < m ∧ t = numbered s m) := by
  rcases Nat.eq_zero_or_pos m with rfl | hm <;> rcases Nat.eq_zero_or_pos n with rfl | hn
  · exact Or.inl ⟨h, rfl⟩
  · exact Or.inr (Or.inl ⟨rfl, hn, h⟩)
  · exact Or.inr (Or.inr ⟨rfl, hm, h.symm⟩)
  · exact Or.inl (numbered_injective hm hn h)

/-- Slugs with the number of times that each was met before. -/
def met (seen : List String) : List String → List (String × Nat)
  | [] => []
  | s :: rest => (s, seen.count s) :: met (s :: seen) rest

theorem number_eq_map_met (seen slugs : List String) :
    number seen slugs = (met seen slugs).map fun p => numbered p.1 p.2 := by
  induction slugs generalizing seen with
  | nil => rfl
  | cons s rest ih => simp [number, met, ih]

theorem mem_met_iff {seen slugs : List String} {s : String} {n : Nat} :
    (s, n) ∈ met seen slugs ↔ seen.count s ≤ n ∧ n < seen.count s + slugs.count s := by
  induction slugs generalizing seen with
  | nil => simp [met]
  | cons t rest ih =>
    rw [met, List.mem_cons, ih, Prod.mk.injEq, List.count_cons, List.count_cons]
    by_cases hst : t = s
    · subst hst
      simp only [beq_self_eq_true, if_true, true_and]
      omega
    · have hne : (t == s) = false := beq_eq_false_iff_ne.mpr hst
      simp [hne, Ne.symm hst]

theorem nodup_met (seen slugs : List String) : (met seen slugs).Nodup := by
  induction slugs generalizing seen with
  | nil => exact List.nodup_nil
  | cons s rest ih =>
    refine List.nodup_cons.mpr ⟨fun hmem => ?_, ih (s :: seen)⟩
    have hle := (mem_met_iff.mp hmem).1
    rw [List.count_cons_self] at hle
    omega

/-- No slug reads like the numbered one of a slug that is there more often. -/
def Clear (slugs : List String) : Prop :=
  ∀ s ∈ slugs, ∀ t ∈ slugs, ∀ n < slugs.count t, 0 < n → s ≠ numbered t n

instance (slugs : List String) : Decidable (Clear slugs) :=
  inferInstanceAs (Decidable (∀ s ∈ slugs, ∀ t ∈ slugs, ∀ n < slugs.count t, _ → _))

theorem nodup_number_iff (slugs : List String) : (number [] slugs).Nodup ↔ Clear slugs := by
  rw [number_eq_map_met, List.nodup_map_iff_inj_on (nodup_met [] slugs)]
  constructor
  · intro hinj s hs t ht n hn hpos heq
    have hplain : (s, 0) ∈ met [] slugs := mem_met_iff.mpr (by simpa using hs)
    have hnumbered : (t, n) ∈ met [] slugs := mem_met_iff.mpr (by simpa using hn)
    have hpair := hinj _ hplain _ hnumbered heq
    exact Nat.lt_irrefl 0 ((Prod.mk.inj hpair).2 ▸ hpos)
  · intro hclear p hp q hq heq
    obtain ⟨s, m⟩ := p
    obtain ⟨t, n⟩ := q
    have hm : m < slugs.count s := by simpa using (mem_met_iff.mp hp).2
    have hn : n < slugs.count t := by simpa using (mem_met_iff.mp hq).2
    have hs : s ∈ slugs := List.count_pos_iff.mp (Nat.zero_lt_of_lt hm)
    have ht : t ∈ slugs := List.count_pos_iff.mp (Nat.zero_lt_of_lt hn)
    rcases eq_or_plain_of_numbered heq with ⟨rfl, rfl⟩ | ⟨-, hpos, hst⟩ | ⟨-, hpos, hts⟩
    · rfl
    · exact absurd hst (hclear s hs t ht n hn hpos)
    · exact absurd hts (hclear t ht s hs m hm hpos)

/-! ## Slugs as they are looked up -/

/-- A character of a slug: a small letter, a digit or a hyphen, and no blank. -/
def IsSlugChar (c : Char) : Prop := IsSmall c ∧ isBlank c = false

instance (c : Char) : Decidable (IsSlugChar c) := inferInstanceAs (Decidable (_ ∧ _))

theorem isSlugChar_dash : IsSlugChar '-' := by decide +kernel

theorem isSlugChar_section : ∀ c ∈ "section".toList, IsSlugChar c := by
  have hall : ("section".toList.all fun c => decide (IsSlugChar c)) = true := by decide +kernel
  exact fun c hc => of_decide_eq_true (List.all_eq_true.mp hall c hc)

theorem isSlugChar_of_isDigit {c : Char} (h : c.isDigit = true) : IsSlugChar c := by
  have hall : ∀ n ∈ List.range' 48 10, IsSlugChar (Char.ofNat n) := by decide +kernel
  simp only [Char.isDigit, Bool.and_eq_true, decide_eq_true_eq] at h
  have hmem : c.toNat ∈ List.range' 48 10 :=
    List.mem_range'_1.mpr ⟨h.1, Nat.lt_succ_of_le h.2⟩
  have hc := hall c.toNat hmem
  rwa [Char.ofNat_toNat] at hc

theorem isSlugChar_of_keeps {c : Char} (hsmall : IsSmall c) (hkeeps : keeps c = true)
    (hspace : c ≠ ' ') : IsSlugChar c := by
  refine ⟨hsmall, ?_⟩
  cases hblank : isBlank c with
  | false => rfl
  | true =>
    simp only [keeps, isWord_of_isBlank hblank, Bool.false_or, Bool.or_eq_true, beq_iff_eq] at hkeeps
    rcases hkeeps with rfl | rfl
    · exact isSlugChar_dash.2.symm.trans hblank |>.symm
    · exact absurd rfl hspace

theorem isSlugChar_of_mem_ofText {text : String} {c : Char} (h : c ∈ (ofText text).toList) :
    IsSlugChar c := by
  unfold ofText at h
  dsimp only at h
  split at h
  · exact isSlugChar_section c h
  · rw [String.toList_ofList] at h
    obtain ⟨d, hd, rfl⟩ := List.mem_map.mp h
    obtain ⟨hd, hkeeps⟩ := List.mem_filter.mp hd
    split
    · exact isSlugChar_dash
    · next hspace => exact isSlugChar_of_keeps (isSmall_of_mem_lower hd) hkeeps hspace

theorem isSlugChar_of_mem_numbered {s : String} (hs : ∀ c ∈ s.toList, IsSlugChar c) (n : Nat) :
    ∀ c ∈ (numbered s n).toList, IsSlugChar c := by
  rcases Nat.eq_zero_or_pos n with rfl | hn
  · exact hs
  · intro c hc
    rw [toList_numbered s hn] at hc
    rcases List.mem_append.mp hc with hc | hc
    · exact hs c hc
    · rcases List.mem_cons.mp hc with rfl | hc
      · exact isSlugChar_dash
      · exact isSlugChar_of_isDigit (Digits.isDigit_of_mem_ofNat hc)

/-- A slug with blanks around it is looked up as it is. -/
theorem sought_surrounded {slug front back : String} (hslug : ∀ c ∈ slug.toList, IsSlugChar c)
    (hfront : ∀ c ∈ front.toList, isBlank c = true)
    (hback : ∀ c ∈ back.toList, isBlank c = true) : sought (front ++ slug ++ back) = slug := by
  have hhead : ∀ c ∈ slug.toList.head?, isBlank c = false :=
    fun c hc => (hslug c (List.mem_of_mem_head? hc)).2
  have hlast : ∀ c ∈ slug.toList.getLast?, isBlank c = false :=
    fun c hc => (hslug c (List.mem_of_getLast? hc)).2
  have htrim : trim (front ++ slug ++ back).toList = slug.toList := by
    rw [String.toList_append, String.toList_append]
    exact trim_surrounded hfront hback hhead hlast
  rw [sought, htrim, lower_of_isSmall fun c hc => (hslug c hc).1, String.ofList_toList]

end Slug

/-! ## Headings by their slugs -/

/-- The slug that a heading has without a number. -/
def Heading.plainSlug (h : Heading) : String := Slug.ofText h.text

namespace Outline

variable {d : Document} {tokens : List Token} {outline : List Heading}

theorem assemble_slugs {titles : List Title} {slugs : List String} {ss : List (String × Span)}
    (hslugs : slugs.length = titles.length) (hss : ss.length = titles.length) :
    (assemble titles slugs ss).map (·.slug) = slugs ∧
      (assemble titles slugs ss).map (·.text) = ss.map (·.1) := by
  induction titles generalizing slugs ss with
  | nil =>
    rw [List.length_eq_zero_iff.mp hslugs, List.length_eq_zero_iff.mp hss]
    exact ⟨rfl, rfl⟩
  | cons t titles ih =>
    cases slugs with
    | nil => cases hslugs
    | cons slug slugs =>
      cases ss with
      | nil => cases hss
      | cons s ss =>
        obtain ⟨hs, ht⟩ := ih (Nat.succ.inj hslugs) (Nat.succ.inj hss)
        simp only [assemble_cons, List.map_cons, hs, ht, and_self]

/-- The slugs of an outline are those of its texts, numbered. -/
theorem slugs_eq (ho : ofTokens d tokens = .ok outline) :
    outline.map (·.slug) = Slug.number [] (outline.map Heading.plainSlug) := by
  obtain ⟨titles, -, ho⟩ := Failure.bind_eq_ok.mp ho
  obtain ⟨ss, hss, ho⟩ := Failure.bind_eq_ok.mp ho
  obtain rfl := Except.ok.inj ho
  have hlen := length_of_sections hss
  have hslugs : (Slug.number [] (ss.map fun s => Slug.ofText s.1)).length = titles.length := by
    rw [Slug.length_number, List.length_map, hlen]
  obtain ⟨hs, ht⟩ := assemble_slugs hslugs hlen
  have hplain := congrArg (List.map Slug.ofText) ht
  rw [List.map_map, List.map_map] at hplain
  exact hs.trans (congrArg (Slug.number []) hplain.symm)

theorem isSlugChar_of_mem (ho : ofTokens d tokens = .ok outline) {h : Heading} (hh : h ∈ outline) :
    ∀ c ∈ h.slug.toList, Slug.IsSlugChar c := by
  have hmem : h.slug ∈ outline.map (·.slug) := List.mem_map_of_mem hh
  rw [slugs_eq ho, Slug.number_eq_map_met] at hmem
  obtain ⟨⟨s, n⟩, hp, hslug⟩ := List.mem_map.mp hmem
  have hcount := (Slug.mem_met_iff.mp hp).2
  have hs : s ∈ outline.map Heading.plainSlug :=
    List.count_pos_iff.mp (by simpa using Nat.zero_lt_of_lt hcount)
  obtain ⟨g, -, rfl⟩ := List.mem_map.mp hs
  rw [← hslug]
  exact Slug.isSlugChar_of_mem_numbered (fun c => Slug.isSlugChar_of_mem_ofText) n

theorem find?_of_nodup (hnodup : (outline.map (·.slug)).Nodup) {h : Heading} (hh : h ∈ outline) :
    outline.find? (fun g => g.slug == h.slug) = some h := by
  cases hfind : outline.find? fun g => g.slug == h.slug with
  | none => simpa using List.find?_eq_none.mp hfind h hh
  | some g =>
    have hslug : g.slug = h.slug := by simpa using List.find?_some hfind
    rw [List.inj_on_of_nodup_map hnodup (List.mem_of_find?_eq_some hfind) hh hslug]

/-- The slugs of an outline are distinct if and only if no text reads like the numbered slug of a
text that is there more often. A slug is looked up with any blanks around it, and what is found is
the first heading that has it: the heading itself, where slugs are distinct. -/
theorem slugs_addressable (ho : ofTokens d tokens = .ok outline) :
    ((outline.map (·.slug)).Nodup ↔ Slug.Clear (outline.map Heading.plainSlug)) ∧
    ∀ h ∈ outline, ∀ front back : String, (∀ c ∈ front.toList, Unicode.isBlank c = true) →
      (∀ c ∈ back.toList, Unicode.isBlank c = true) →
      lookup? outline (front ++ h.slug ++ back) = outline.find? (fun g => g.slug == h.slug) ∧
      (Slug.Clear (outline.map Heading.plainSlug) →
        lookup? outline (front ++ h.slug ++ back) = some h) := by
  have hiff : (outline.map (·.slug)).Nodup ↔ Slug.Clear (outline.map Heading.plainSlug) := by
    rw [slugs_eq ho]
    exact Slug.nodup_number_iff _
  refine ⟨hiff, fun h hh front back hfront hback => ?_⟩
  have hfound : lookup? outline (front ++ h.slug ++ back) =
      outline.find? (fun g => g.slug == h.slug) := by
    unfold lookup?
    rw [Slug.sought_surrounded (isSlugChar_of_mem ho hh) hfront hback]
  exact ⟨hfound, fun hclear => hfound.trans (find?_of_nodup (hiff.mpr hclear) hh)⟩

def headingTokens (line : Int) (text : String) : List Token :=
  [{ type := .named "heading_open", map := .list [.whole line, .whole (line + 1)],
     tag := .text "h1", markup := .text "#" },
   { type := .named "inline", content := .text text },
   { type := .named "heading_close", tag := .text "h1", markup := .text "#" }]

/-- Two headings of one text, and one whose text ends in a number. -/
def cities : Document := .ofText "# Bonn\n# Bonn\n# Ulm 1" "u" "markdown" (.whole 1) "h"

def citiesTokens : List Token :=
  headingTokens 0 "Bonn" ++ headingTokens 1 "Bonn" ++ headingTokens 2 "Ulm 1"

def citiesOutline : List Heading :=
  [⟨1, .whole 0, "Bonn", "bonn", .between ⟨0, 0⟩ ⟨0, 6⟩⟩,
    ⟨1, .whole 1, "Bonn", "bonn-1", .between ⟨1, 0⟩ ⟨1, 6⟩⟩,
    ⟨1, .whole 2, "Ulm 1", "ulm-1", .between ⟨2, 0⟩ ⟨2, 7⟩⟩]

set_option maxRecDepth 4000 in
theorem cities_outline : ofTokens cities citiesTokens = .ok citiesOutline := rfl

/-- The second of the two headings of one text is found by its slug between blanks. -/
theorem cities_addressable :
    ∃ h ∈ citiesOutline, h.slug = "bonn-1" ∧ (citiesOutline.map (·.slug)).Nodup ∧
      lookup? citiesOutline (" \t" ++ h.slug ++ "\u2003") = some h := by
  have hclear : Slug.Clear (citiesOutline.map Heading.plainSlug) := by decide +kernel
  obtain ⟨hnodup, hfound⟩ := slugs_addressable cities_outline
  refine ⟨⟨1, .whole 1, "Bonn", "bonn-1", .between ⟨1, 0⟩ ⟨1, 6⟩⟩, .tail _ (.head _), rfl,
    hnodup.mpr hclear, ?_⟩
  have hfront : ∀ c ∈ " \t".toList, Unicode.isBlank c = true := List.all_eq_true.mp (by decide)
  have hback : ∀ c ∈ "\u2003".toList, Unicode.isBlank c = true := List.all_eq_true.mp (by decide)
  exact (hfound _ (.tail _ (.head _)) " \t" "\u2003" hfront hback).2 hclear

/-- Two headings of one text, and one whose text reads like the slug of the second. -/
def rooms : Document := .ofText "# a\n# a\n# a-1" "u" "markdown" (.whole 1) "h"

def roomsTokens : List Token := headingTokens 0 "a" ++ headingTokens 1 "a" ++ headingTokens 2 "a-1"

def roomsOutline : List Heading :=
  [⟨1, .whole 0, "a", "a", .between ⟨0, 0⟩ ⟨0, 3⟩⟩,
    ⟨1, .whole 1, "a", "a-1", .between ⟨1, 0⟩ ⟨1, 3⟩⟩,
    ⟨1, .whole 2, "a-1", "a-1", .between ⟨2, 0⟩ ⟨2, 5⟩⟩]

set_option maxRecDepth 4000 in
/-- The number that tells the second heading from the first is in the text of the third, so its slug
is taken and finds the second. -/
theorem numbered_slug_taken :
    ofTokens rooms roomsTokens = .ok roomsOutline ∧ ¬ (roomsOutline.map (·.slug)).Nodup ∧
      ∃ h ∈ roomsOutline, lookup? roomsOutline h.slug ≠ some h := by
  refine ⟨rfl, by decide, ⟨1, .whole 2, "a-1", "a-1", .between ⟨2, 0⟩ ⟨2, 5⟩⟩,
    .tail _ (.tail _ (.head _)), fun hfound => ?_⟩
  have hsecond : lookup? roomsOutline "a-1" = roomsOutline[1]? := rfl
  have hlines := congrArg (Option.map (·.span.start.line)) (hsecond.symm.trans hfound)
  revert hlines
  decide

end Outline

end Concentric
