import Concentric.Outline
import Mathlib.Data.List.Forall2

/-! Token streams as a block parser hands them over. Reading the titles of such a stream does not
fail: there is one title for each token that opens a heading, on the token's first line. -/

namespace Concentric

namespace Value

/-- The whole number that a value counts as; a truth value counts as 0 or 1. -/
def wholeNumber? (v : Value) : Option Int := v.numeral? >>= Numeral.whole?

theorem wholeNumber?_cases {v : Value} {n : Int} (h : v.wholeNumber? = some n) :
    v = .whole n ∨ ∃ b, v = .truth b ∧ n = if b then 1 else 0 := by
  cases v with
  | whole m =>
    cases h
    exact Or.inl rfl
  | truth b =>
    cases h
    exact Or.inr ⟨b, rfl, rfl⟩
  | _ => cases h

theorem minus_of_wholeNumber? {v : Value} {n : Int} (h : v.wholeNumber? = some n) (k : Int) :
    v.minus k = .ok (.whole (n - k)) := by
  rcases wholeNumber?_cases h with rfl | ⟨b, rfl, rfl⟩
  · rfl
  · cases b <;> rfl

theorem isNumber_of_wholeNumber? {v : Value} {n : Int} (h : v.wholeNumber? = some n) (k : Int) :
    v.isNumber k = decide (n = k) := by
  rcases wholeNumber?_cases h with rfl | ⟨b, rfl, rfl⟩
  · exact isNumber_whole n k
  · cases b <;> exact isNumber_whole _ k

theorem lessThan_of_wholeNumber? {v w : Value} {m n : Int} (h : v.wholeNumber? = some m)
    (h' : w.wholeNumber? = some n) : v.lessThan w = .ok (decide (m < n)) := by
  have key : (whole m).lessThan (whole n) = .ok (decide (m < n)) :=
    congrArg Except.ok (Numeral.lt_whole m n)
  rw [← key]
  rcases wholeNumber?_cases h with rfl | ⟨b, rfl, rfl⟩ <;>
    rcases wholeNumber?_cases h' with rfl | ⟨c, rfl, rfl⟩
  · rfl
  · cases c <;> rfl
  · cases b <;> rfl
  · cases b <;> cases c <;> rfl

theorem toWhole_of_wholeNumber? {v : Value} {n : Int} (h : v.wholeNumber? = some n) :
    v.toWhole = .ok n := by
  rcases wholeNumber?_cases h with rfl | ⟨b, rfl, rfl⟩ <;> rfl

end Value

theorem Position.ofCoordinates_of_wholeNumber? {v w : Value} {m n : Int}
    (h : v.wholeNumber? = some m) (h' : w.wholeNumber? = some n) :
    Position.ofCoordinates v w = .ok (.clamped m n) := by
  unfold Position.ofCoordinates Position.coordinate
  rw [Value.toWhole_of_wholeNumber? h, Value.toWhole_of_wholeNumber? h']
  rfl

namespace Token

/-- What every token of a block parser has: a name, a depth, and three texts. -/
structure Typed (t : Token) : Prop where
  name : ∃ s, t.type = .named s
  depth : ∃ n : Nat, t.level = .whole n
  tag : ∃ s, t.tag = .text s
  markup : ∃ s, t.markup = .text s
  content : ∃ s, t.content = .text s

/-- The token opens a heading of the outline: one with a map. -/
def opensHeading (t : Token) : Bool := t.type.name? == some "heading_open" && t.map.truthy

/-- The first line of a map, whatever else the map holds. -/
def firstLine? (t : Token) : Option Int := t.map.first.toOption >>= Value.wholeNumber?

/-- What tells one token of a parser from another: its name and depth, the lines from a first one up
to another, and its tag. -/
structure Sketch where
  name : String
  depth : Nat
  first : Nat
  stop : Nat
  tag : String := ""

/-- The token of a sketch. -/
def Sketch.token (k : Sketch) : Token where
  type := .named k.name
  map := .list [.whole k.first, .whole k.stop]
  level := .whole k.depth
  tag := .text k.tag

theorem typed_of_sketches (ks : List Sketch) : ∀ t ∈ ks.map Sketch.token, t.Typed := by
  intro t ht
  obtain ⟨k, -, rfl⟩ := List.mem_map.mp ht
  exact ⟨⟨_, rfl⟩, ⟨_, rfl⟩, ⟨_, rfl⟩, ⟨_, rfl⟩, ⟨_, rfl⟩⟩

theorem opensHeading_iff {t : Token} :
    t.opensHeading = true ↔ t.type = .named "heading_open" ∧ t.map.truthy = true := by
  unfold opensHeading TokenType.name?
  cases t.type <;> simp

theorem first_of_firstLine? {t : Token} {n : Int} (h : t.firstLine? = some n) :
    ∃ v, t.map.first = .ok v ∧ v.wholeNumber? = some n := by
  unfold firstLine? at h
  cases hv : t.map.first with
  | error f =>
    rw [hv] at h
    cases h
  | ok v =>
    rw [hv] at h
    exact ⟨v, rfl, h⟩

end Token

/-- The headings of a stream stand on lines of the document, each below the one before. -/
structure HeadingsAscend (d : Document) (tokens : List Token) : Prop where
  inside : ∀ t ∈ tokens, t.opensHeading = true →
    ∃ n : Nat, t.firstLine? = some (n : Int) ∧ n < d.lineCount
  ascending : (tokens.filter Token.opensHeading).Pairwise fun s t =>
    ∀ m n : Int, s.firstLine? = some m → t.firstLine? = some n → m < n

/-- Items stand on ascending lines if their lines are such. -/
theorem ascend_of_lines {α : Type} {line? : α → Option Int} {xs : List α} {count : Nat}
    {lines : List Nat} (heq : xs.map line? = lines.map fun n : Nat => some (n : Int))
    (hlt : ∀ n ∈ lines, n < count) (hasc : lines.Pairwise (· < ·)) :
    (∀ x ∈ xs, ∃ n : Nat, line? x = some (n : Int) ∧ n < count) ∧
      xs.Pairwise fun x y => ∀ m n : Int, line? x = some m → line? y = some n → m < n := by
  constructor
  · intro x hx
    have hmem := List.mem_map_of_mem (f := line?) hx
    rw [heq] at hmem
    obtain ⟨n, hn, hline⟩ := List.mem_map.mp hmem
    exact ⟨n, hline.symm, hlt n hn⟩
  · have hpairs : (lines.map fun n : Nat => some (n : Int)).Pairwise fun a b =>
        ∀ m n : Int, a = some m → b = some n → m < n := by
      refine List.pairwise_map.mpr (hasc.imp ?_)
      intro a b hab m n hm hn
      obtain rfl := Option.some.inj hm
      obtain rfl := Option.some.inj hn
      exact Int.ofNat_lt.mpr hab
    rw [← heq] at hpairs
    exact List.pairwise_map.mp hpairs

/-- Headings ascend if their first lines do. -/
theorem HeadingsAscend.of_lines {d : Document} {tokens : List Token} (lines : List Nat)
    (heq : (tokens.filter Token.opensHeading).map Token.firstLine? =
      lines.map fun n : Nat => some (n : Int))
    (hlt : ∀ n ∈ lines, n < d.lineCount) (hasc : lines.Pairwise (· < ·)) :
    HeadingsAscend d tokens := by
  obtain ⟨hinside, hpairs⟩ := ascend_of_lines heq hlt hasc
  exact ⟨fun t ht ho => hinside t (List.mem_filter.mpr ⟨ht, ho⟩), hpairs⟩

theorem HeadingsAscend.tail {d : Document} {t : Token} {rest : List Token}
    (h : HeadingsAscend d (t :: rest)) : HeadingsAscend d rest := by
  refine ⟨fun u hu => h.inside u (List.mem_cons_of_mem _ hu), ?_⟩
  exact h.ascending.sublist ((List.sublist_cons_self t rest).filter _)

namespace Title

/-- The title is that of the token: of its rank, on its first line, and with a text. -/
structure Of (t : Token) (title : Title) : Prop where
  level : levelOf t = .ok title.level
  line : ∃ n : Int, t.firstLine? = some n ∧ title.line.wholeNumber? = some n
  text : ∃ s, title.text = .text s

theorem textOf_typed {rest : List Token} (h : ∀ t ∈ rest, t.Typed) :
    ∃ s, textOf rest = .ok (.text s) := by
  cases rest with
  | nil => exact ⟨"", rfl⟩
  | cons t rest =>
    obtain ⟨⟨name, hn⟩, -, -, -, ⟨c, hc⟩⟩ := h t List.mem_cons_self
    unfold textOf
    simp only [hn, TokenType.get, Failure.ok_bind]
    split
    · exact ⟨_, by rw [hc]; rfl⟩
    · exact ⟨"", rfl⟩

theorem levelOf_typed {t : Token} (h : t.Typed) : ∃ n, levelOf t = .ok n := by
  obtain ⟨tag, ht⟩ := h.tag
  obtain ⟨markup, hm⟩ := h.markup
  unfold levelOf
  rw [ht, hm]
  dsimp only
  split
  · exact ⟨_, rfl⟩
  · exact ⟨_, rfl⟩

theorem open?_typed {t : Token} {rest : List Token} (ht : t.Typed) (hr : ∀ u ∈ rest, u.Typed)
    (hline : t.opensHeading = true → ∃ n : Nat, t.firstLine? = some (n : Int)) :
    if t.opensHeading then ∃ title, open? t rest = .ok (some title) ∧ Of t title
    else open? t rest = .ok none := by
  obtain ⟨name, hn⟩ := ht.name
  split
  · next ho =>
    obtain ⟨hname, htruthy⟩ := Token.opensHeading_iff.mp ho
    obtain ⟨n, hfirst⟩ := hline ho
    obtain ⟨v, hv, hvn⟩ := Token.first_of_firstLine? hfirst
    obtain ⟨s, hs⟩ := textOf_typed hr
    obtain ⟨k, hk⟩ := levelOf_typed ht
    refine ⟨⟨k, v, .text s⟩, ?_, ⟨hk, ⟨n, hfirst, hvn⟩, s, rfl⟩⟩
    unfold open?
    rw [hname]
    simp only [TokenType.get, Failure.ok_bind, htruthy, if_true, hs, hk, hv]
    rfl
  · next ho =>
    unfold open?
    rw [hn]
    simp only [TokenType.get, Failure.ok_bind]
    split
    · next heq =>
      have hmap : ¬ t.map.truthy = true := fun htruthy =>
        ho (Token.opensHeading_iff.mpr ⟨hn.trans heq, htruthy⟩)
      rw [if_neg hmap]
      rfl
    · rfl

/-- The titles of a stream are those of the tokens that open headings, in their order. -/
theorem ofTokens_typed {d : Document} {tokens : List Token} (ht : ∀ t ∈ tokens, t.Typed)
    (ha : HeadingsAscend d tokens) :
    ∃ titles, ofTokens tokens = .ok titles ∧
      List.Forall₂ Of (tokens.filter Token.opensHeading) titles := by
  induction tokens with
  | nil => exact ⟨[], rfl, .nil⟩
  | cons t rest ih =>
    have hrest : ∀ u ∈ rest, u.Typed := fun u hu => ht u (List.mem_cons_of_mem _ hu)
    obtain ⟨titles, htitles, hof⟩ := ih hrest ha.tail
    have hopen := open?_typed (ht t List.mem_cons_self) hrest fun ho =>
      (ha.inside t List.mem_cons_self ho).imp fun n hn => hn.1
    unfold ofTokens
    by_cases ho : t.opensHeading = true
    · rw [if_pos ho] at hopen
      obtain ⟨title, htitle, htof⟩ := hopen
      refine ⟨title :: titles, by rw [htitle, htitles]; rfl, ?_⟩
      rw [List.filter_cons_of_pos ho]
      exact .cons htof hof
    · rw [if_neg ho] at hopen
      refine ⟨titles, by rw [hopen, htitles]; rfl, ?_⟩
      rw [List.filter_cons_of_neg ho]
      exact hof

end Title

end Concentric
