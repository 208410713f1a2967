import Concentric.Proofs.Stream
import Concentric.Tokenizer

/-! A cache that nobody notices. The signature of a document ends with the digest of its text, so
one signature stands for one text, whatever is in the URI and the version. Each stream that a
tokenizer keeps is thus the one that its parser has for every document of that signature, and a
tokenizer with a cache gives what a new one gives. The parser is set up once, and asked for a text
exactly where nothing is kept. -/

namespace Concentric

/-! ## Signatures -/

theorem Quoted.length_hex (n k : Nat) : (Quoted.hex n k).length = n := by
  induction n generalizing k with
  | zero => rfl
  | succ n ih => simp [Quoted.hex, ih]

theorem Digest.length_ofText (s : String) : (Digest.ofText s).toList.length = 40 := by
  simp [Digest.ofText, Quoted.length_hex]

namespace Document

/-- The hash of the document is the digest of its text. -/
def Digested (d : Document) : Prop := d.hash = Digest.ofText d.text

instance (d : Document) : Decidable d.Digested := inferInstanceAs (Decidable (_ = _))

/-- Texts of documents that have one digest are one text. -/
def Apart (ds : List Document) : Prop :=
  ∀ d ∈ ds, ∀ e ∈ ds, Digest.ofText d.text = Digest.ofText e.text → d.text = e.text

instance (ds : List Document) : Decidable (Apart ds) :=
  inferInstanceAs (Decidable (∀ d ∈ ds, ∀ e ∈ ds, _ → _))

/-- Documents of one signature have one text. -/
def Signed (ds : List Document) : Prop :=
  ∀ d ∈ ds, ∀ e ∈ ds, d.signature = e.signature → d.text = e.text

/-- The digest is the end of the signature, of the same length in every document, so that nothing
in front of it can be mistaken for a part of it. -/
theorem hash_of_signature {d e : Document} (hd : d.Digested) (he : e.Digested)
    (h : d.signature = e.signature) : d.hash = e.hash := by
  have hlength : d.hash.toList.length = e.hash.toList.length := by
    rw [hd, he, Digest.length_ofText, Digest.length_ofText]
  have hlist := congrArg String.toList h
  simp only [signature, String.toList_append] at hlist
  exact String.toList_inj.mp (List.append_inj' hlist hlength).2

theorem signed_of_apart {ds : List Document} (hdigest : ∀ d ∈ ds, d.Digested)
    (hapart : Apart ds) : Signed ds := by
  intro d hd e he h
  have hhash := hash_of_signature (hdigest d hd) (hdigest e he) h
  rw [hdigest d hd, hdigest e he] at hhash
  exact hapart d hd e he hhash

end Document

/-! ## Entries of a cache -/

namespace Cache

variable {α : Type} {c : Cache α} {key : String} {a : α} {entry : String × α}

theorem mem_of_find? (h : c.find? key = some a) : (key, a) ∈ c := by
  obtain ⟨before, after, heq, -⟩ := List.lookup_eq_some_iff.mp h
  rw [heq]
  exact List.mem_append_right _ List.mem_cons_self

theorem find?_eq_none_iff : c.find? key = none ↔ key ∉ c.keys := by
  unfold find? keys
  rw [List.lookup_eq_none_iff]
  constructor
  · intro h hmem
    obtain ⟨e, he, rfl⟩ := List.mem_map.mp hmem
    simpa using h e he
  · intro h e he
    have hne : key ≠ e.1 := fun heq => h (heq ▸ List.mem_map_of_mem he)
    simpa using hne

theorem exists_find?_of_mem (h : key ∈ c.keys) : ∃ a, c.find? key = some a := by
  cases hfind : c.find? key with
  | none => exact absurd h (find?_eq_none_iff.mp hfind)
  | some a => exact ⟨a, rfl⟩

theorem mem_use (h : entry ∈ c.use key a) : entry = (key, a) ∨ entry ∈ c := by
  rcases List.mem_append.mp h with h | h
  · exact Or.inr (List.mem_filter.mp h).1
  · exact Or.inl (List.mem_singleton.mp h)

theorem mem_remember {limit : Numeral} (h : entry ∈ c.remember limit key a) :
    entry = (key, a) ∨ entry ∈ c := by
  unfold remember at h
  split at h
  · exact Or.inr h
  · exact mem_use ((trim_suffix limit _).mem h)

end Cache

/-! ## Parses -/

/-- The call makes a parser. -/
def ParserCall.isMake : ParserCall → Bool
  | make _ => true
  | _ => false

theorem ParserSetup.countP_isMake (p : ParserSetup) : p.calls.countP ParserCall.isMake = 1 := by
  obtain ⟨preset, tables, strikethrough⟩ := p
  cases tables <;> cases strikethrough <;> rfl

theorem ParserSetup.parse_notMem_calls (p : ParserSetup) (text : String) :
    ParserCall.parse text ∉ p.calls := by
  obtain ⟨preset, tables, strikethrough⟩ := p
  cases tables <;> cases strikethrough <;> simp [calls]

namespace Tokenizer

variable {parser : BlockParser} {t : Tokenizer} {s : Settings} {d : Document}
  {ds seen : List Document}

/-- The tokens that the parser has for a document under settings. -/
def tokensOf (parser : BlockParser) (s : Settings) (d : Document) : List Token :=
  parser (.ofSettings s) d.text

/-- The tokenizer after it has parsed documents one after another. -/
def after (parser : BlockParser) (t : Tokenizer) (ds : List Document) : Tokenizer :=
  ds.foldl (fun t d => (t.parse parser d).tokenizer) t

/-- The documents of which nothing is kept when their turn comes. -/
def missed (parser : BlockParser) (t : Tokenizer) : List Document → List Document
  | [] => []
  | d :: ds =>
    let later := missed parser (t.parse parser d).tokenizer ds
    if d.signature ∈ t.cache.keys then later else d :: later

/-- Each stream that is kept is that of a document parsed before, under its signature. -/
def Keeps (parser : BlockParser) (t : Tokenizer) (seen : List Document) : Prop :=
  ∀ key stream, (key, stream) ∈ t.cache →
    ∃ d ∈ seen, d.signature = key ∧ stream.tokens = tokensOf parser t.settings d

theorem parse_of_kept {stream : TokenStream} (h : t.cache.find? d.signature = some stream) :
    t.parse parser d = ⟨{ t with cache := t.cache.use d.signature stream }, stream, []⟩ := by
  simp only [parse, h]

theorem parse_of_missed (h : t.cache.find? d.signature = none) :
    t.parse parser d =
      ⟨{ t with
          parses := t.parses + 1
          cache := t.cache.remember t.settings.tokenCacheSize d.signature
            ⟨t.parses, tokensOf parser t.settings d⟩ },
        ⟨t.parses, tokensOf parser t.settings d⟩,
        (if t.parses = 0 then (ParserSetup.ofSettings t.settings).calls else []) ++
          [.parse d.text]⟩ := by
  simp only [parse, h, tokensOf]

theorem settings_parse (parser : BlockParser) (t : Tokenizer) (d : Document) :
    (t.parse parser d).tokenizer.settings = t.settings := by
  cases h : t.cache.find? d.signature with
  | none => rw [parse_of_missed h]
  | some stream => rw [parse_of_kept h]

theorem settings_after (parser : BlockParser) (t : Tokenizer) (ds : List Document) :
    (t.after parser ds).settings = t.settings := by
  induction ds generalizing t with
  | nil => rfl
  | cons d ds ih => exact (ih _).trans (settings_parse parser t d)

/-! ## What is kept -/

theorem Keeps.fresh (parser : BlockParser) (s : Settings) : Keeps parser (fresh s) [] := by
  intro key stream h
  cases h

theorem Keeps.parse (h : Keeps parser t seen) (d : Document) :
    Keeps parser (t.parse parser d).tokenizer (seen ++ [d]) := by
  intro key stream hmem
  have hold : (key, stream) ∈ t.cache →
      ∃ e ∈ seen ++ [d], e.signature = key ∧ stream.tokens = tokensOf parser t.settings e := by
    intro hmem
    obtain ⟨e, he, hkey, htokens⟩ := h key stream hmem
    exact ⟨e, List.mem_append_left _ he, hkey, htokens⟩
  rw [settings_parse]
  cases hfind : t.cache.find? d.signature with
  | none =>
    rw [parse_of_missed hfind] at hmem
    rcases Cache.mem_remember hmem with hnew | hmem
    · obtain ⟨rfl, rfl⟩ := Prod.mk.inj hnew
      exact ⟨d, List.mem_append_right _ List.mem_cons_self, rfl, rfl⟩
    · exact hold hmem
  | some kept =>
    rw [parse_of_kept hfind] at hmem
    rcases Cache.mem_use hmem with hnew | hmem
    · obtain ⟨rfl, rfl⟩ := Prod.mk.inj hnew
      exact hold (Cache.mem_of_find? hfind)
    · exact hold hmem

theorem Keeps.after (h : Keeps parser t seen) (ds : List Document) :
    Keeps parser (t.after parser ds) (seen ++ ds) := by
  induction ds generalizing t seen with
  | nil => rwa [List.append_nil]
  | cons d ds ih =>
    rw [List.append_cons]
    exact ih (h.parse d)

/-- A document has the tokens of the parser if no document before it has its signature and another
text. -/
theorem Keeps.tokens (h : Keeps parser t seen)
    (hsigned : ∀ e ∈ seen, e.signature = d.signature → e.text = d.text) :
    (t.parse parser d).stream.tokens = tokensOf parser t.settings d := by
  cases hfind : t.cache.find? d.signature with
  | none => rw [parse_of_missed hfind]
  | some stream =>
    rw [parse_of_kept hfind]
    obtain ⟨e, he, hkey, htokens⟩ := h _ _ (Cache.mem_of_find? hfind)
    rw [htokens, tokensOf, tokensOf, hsigned e he hkey]

/-! ## Runs -/

theorem tokens_parseAll (h : Keeps parser t seen) (hsigned : Document.Signed (seen ++ ds)) :
    (t.parseAll parser ds).map (·.stream.tokens) = ds.map (tokensOf parser t.settings) := by
  induction ds generalizing t seen with
  | nil => rfl
  | cons d ds ih =>
    have hd : d ∈ seen ++ d :: ds := by simp
    have htokens := h.tokens fun e he => hsigned e (List.mem_append_left _ he) d hd
    have hrest : Document.Signed (seen ++ [d] ++ ds) := by simpa using hsigned
    have hlater := ih (h.parse d) hrest
    rw [settings_parse] at hlater
    simp only [parseAll, List.map_cons, htokens, hlater]

theorem calls_parse (parser : BlockParser) (t : Tokenizer) (d : Document) :
    (t.parse parser d).calls = if d.signature ∈ t.cache.keys then [] else
      (if t.parses = 0 then (ParserSetup.ofSettings t.settings).calls else []) ++
        [.parse d.text] := by
  cases h : t.cache.find? d.signature with
  | none => rw [parse_of_missed h, if_neg (Cache.find?_eq_none_iff.mp h)]
  | some stream =>
    have hkey : d.signature ∈ t.cache.keys := by
      by_contra hnot
      rw [Cache.find?_eq_none_iff.mpr hnot] at h
      cases h
    rw [parse_of_kept h, if_pos hkey]

/-- Each parse of a run is that of the tokenizer after the documents before. -/
theorem getElem?_parseAll (parser : BlockParser) (t : Tokenizer) (ds : List Document) (i : Nat) :
    (t.parseAll parser ds)[i]? =
      ds[i]?.map fun d => (t.after parser (ds.take i)).parse parser d := by
  induction ds generalizing t i with
  | nil => rfl
  | cons d ds ih =>
    cases i with
    | zero => rfl
    | succ i => exact ih (t.parse parser d).tokenizer i

/-- A parser that has been set up is not set up again. -/
theorem calls_parseAll (parser : BlockParser) (t : Tokenizer) (ds : List Document) :
    (t.parseAll parser ds).flatMap (·.calls) =
      (if t.parses = 0 ∧ missed parser t ds ≠ [] then (ParserSetup.ofSettings t.settings).calls
        else []) ++ (missed parser t ds).map fun d => .parse d.text := by
  induction ds generalizing t with
  | nil => simp [parseAll, missed]
  | cons d ds ih =>
    simp only [parseAll, List.flatMap_cons, calls_parse, ih, settings_parse, missed]
    by_cases hkey : d.signature ∈ t.cache.keys
    · obtain ⟨stream, hfind⟩ := Cache.exists_find?_of_mem hkey
      have hparses : (t.parse parser d).tokenizer.parses = t.parses := by rw [parse_of_kept hfind]
      simp [hkey, hparses]
    · have hparses : (t.parse parser d).tokenizer.parses = t.parses + 1 := by
        rw [parse_of_missed (Cache.find?_eq_none_iff.mpr hkey)]
      simp [hkey, hparses]

/-- Where documents have the digests of their texts and no two of these are the same by chance, each
parse has the tokens that a new tokenizer has for its document. All that is asked of the parser is
to be set up, at the first document of which nothing is kept, and to parse such documents one after
another. -/
theorem parseAll_transparent (parser : BlockParser) (s : Settings) {ds : List Document}
    (hdigest : ∀ d ∈ ds, d.Digested) (hapart : Document.Apart ds) :
    ((fresh s).parseAll parser ds).map (·.stream.tokens) =
      ds.map (fun d => ((fresh s).parse parser d).stream.tokens) ∧
    ((fresh s).parseAll parser ds).flatMap (·.calls) =
      (if missed parser (fresh s) ds = [] then [] else (ParserSetup.ofSettings s).calls) ++
        (missed parser (fresh s) ds).map (fun d => .parse d.text) ∧
    (((fresh s).parseAll parser ds).flatMap (·.calls)).countP ParserCall.isMake ≤ 1 ∧
    ∀ i p, ((fresh s).parseAll parser ds)[i]? = some p →
      ∃ d, ds[i]? = some d ∧ ∀ text, .parse text ∈ p.calls ↔
        text = d.text ∧ d.signature ∉ ((fresh s).after parser (ds.take i)).cache.keys := by
  have hcalls := calls_parseAll parser (fresh s) ds
  refine ⟨tokens_parseAll (Keeps.fresh parser s) (Document.signed_of_apart hdigest hapart),
    ?_, ?_, ?_⟩
  · rw [hcalls]
    by_cases hnil : missed parser (fresh s) ds = []
    · rw [if_pos hnil, if_neg fun h => h.2 hnil]
    · rw [if_neg hnil, if_pos ⟨rfl, hnil⟩]
      rfl
  · have hnone : (missed parser (fresh s) ds).countP (ParserCall.isMake ∘ fun d => .parse d.text) =
        0 := List.countP_eq_zero.mpr fun d _ => Bool.false_ne_true
    rw [hcalls, List.countP_append, List.countP_map, hnone]
    split
    · exact Nat.le_of_eq (ParserSetup.countP_isMake _)
    · exact Nat.zero_le 1
  · intro i p hp
    rw [getElem?_parseAll] at hp
    obtain ⟨d, hd, rfl⟩ := Option.map_eq_some_iff.mp hp
    refine ⟨d, hd, fun text => ?_⟩
    rw [calls_parse]
    split
    · next hkey => simp [hkey]
    · next hkey => split <;> simp [hkey, ParserSetup.parse_notMem_calls]

/-! ## A cache with room for one stream -/

/-- Settings under which one stream is kept. -/
def oneRoom : Settings := { tokenCacheSize := .whole 1 }

def letter (uri text : String) : Document := .ofText text uri "markdown" (.whole 1) ""

/-- A document twice, another one in between, and the first one again. The version of the one is a
part of the URI of the other. -/
def letters : List Document := [letter "u" "a", letter "u" "a", letter "u:1" "b", letter "u" "a"]

/-- The parser, as far as texts of one letter go. -/
def letterParser : BlockParser := fun _ text =>
  [Token.Sketch.token ⟨"paragraph_open", 0, 0, 1, "p"⟩,
    { Token.Sketch.token ⟨"inline", 1, 0, 1, ""⟩ with content := .text text },
    { Token.Sketch.token ⟨"paragraph_close", 0, 0, 1, "p"⟩ with map := .nothing }]

/-- The stream of the first document is kept for its second turn, and has made room by the last. -/
theorem letters_transparent : (∀ d ∈ letters, d.Digested) ∧ Document.Apart letters ∧
    ((fresh oneRoom).parseAll letterParser letters).map (·.stream.tokens) =
      letters.map (fun d => ((fresh oneRoom).parse letterParser d).stream.tokens) ∧
    ((fresh oneRoom).parseAll letterParser letters).flatMap (·.calls) =
      [.make .commonmark, .enable "table", .enable "strikethrough", .parse "a", .parse "b",
        .parse "a"] := by
  have hdigest : ∀ d ∈ letters, d.Digested := by decide +kernel
  have hapart : Document.Apart letters := by decide +kernel
  obtain ⟨htokens, hcalls, -⟩ := parseAll_transparent letterParser oneRoom hdigest hapart
  have hmissed : (missed letterParser (fresh oneRoom) letters).map (fun d => .parse d.text) =
      [.parse "a", .parse "b", ParserCall.parse "a"] := by decide +kernel
  have hsome : missed letterParser (fresh oneRoom) letters ≠ [] := by
    intro hnil
    rw [hnil] at hmissed
    cases hmissed
  rw [hmissed, if_neg hsome] at hcalls
  exact ⟨hdigest, hapart, htokens, hcalls⟩

end Tokenizer

end Concentric
