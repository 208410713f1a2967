import Concentric.CommandLine.Batch
import Concentric.Proofs.CacheTransparency
import Concentric.Proofs.RequestCourse

/-! Batches and requests. A command parses its document for the chains and once more for the
outline, and a host does both with one parse, maybe out of a cache that other documents have filled.
Both have the tokens of the parser for the document, hence the same outline and the same chains. A
command keeps the positions without a chain, and a host drops them. -/

namespace Concentric.CommandLine.Batch

variable {parser : BlockParser} {s : Settings} {d : Document} {earlier : List Document}
  {values : List Value} {ps : List Position}

/-! ## Pairs of positions and chains -/

/-- The chains of pairs, without those that are empty. -/
def found (pairs : List (Position × Chain)) : List Chain :=
  (pairs.map (·.2)).filter fun c => !c.isEmpty

/-- The positions one after another, each with its chain. -/
def pairs (selection : Selection) (ps : List Position) : Except Failure (List (Position × Chain)) :=
  ps.mapM fun p => return (p, ← selection.chain p)

theorem pairs_cons (selection : Selection) (p : Position) (ps : List Position) :
    pairs selection (p :: ps) = do
      let c ← selection.chain p
      let cs ← pairs selection ps
      return (p, c) :: cs := by
  unfold pairs
  rw [List.mapM_cons]
  cases selection.chain p <;> rfl

theorem found_pairs (selection : Selection) (ps : List Position) :
    (pairs selection ps).map found = selection.chains ps := by
  induction ps with
  | nil => rfl
  | cons p ps ih =>
    rw [pairs_cons, Request.chains_cons, ← ih]
    cases selection.chain p with
    | error f => rfl
    | ok c =>
      rw [Failure.ok_bind, Failure.ok_bind]
      cases pairs selection ps with
      | error f => rfl
      | ok cs =>
        show Except.ok (found ((p, c) :: cs)) = Except.ok _
        cases c <;> rfl

theorem mem_pairs {selection : Selection} {cs : List (Position × Chain)}
    (h : pairs selection ps = .ok cs) :
    cs.map (·.1) = ps ∧ ∀ p c, (p, c) ∈ cs → selection.chain p = .ok c := by
  induction ps generalizing cs with
  | nil =>
    obtain rfl := Except.ok.inj h
    exact ⟨rfl, fun _ _ hmem => absurd hmem List.not_mem_nil⟩
  | cons q ps ih =>
    rw [pairs_cons] at h
    obtain ⟨chain, hchain, h⟩ := Failure.bind_eq_ok.mp h
    obtain ⟨later, hlater, h⟩ := Failure.bind_eq_ok.mp h
    obtain rfl := Except.ok.inj h
    obtain ⟨hpositions, hchains⟩ := ih hlater
    refine ⟨by rw [List.map_cons, hpositions], fun p c hmem => ?_⟩
    rcases List.mem_cons.mp hmem with heq | hmem
    · obtain ⟨rfl, rfl⟩ := Prod.mk.inj heq
      exact hchain
    · exact hchains p c hmem

/-! ## The two parses of a batch -/

/-- The cache of the tokenizer has no room for one document. -/
def Rereads (s : Settings) : Prop :=
  s.tokenCacheSize.le (.whole 0) = true ∨ s.tokenCacheSize.lt (.whole 1) = true

instance (s : Settings) : Decidable (Rereads s) := inferInstanceAs (Decidable (_ ∨ _))

/-- After one parse the document is kept, if there is room for it. -/
theorem kept_after_first (parser : BlockParser) (s : Settings) (d : Document) :
    d.signature ∈ ((Tokenizer.fresh s).parse parser d).tokenizer.cache.keys ↔ ¬ Rereads s := by
  rw [Tokenizer.parse_of_missed rfl]
  unfold Rereads Cache.remember
  cases hnone : s.tokenCacheSize.le (.whole 0) with
  | true => simp [Tokenizer.fresh, hnone, Cache.keys]
  | false =>
    cases hless : s.tokenCacheSize.lt (.whole 1) with
    | true => simp [Tokenizer.fresh, hnone, hless, Cache.keys, Cache.use, Cache.trim]
    | false => simp [Tokenizer.fresh, hnone, hless, Cache.keys, Cache.use, Cache.trim]

theorem calls_run (parser : BlockParser) (s : Settings) (d : Document) (ps : List Position) :
    (run parser s d ps).calls = (ParserSetup.ofSettings s).calls ++ .parse d.text ::
      if Rereads s then [.parse d.text] else [] := by
  have hcalls : (run parser s d ps).calls = ((Tokenizer.fresh s).parse parser d).calls ++
      (((Tokenizer.fresh s).parse parser d).tokenizer.parse parser d).calls := by
    unfold run
    dsimp only
    split <;> rfl
  have hparses : ((Tokenizer.fresh s).parse parser d).tokenizer.parses = 1 := rfl
  have hfirst : ((Tokenizer.fresh s).parse parser d).calls =
      (ParserSetup.ofSettings s).calls ++ [.parse d.text] := rfl
  rw [hcalls, hfirst, Tokenizer.calls_parse, hparses, List.append_assoc]
  simp only [kept_after_first]
  by_cases h : Rereads s <;> simp [h]

theorem chains_run (parser : BlockParser) (s : Settings) (d : Document) (ps : List Position) :
    (run parser s d ps).chains =
      Outline.ofTokens d (Tokenizer.tokensOf parser s d) >>= fun outline =>
        pairs ⟨d, Tokenizer.tokensOf parser s d, outline, s.listDepthCap⟩ ps := by
  have hsecond : (((Tokenizer.fresh s).parse parser d).tokenizer.parse parser d).stream.tokens =
      Tokenizer.tokensOf parser s d :=
    ((Tokenizer.Keeps.fresh parser s).parse d).tokens fun e he _ => by
      rw [List.mem_singleton.mp he]
  unfold run
  dsimp only
  rw [hsecond]
  cases Outline.ofTokens d (Tokenizer.tokensOf parser s d) <;> rfl

/-! ## The host's answer -/

/-- The chains with which a host is answered that has parsed other documents before. -/
def answered (parser : BlockParser) (s : Settings) (earlier : List Document) (d : Document)
    (values : List Value) : Except Failure (List Chain) :=
  Request.chains (.ofTokenizer parser ((Tokenizer.fresh s).after parser earlier)) d values
    fun _ => false

theorem answered_of_ok (hsigned : ∀ e ∈ earlier, e.signature = d.signature → e.text = d.text)
    (hread : values.mapM Position.ofValue = .ok ps) :
    answered parser s earlier d values = if ps = [] then .ok [] else
      Outline.ofTokens d (Tokenizer.tokensOf parser s d) >>= fun outline =>
        Selection.chains ⟨d, Tokenizer.tokensOf parser s d, outline, s.listDepthCap⟩ ps := by
  have hsettings := Tokenizer.settings_after parser (Tokenizer.fresh s) earlier
  have htokens : (((Tokenizer.fresh s).after parser earlier).parse parser d).stream.tokens =
      Tokenizer.tokensOf parser s d := by
    have hkeeps := (Tokenizer.Keeps.fresh parser s).after earlier
    rw [List.nil_append] at hkeeps
    rw [hkeeps.tokens hsigned, hsettings]
    rfl
  unfold answered
  rw [Request.chains_of_ok hread, Request.begun_uncancelled]
  simp only [Bool.false_eq_true, or_false]
  unfold Provider.selection Provider.ofTokenizer
  simp only [htokens, hsettings]
  rfl

/-- A batch and a host fail together, and the chains of a host are those of a batch that are not
empty, in the order of the positions. A position alone is answered with its chain, and with nothing
if the batch has it without one. The parser is set up once and parses a second time only if there is
no room to keep what it parsed first. -/
theorem run_agrees (hsigned : ∀ e ∈ earlier, e.signature = d.signature → e.text = d.text)
    (hread : values.mapM Position.ofValue = .ok ps) :
    (ps ≠ [] →
      answered parser s earlier d values = (run parser s d ps).chains.map found) ∧
    (∀ cs, (run parser s d ps).chains = .ok cs →
      cs.map (·.1) = ps ∧ answered parser s earlier d values = .ok (found cs) ∧
      ∀ p c, (p, c) ∈ cs → ∀ v, Position.ofValue v = .ok p →
        answered parser s earlier d [v] = .ok (if c = [] then [] else [c])) ∧
    (run parser s d ps).calls = (ParserSetup.ofSettings s).calls ++ .parse d.text ::
      if Rereads s then [.parse d.text] else [] := by
  have hsome : ps ≠ [] →
      answered parser s earlier d values = (run parser s d ps).chains.map found := by
    intro hne
    rw [answered_of_ok hsigned hread, if_neg hne, chains_run]
    cases Outline.ofTokens d (Tokenizer.tokensOf parser s d) with
    | error f => rfl
    | ok outline => exact (found_pairs _ ps).symm
  refine ⟨hsome, fun cs hcs => ?_, calls_run parser s d ps⟩
  have hrun := hcs
  rw [chains_run] at hrun
  obtain ⟨outline, houtline, hpairs⟩ := Failure.bind_eq_ok.mp hrun
  obtain ⟨hpositions, hchains⟩ := mem_pairs hpairs
  refine ⟨hpositions, ?_, fun p c hmem v hv => ?_⟩
  · by_cases hne : ps = []
    · have hnil : cs = [] := List.map_eq_nil_iff.mp (hpositions.trans hne)
      rw [answered_of_ok hsigned hread, if_pos hne, hnil]
      rfl
    · rw [hsome hne, hcs]
      rfl
  · have hone : [v].mapM Position.ofValue = .ok [p] := by
      rw [List.mapM_cons, hv]
      rfl
    rw [answered_of_ok hsigned hone, if_neg (List.cons_ne_nil p []), houtline, Failure.ok_bind,
      Request.chains_cons, hchains p c hmem]
    cases c <;> rfl

/-- Two paragraphs with a blank line between them. -/
def apart : Document := .ofText "a\n\nb" "u" "markdown" (.whole 1) "h"

/-- The tokens of a paragraph of one line. -/
def paragraphOn (line : Nat) (content : String) : List Token :=
  let map : Value := .list [.whole line, .whole (line + 1)]
  [{ type := .named "paragraph_open", map := map, level := .whole 0, tag := .text "p" },
    { type := .named "inline", map := map, level := .whole 1, content := .text content },
    { type := .named "paragraph_close", level := .whole 0, tag := .text "p" }]

def apartParser : BlockParser := fun _ text =>
  if text = apart.text then paragraphOn 0 "a" ++ paragraphOn 2 "b" else []

/-- Settings that leave no room for any document. -/
def roomless : Settings := { tokenCacheSize := .whole 0 }

/-- The documents that the host has parsed before, the same one among them. -/
def apartEarlier : List Document := [.ofText "a" "v" "markdown" (.whole 1) "h", apart]

/-- The blank line has no chain, so a host drops its position. -/
theorem apart_agrees :
    (∀ e ∈ apartEarlier, e.signature = apart.signature → e.text = apart.text) ∧
    [.text "1:0", .list [.whole 2, .whole 0]].mapM Position.ofValue = .ok [⟨1, 0⟩, ⟨2, 0⟩] ∧
    (run apartParser roomless apart [⟨1, 0⟩, ⟨2, 0⟩]).chains =
      .ok [(⟨1, 0⟩, []), (⟨2, 0⟩, [.fresh (.between ⟨2, 0⟩ ⟨2, 1⟩)])] ∧
    answered apartParser roomless apartEarlier apart [.text "1:0", .list [.whole 2, .whole 0]] =
      .ok [[.fresh (.between ⟨2, 0⟩ ⟨2, 1⟩)]] ∧
    answered apartParser roomless apartEarlier apart [.text "1:0"] = .ok [] ∧
    (run apartParser roomless apart [⟨1, 0⟩, ⟨2, 0⟩]).calls =
      [.make .commonmark, .enable "table", .enable "strikethrough", .parse "a\n\nb",
        .parse "a\n\nb"] := by
  have hsigned : ∀ e ∈ apartEarlier, e.signature = apart.signature → e.text = apart.text := by
    decide +kernel
  have hread : [.text "1:0", .list [.whole 2, .whole 0]].mapM Position.ofValue =
      .ok [⟨1, 0⟩, ⟨2, 0⟩] := Failure.eq_ok_of_toOption (by decide +kernel)
  have hrun : (run apartParser roomless apart [⟨1, 0⟩, ⟨2, 0⟩]).chains =
      .ok [(⟨1, 0⟩, []), (⟨2, 0⟩, [.fresh (.between ⟨2, 0⟩ ⟨2, 1⟩)])] :=
    Failure.eq_ok_of_toOption (by decide +kernel)
  have hblank : Position.ofValue (.text "1:0") = .ok ⟨1, 0⟩ :=
    Failure.eq_ok_of_toOption (by decide +kernel)
  obtain ⟨-, hchains, hcalls⟩ := @run_agrees apartParser roomless _ _ _ _ hsigned hread
  obtain ⟨-, hall, hone⟩ := hchains _ hrun
  exact ⟨hsigned, hread, hrun, hall, hone ⟨1, 0⟩ [] List.mem_cons_self _ hblank, hcalls⟩

end Concentric.CommandLine.Batch
