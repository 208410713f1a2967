import Concentric.Proofs.BlockWalk

/-! Chains of all positions. On a stream with names and levels, and an outline of the document, each
position has a chain, whatever the depth of lists is and wherever blocks lie. Each of its steps
starts on a line of the document, as the end of whole lines lies in the document and a span never
starts after any of its ends. -/

namespace Concentric

variable {d : Document}

/-- All steps of the chain have spans with the property. -/
def Chain.All (P : Span → Prop) (c : Chain) : Prop := ∀ s ∈ c, P s.span

section

variable {P Q : Span → Prop} {s : Step} {c c' : Chain}

theorem Chain.all_cons : All P (s :: c) ↔ P s.span ∧ c.All P := List.forall_mem_cons

theorem Chain.All.cons (hc : c.All P) (hs : P s.span) : All P (s :: c) := all_cons.mpr ⟨hs, hc⟩

theorem Chain.All.sublist (h : c'.Sublist c) (hc : c.All P) : c'.All P :=
  fun s hs => hc s (h.subset hs)

theorem Chain.all_nil (P : Span → Prop) : All P [] := fun _ h => by cases h

end

/-- The property is that of each span which starts as one span with it does, and has its other end
on the last line of another. -/
def Span.Spliced (P : Span → Prop) : Prop :=
  ∀ (s p : Span) (q : Position), P s → P p → q.line = p.stop.line → P (.between s.start q)

/-! ## What joins put into a chain -/

namespace Block

variable {P : Span → Prop} {site : Site} {chain : Chain}

/-- All that the block asks for has the property. -/
structure Asks (P : Span → Prop) (site : Site) (b : Block) : Prop where
  list : b.asList = true → P (wholeLines site b.lines.start (b.listEnd site))
  fence : b.asList = false → b.isFence = true →
    P (b.fenceSpan site) ∧ ∀ c ∈ b.fenceContent site, P c
  plain : b.asList = false → b.isFence = false → P (b.plainSpan site)

theorem joinPlain_all {s : Span} (hP : Span.Spliced P) (hs : P s) (hc : chain.All P) :
    (joinPlain s chain).All P := by
  unfold joinPlain
  cases chain with
  | nil => exact hc.cons hs
  | cons p outer =>
    obtain ⟨hp, houter⟩ := Chain.all_cons.mp hc
    dsimp only
    cases hrel : Relation.classify s p.span with
    | contains => exact hc.cons hs
    | equal => exact hc
    | sameLines =>
      dsimp only
      split
      · exact (Chain.all_nil P).cons hs
      · exact hc
    | extendsOneLine =>
      dsimp only
      split
      · exact hc
      · exact hc.cons (hP s p.span _ hs hp (by rw [← Relation.stop_of_extends hrel]; rfl))
    | sharedEndLine =>
      dsimp only
      split
      · exact hc
      · exact houter.cons (hP p.span s _ hp hs rfl)
    | disjoint => exact hc

theorem joinFence_all {fence : Span} {content : Option Span} (hfence : P fence)
    (hcontent : ∀ c ∈ content, P c) (hc : chain.All P) : (joinFence fence content chain).All P := by
  have hwider : ∀ p : Span, P p → P (wider fence p) := by
    intro p hp
    unfold wider
    split
    · exact hfence
    · exact hp
  unfold joinFence
  cases chain with
  | nil =>
    cases content with
    | none => exact hc.cons hfence
    | some c => exact (hc.cons hfence).cons (hcontent c rfl)
  | cons p outer =>
    obtain ⟨hp, houter⟩ := Chain.all_cons.mp hc
    cases content with
    | none =>
      dsimp only
      cases Relation.classify fence p.span with
      | contains | sharedEndLine => exact hc.cons hfence
      | sameLines => exact houter.cons (hwider p.span hp)
      | equal | extendsOneLine | disjoint => exact hc
    | some c =>
      dsimp only
      cases Relation.classify fence p.span with
      | contains | sharedEndLine => exact (hc.cons hfence).cons (hcontent c rfl)
      | equal => exact hc.cons (hcontent c rfl)
      | sameLines =>
        dsimp only
        split
        · exact hc.cons (hcontent c rfl)
        · have hrest := hc.sublist (Chain.enclosing_suffix (p :: outer) (wider fence p.span)).sublist
          exact (hrest.cons (hwider p.span hp)).cons (hcontent c rfl)
      | extendsOneLine | disjoint => exact hc

theorem joinList_all {b : Block} (hs : P (wholeLines site b.lines.start (b.listEnd site)))
    (hc : chain.All P) : (joinList site b chain).All P := by
  unfold joinList
  dsimp only
  split
  · exact hc.cons hs
  · split
    · exact (hc.sublist (List.sublist_cons_self _ _)).cons hs
    · exact hc.cons hs

/-- Where all that a block asks for has the property, so have all steps of a chain that it joins. -/
theorem join_all {b : Block} (hP : Span.Spliced P) (hb : b.Asks P site) (hc : chain.All P) :
    (join site chain b).All P := by
  unfold join joinAlone
  cases hlist : b.asList with
  | true => exact joinList_all (hb.list hlist) hc
  | false =>
    cases hfence : b.isFence with
    | true => exact joinFence_all (hb.fence hlist hfence).1 (hb.fence hlist hfence).2 hc
    | false => exact joinPlain_all hP (hb.plain hlist hfence) hc

theorem foldl_join_all {bs : List Block} (hP : Span.Spliced P) (hbs : ∀ b ∈ bs, b.Asks P site)
    (hc : chain.All P) : (bs.foldl (join site) chain).All P := by
  induction bs generalizing chain with
  | nil => exact hc
  | cons b bs ih =>
    exact ih (fun b' hb' => hbs b' (List.mem_cons_of_mem _ hb'))
      (join_all hP (hbs b List.mem_cons_self) hc)

end Block

/-! ## Starts of steps -/

namespace Span

theorem start_between_le_left (p q : Position) : (between p q).start ≤ p := by
  unfold between
  split
  · exact Position.le_refl p
  · next h => exact (Position.le_total p q).resolve_left h

theorem start_between_le_right (p q : Position) : (between p q).start ≤ q := by
  rw [between_comm]
  exact start_between_le_left q p

/-- The span starts on a line of the document. -/
def StartsIn (d : Document) (s : Span) : Prop := s.start.line < d.lineCount

theorem spliced_startsIn (d : Document) : Spliced (StartsIn d) := fun _ _ _ hs _ _ =>
  Nat.lt_of_le_of_lt (Position.line_le (start_between_le_left _ _)) hs

end Span

theorem Block.asks_startsIn (site : Site) (b : Block) : b.Asks (Span.StartsIn site.document) site := by
  have hlines : ∀ first last, (wholeLines site first last).StartsIn site.document :=
    fun _ last => Nat.lt_of_le_of_lt (Position.line_le (Span.start_between_le_right _ _))
      (site.document.clampLine_lt last)
  refine ⟨fun _ => hlines _ _, fun _ _ => ⟨hlines _ _, fun c hc => ?_⟩, fun _ _ => ?_⟩
  · unfold fenceContent at hc
    dsimp only at hc
    split at hc
    · exact Option.mem_some.mp hc ▸ hlines _ _
    · cases hc
  · unfold plainSpan
    dsimp only
    split
    · exact hlines _ _
    · exact hlines _ _

/-! ## Moves -/

theorem Move.all_picks {cap : Value} {c : Numeral} (hcap : cap.numeral? = some c)
    (seeded : Bool) {ts : List Token} (hts : ∀ t ∈ ts, t.Labelled) :
    Picks ts (all cap seeded ts) := by
  cases ts with
  | nil => exact .nil []
  | cons t rest =>
    cases seeded with
    | true => exact mixed_picks_numeral hcap hts
    | false => exact .alone (mixed_picks_numeral hcap fun u hu => hts u (List.mem_cons_of_mem _ hu))

namespace Blocks

/-- A token around a line has lines, so a move for it has a block. -/
theorem blocks_of_picks {line : Int} {ts : List Token} {ms : List Move} (h : Move.Picks ts ms)
    (hts : ∀ t ∈ ts, (∃ s, t.type = .named s) ∧ t.encloses line = true) :
    ∃ blocks, ms.mapM Move.block = .ok blocks := by
  have hblock : ∀ m ∈ ms, ∃ b, m.block = .ok b := by
    intro m hm
    obtain ⟨t, ht, hcase⟩ := h.mem m hm
    obtain ⟨hname, hline⟩ := hts t ht
    obtain ⟨-, r, hr, -⟩ := ParserShaped.lines_of_encloses hline
    rcases hcase with ⟨rfl, -⟩ | rfl
    · exact ⟨_, Token.block_list t hr⟩
    · exact ⟨_, Token.block_alone hname hr⟩
  clear h
  induction ms with
  | nil => exact ⟨[], rfl⟩
  | cons m ms ih =>
    obtain ⟨b, hb⟩ := hblock m List.mem_cons_self
    obtain ⟨bs, hbs⟩ := ih fun m' hm' => hblock m' (List.mem_cons_of_mem _ hm')
    exact ⟨b :: bs, by rw [List.mapM_cons, hb, hbs]; rfl⟩

/-- Each block of a run of moves is that of one of them. -/
theorem move_of_block {ms : List Move} {blocks : List Block}
    (h : ms.mapM Move.block = .ok blocks) : ∀ b ∈ blocks, ∃ m ∈ ms, m.block = .ok b := by
  induction ms generalizing blocks with
  | nil =>
    obtain rfl := Except.ok.inj h
    exact fun b hb => by cases hb
  | cons m ms ih =>
    rw [List.mapM_cons] at h
    obtain ⟨b, hb, h⟩ := Failure.bind_eq_ok.mp h
    obtain ⟨bs, hbs, h⟩ := Failure.bind_eq_ok.mp h
    obtain rfl := Except.ok.inj h
    intro b' hmem
    rcases List.mem_cons.mp hmem with rfl | hmem
    · exact ⟨m, List.mem_cons_self, hb⟩
    · obtain ⟨m', hm', hb'⟩ := ih hbs b' hmem
      exact ⟨m', List.mem_cons_of_mem _ hm', hb'⟩

/-- The blocks around the cursor join the seed one after another; without any there is no chain. -/
theorem chain_eq_foldl {site : Site} {tokens : List Token} {cap : Numeral}
    (hcap : site.depthCap.numeral? = some cap) (ht : ∀ t ∈ tokens, t.Labelled) (seed : Chain) :
    ∃ blocks, (Move.all site.depthCap (!seed.isEmpty)
        (Token.enclosing id site.cursor tokens)).mapM Move.block = .ok blocks ∧
      chain site tokens seed = .ok (if (Token.enclosing id site.cursor tokens).isEmpty then []
        else blocks.foldl (Block.join site) seed) := by
  have hmem : ∀ t ∈ Token.enclosing id site.cursor tokens,
      t ∈ tokens ∧ t.encloses site.cursor = true := fun t h =>
    List.mem_filter.mp ((Token.enclosing_perm id _ _).mem_iff.mp h)
  obtain ⟨blocks, hblocks⟩ := blocks_of_picks
    (Move.all_picks hcap (!seed.isEmpty) fun u hu => (ht u (hmem u hu).1))
    fun u hu => ⟨(ht u (hmem u hu).1).name, (hmem u hu).2⟩
  refine ⟨blocks, hblocks, ?_⟩
  unfold chain
  rw [Token.around_of_keys site.cursor fun t h => (ht t h).isKey]
  cases hts : Token.enclosing id site.cursor tokens with
  | nil => rfl
  | cons t rest =>
    rw [hts] at hblocks
    show carryOut site seed _ = _
    unfold carryOut
    rw [hblocks]
    rfl

/-- The chain of blocks is made, put into any seed. What holds of the seed and of all that the blocks
ask for holds of each step. -/
theorem chain_made {site : Site} {tokens : List Token} {cap : Numeral} {P : Span → Prop}
    (hcap : site.depthCap.numeral? = some cap) (ht : ∀ t ∈ tokens, t.Labelled) {seed : Chain}
    (hP : Span.Spliced P) (hseed : seed.All P)
    (hasks : ∀ m ∈ Move.all site.depthCap (!seed.isEmpty) (Token.enclosing id site.cursor tokens),
      ∀ b, m.block = .ok b → b.Asks P site) :
    ∃ c, chain site tokens seed = .ok c ∧ c.All P := by
  obtain ⟨blocks, hblocks, hchain⟩ := chain_eq_foldl hcap ht seed
  refine ⟨_, hchain, ?_⟩
  split
  · exact Chain.all_nil P
  · refine Block.foldl_join_all hP (fun b hb => ?_) hseed
    obtain ⟨m, hm, hmb⟩ := move_of_block hblocks b hb
    exact hasks m hm b hmb

end Blocks

namespace Selection

variable {tokens : List Token} {outline : List Heading}

/-- Every position has a chain, whatever the depth of lists. What holds of the sections around the
line and of all that the blocks around it ask for holds of each step. -/
theorem chain_all {P : Span → Prop} (hs : Outline.Sectioned d outline) (ht : ∀ t ∈ tokens, t.Typed)
    (cap : Numeral) (p : Position) (hP : Span.Spliced P)
    (hseed : ∀ r ∈ Headings.rowsAround outline p.line, P (r.span d))
    (hasks : ∀ m ∈ Move.all (.ofNumeral cap) (!(Headings.rowsAround outline p.line).isEmpty)
        (Token.enclosing id p.line tokens),
      ∀ b, m.block = .ok b → b.Asks P ⟨d, p.line, .ofNumeral cap⟩) :
    ∃ c, chain ⟨d, tokens, outline, cap⟩ p = .ok c ∧ c.All P := by
  have hheadings := Headings.chain_eq hs p
  have hsteps : Chain.All P ((Headings.rowsAround outline p.line).map (Rows.step d)) := by
    intro s hmem
    obtain ⟨r, hr, rfl⟩ := List.mem_map.mp hmem
    exact hseed r hr
  obtain ⟨c, hc, hall⟩ := @Blocks.chain_made ⟨d, p.line, .ofNumeral cap⟩ _ _ P
    (Value.numeral?_ofNumeral cap) (fun t h => (ht t h).labelled) _ hP hsteps
    (by rwa [List.isEmpty_map])
  refine ⟨_, chain_of_blocks (s := ⟨d, tokens, outline, cap⟩) hheadings hc, ?_⟩
  split
  · exact hsteps
  · exact hall

/-- Every position has a chain, and each step of it starts on a line of the document. -/
theorem chain_made (hs : Outline.Sectioned d outline) (ht : ∀ t ∈ tokens, t.Typed) (cap : Numeral)
    (p : Position) :
    ∃ c, chain ⟨d, tokens, outline, cap⟩ p = .ok c ∧ c.All (Span.StartsIn d) := by
  refine chain_all hs ht cap p (Span.spliced_startsIn d) (fun r hr => ?_)
    fun _ _ b _ => b.asks_startsIn ⟨d, p.line, .ofNumeral cap⟩
  have hat := Headings.rowsAround_at hs p.line r hr
  show (r.span d).start.line < d.lineCount
  rw [hat.proper.start_eq]
  exact Nat.lt_of_le_of_lt hat.proper.first_le_last hat.last_lt

end Selection

end Concentric
