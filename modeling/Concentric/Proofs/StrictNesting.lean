import Concentric.Proofs.NestedRows

/-! Strict nesting. Each step of a chain lies inside of the next one outwards, up to two defects.
The content of a section is the section of a heading that stands right below and ends with it, so
that one step is there twice. And a list at the top leaves out its last line, so that an item that
ends with the list sticks out of it. -/

namespace Concentric

open Rows

/-- Every step but the outermost lies within the next one outwards and is not the same. -/
def Chain.StrictlyNested (c : Chain) : Prop :=
  c.IsChain fun s t => t.span.contains s.span = true ∧ t.span ≠ s.span

instance (c : Chain) : Decidable c.StrictlyNested := inferInstanceAs (Decidable (List.IsChain _ c))

theorem strictlyNested_iff {d : Document} {rs : List Rows} (hrs : ∀ r ∈ rs, r.Proper d) :
    Chain.StrictlyNested (rs.map (step d)) ↔ rs.IsChain Inside := by
  unfold Chain.StrictlyNested
  rw [List.isChain_map]
  refine List.IsChain.iff_of_mem_imp fun r p hr hp => ?_
  have hcontains := contains_span_iff (hrs r hr) (hrs p hp)
  have hinj := span_inj (hrs p hp) (hrs r hr)
  show (p.span d).contains (r.span d) = true ∧ p.span d ≠ r.span d ↔ _
  rw [hcontains, ne_eq, hinj]
  exact and_congr_right fun _ => not_congr eq_comm

theorem isChain_push_iff {r p : Rows} (h : r.Inside p) (outer : List Rows) :
    (r :: p :: outer).IsChain Inside ↔ (p :: outer).IsChain Inside := by
  have hkeeps : Keeps Inside 0 (p :: outer) (r :: p :: outer) := .push (fun _ _ h => h) h
  exact hkeeps.links

namespace Headings

open Outline

/-! ## Chains of headings -/

/-- Of the headings around a line none stands right below the one before it and ends with it. -/
def Staggered (outline : List Heading) (line : Nat) : Prop :=
  (outline.filter (covers line)).IsChain fun g h => ¬ (h.top = g.top + 1 ∧ h.bottom = g.bottom)

instance (outline : List Heading) (line : Nat) : Decidable (Staggered outline line) :=
  inferInstanceAs (Decidable (List.IsChain _ _))

section

variable {d : Document} {outline : List Heading} {line : Nat} {h : Heading}

theorem content_inside (h : Heading) : h.contentRows.Inside h.rows := by
  refine ⟨⟨Nat.le_succ _, Nat.le_refl _⟩, fun heq => ?_⟩
  have hfirst : h.top + 1 = h.top := congrArg Rows.first heq
  omega

theorem cutRows_cases (h : Heading) (outline : List Heading) (first : Nat) :
    h.cutRows outline first = [] ∨
      ∃ r : Rows, h.cutRows outline first = [r] ∧ r.Inside ⟨first, h.bottom⟩ := by
  cases hcut : h.cutRows outline first with
  | nil => exact Or.inl rfl
  | cons r rest =>
    have hrest : rest = [] := by
      unfold Heading.cutRows at hcut
      cases hnext : h.nextInside? outline with
      | none =>
        rw [hnext] at hcut
        cases hcut
      | some t =>
        rw [hnext] at hcut
        cases hcut
        rfl
    refine Or.inr ⟨r, by rw [hrest], ?_⟩
    obtain ⟨t, -, hlt, hle, rfl⟩ := mem_cutRows (hcut ▸ List.mem_cons_self)
    refine ⟨⟨Nat.le_refl _, by dsimp only; omega⟩, fun heq => ?_⟩
    have hlast : t.top - 1 = h.bottom := congrArg Rows.last heq
    omega

/-- The steps of the closest heading are linked to one another and to its section. -/
theorem closestRows_links (h : Heading) (outer : List Rows) :
    (closestRows outline line h ++ outer).IsChain Inside ↔ (h.rows :: outer).IsChain Inside := by
  unfold closestRows
  split
  · rcases cutRows_cases h outline h.top with hnil | ⟨r, hr, hin⟩
    · rw [hnil]
      exact Iff.rfl
    · rw [hr]
      exact isChain_push_iff hin outer
  · have hcontent := isChain_push_iff (content_inside h) outer
    rcases cutRows_cases h outline (h.top + 1) with hnil | ⟨r, hr, hin⟩
    · rw [hnil]
      exact hcontent
    · rw [hr]
      exact (isChain_push_iff hin (h.rows :: outer)).trans hcontent

theorem outerRows_links {outer : List Heading}
    (hnested : (h :: outer).Pairwise fun h g => g.top < h.top ∧ h.bottom ≤ g.bottom) :
    (h.rows :: outer.flatMap fun g => [g.contentRows, g.rows]).IsChain Inside ↔
      (h :: outer).IsChain fun h g => ¬ (h.top = g.top + 1 ∧ h.bottom = g.bottom) := by
  induction outer generalizing h with
  | nil => exact iff_of_true (.singleton _) (.singleton _)
  | cons g outer ih =>
    obtain ⟨hbelow, hrest⟩ := List.pairwise_cons.mp hnested
    obtain ⟨hlt, hle⟩ := hbelow g List.mem_cons_self
    have hlink : h.rows.Inside g.contentRows ↔ ¬ (h.top = g.top + 1 ∧ h.bottom = g.bottom) := by
      constructor
      · rintro ⟨-, hne⟩ ⟨htop, hbottom⟩
        refine hne ?_
        unfold Heading.rows Heading.contentRows
        rw [htop, hbottom]
      · intro hne
        refine ⟨⟨hlt, hle⟩, fun heq => hne ?_⟩
        exact ⟨congrArg Rows.first heq, congrArg Rows.last heq⟩
    rw [List.flatMap_cons]
    show (h.rows :: g.contentRows :: g.rows :: outer.flatMap _).IsChain Inside ↔ _
    rw [List.isChain_cons_cons, isChain_push_iff (content_inside g), ih hrest, hlink,
      List.isChain_cons_cons]

/-- A chain of headings is strictly nested if and only if the headings are staggered. -/
theorem rowsAround_isChain_iff (hs : Sectioned d outline) :
    (rowsAround outline line).IsChain Inside ↔ Staggered outline line := by
  have hnested := List.pairwise_reverse.mpr (around_nested hs line)
  have hlinks : (outline.filter (covers line)).reverse.IsChain
      (fun h g => ¬ (h.top = g.top + 1 ∧ h.bottom = g.bottom)) ↔ Staggered outline line :=
    List.isChain_reverse
  rw [← hlinks]
  unfold rowsAround
  cases hrev : (outline.filter (covers line)).reverse with
  | nil => exact iff_of_true .nil .nil
  | cons h outer =>
    rw [hrev] at hnested
    exact (closestRows_links h _).trans (outerRows_links hnested)

/-- Where a chain of headings has one step twice at its inner end, that step starts on the line. -/
theorem rowsAround_steady (outline : List Heading) (line : Nat) :
    Steady Inside line (rowsAround outline line) := by
  have hpush : ∀ {r p : Rows} (outer : List Rows), r.Inside p →
      Steady Inside line (r :: p :: outer) :=
    fun _ h => (Keeps.push (fun _ _ h => h) h).steady
  unfold rowsAround
  cases (outline.filter (covers line)).reverse with
  | nil => exact trivial
  | cons h outer =>
    show Steady Inside line (closestRows outline line h ++ _)
    unfold closestRows
    split
    · next htop =>
      rcases cutRows_cases h outline h.top with hnil | ⟨r, hr, hin⟩
      · rw [hnil]
        cases outer with
        | nil => exact trivial
        | cons g outer =>
          intro r hin hle hlast
          have hfirst : r.first = h.top := Nat.le_antisymm (htop ▸ hle) hin.1
          have hsame : r = h.rows := by
            cases r
            exact congr (congrArg Rows.mk hfirst) hlast
          rw [hsame]
      · rw [hr]
        exact hpush _ hin
    · rcases cutRows_cases h outline (h.top + 1) with hnil | ⟨r, hr, hin⟩
      · rw [hnil]
        exact hpush _ (content_inside h)
      · rw [hr]
        exact hpush _ hin

end

end Headings

namespace Move

/-! ## Runs of moves -/

/-- Carrying out moves on a chain of rows is a run over rows, all of them lines of the document. -/
structure Runs (d : Document) (line cap : Nat) (rs : List Rows) (ms : List Move) : Prop where
  carried : Blocks.carryOut ⟨d, line, .whole cap⟩ (rs.map (step d)) ms =
    .ok ((putAll d line ms rs).map (step d))
  proper : ∀ r ∈ putAll d line ms rs, r.Proper d
  ne_nil : rs ≠ [] → putAll d line ms rs ≠ []

section

variable {d : Document} {line cap : Nat} {t : Token} {ts rest : List Token} {ms : List Move}
  {rs outer : List Rows} {p : Rows}

theorem Runs.of_fits (hms : ∀ m ∈ ms, m.Fits d line) (hhead : ∀ p ∈ rs.head?, p.At d line)
    (hrs : ∀ p ∈ rs, p.Proper d) : Runs d line cap rs ms :=
  ⟨carryOut_eq hms hhead, putAll_all (fun _ h => h.proper) hms hhead hrs, putAll_ne_nil hms hhead⟩

/-- A list runs also where it does not have the line. -/
theorem Runs.list (ht : t.At d line) (hrs : ∀ p ∈ rs, p.Proper d)
    (h : Runs d line cap (t.listRows.putList rs) ms) : Runs d line cap rs (.list t :: ms) := by
  obtain ⟨b, hb, hjoin⟩ := Token.join_list (.whole cap) ht
    fun p hp => hrs p (List.mem_of_mem_head? hp)
  refine ⟨?_, h.proper, fun hne => h.ne_nil ((putList_grows ht.listRows_proper).ne_nil hne)⟩
  rw [carryOut_cons hb, hjoin, h.carried]
  rfl

theorem Picks.fits (hp : Picks ts ms) (ho : Orderly d line ts)
    (hlist : ∀ t ∈ ts, t.isList = true → t.listRows = t.rows) : ∀ m ∈ ms, m.Fits d line := by
  intro m hm
  obtain ⟨t, ht, ⟨rfl, hl⟩ | rfl⟩ := hp.mem m hm
  · exact .list (ho.around t ht) (hlist t ht hl ▸ (ho.around t ht).toLies.rows_at)
  · exact ho.alone_fits t ht

/-- Outside of any section the chain of the blocks is strictly nested. -/
theorem unseeded_run (cap : Nat) (ho : Orderly d line ts) :
    Runs d line cap [] (all (.whole cap) false ts) ∧
      (putAll d line (all (.whole cap) false ts) []).IsChain Inside := by
  cases ts with
  | nil => exact ⟨⟨rfl, fun r hr => absurd hr List.not_mem_nil, fun h => absurd rfl h⟩, .nil⟩
  | cons t rest =>
    have hpicks := mixed_picks cap ho.tail.typed
    have hlist := Token.listRows_eq_of_inner ho
    have hfits : ∀ m ∈ alone t :: mixed (.whole cap) rest, m.Fits d line := by
      intro m hm
      rcases List.mem_cons.mp hm with rfl | hm
      · exact ho.alone_fits t List.mem_cons_self
      · exact hpicks.fits ho.tail hlist m hm
    refine ⟨.of_fits hfits (fun p hp => by cases hp) fun p hp => absurd hp List.not_mem_nil, ?_⟩
    show (putAll d line (mixed (.whole cap) rest) (t.put d line [])).IsChain Inside
    cases rest with
    | nil =>
      show (t.put d line []).IsChain Inside
      unfold Token.put
      split
      · show ((t.markedRows? line).toList ++ [t.rows]).IsChain Inside
        have hmarked := t.markedRows_inside line
        cases hc : t.markedRows? line with
        | none => exact .singleton _
        | some c => exact (isChain_push_iff (hmarked c hc) []).mpr (.singleton _)
      · exact .singleton _
    | cons u rest =>
      obtain ⟨hfence, hpair⟩ := ho.plain_of_mem List.mem_cons_self
      have hput : t.put d line [] = [t.rows] := by
        unfold Token.put
        rw [hfence, Token.plainRows_eq (ho.starts t List.mem_cons_self), hpair]
        rfl
      have hsteady : Steady Inside line [t.rows] := trivial
      rw [hput]
      exact (hpicks.keeps ho.tail (fun _ _ h => h) hlist hsteady ho.rows_within).links.mpr
        (.singleton _)

/-- Where all blocks lie within the innermost step and none is a list at the top that leaves out a
line, they keep the links of the chain. -/
theorem Picks.run (cap : Nat) (hp : Picks ts ms) (ho : Orderly d line ts)
    (hlist : ∀ t ∈ ts, t.isList = true → t.listRows = t.rows)
    (hin : ∀ t ∈ ts, t.rows.Within p) (hs : Steady Inside line (p :: outer))
    (hat : p.At d line) (hrs : ∀ r ∈ p :: outer, r.Proper d) :
    Runs d line cap (p :: outer) ms ∧
      ((putAll d line ms (p :: outer)).IsChain Inside ↔ (p :: outer).IsChain Inside) := by
  refine ⟨.of_fits (hp.fits ho hlist) (fun r hr => ?_) hrs, ?_⟩
  · exact Option.mem_some.mp hr ▸ hat
  · exact (hp.keeps ho (fun _ _ h => h) hlist hs hin).links

/-! ## Runs with a list at the top -/

/-- After a list at the top an item follows that ends with it, and the walk goes down to it. -/
def Overruns (cap : Nat) (t : Token) (rest : List Token) : Prop :=
  2 ≤ cap ∧ ∃ u us, rest = u :: us ∧ u.isList = true ∧ u.depth = 1 ∧ u.stop = t.stop

/-- An item that ends with a list at the top sticks out of it, and whatever follows does not take
that back. -/
theorem overrun_run {u : Token} (ho : Orderly d line (u :: rest)) (hu : u.isList = true)
    (hdepth : u.depth = 1) (hcap : 2 ≤ cap) (hend : p.last + 2 = u.stop)
    (hrs : ∀ r ∈ p :: outer, r.Proper d) :
    Runs d line cap (p :: outer) (walk (.whole cap) (.whole (1 : Nat)) (u :: rest)) ∧
      ¬ (putAll d line (walk (.whole cap) (.whole (1 : Nat)) (u :: rest)) (p :: outer)).IsChain
        Inside := by
  have hat := ho.around u List.mem_cons_self
  have hrows : u.listRows = u.rows := hat.listRows_eq fun htop => by omega
  have hlist := Token.listRows_eq_of_inner ho
  have hpicks := walk_picks cap 2 ho.tail.typed
  have hout : ¬ u.rows.last ≤ p.last := by
    unfold Token.rows
    dsimp only
    omega
  have hput : u.listRows.putList (p :: outer) = u.rows :: p :: outer := by
    rw [hrows]
    simp only [putList]
    rw [if_neg]
    rintro ⟨-, hlast⟩
    exact hout (Nat.le_of_eq hlast)
  rw [walk_item hat.typed hu hdepth hcap]
  constructor
  · refine .list hat hrs ?_
    rw [hput]
    refine .of_fits (hpicks.fits ho.tail hlist) (fun r hr => ?_) fun r hr => ?_
    · exact Option.mem_some.mp hr ▸ hat.toLies.rows_at
    · rcases List.mem_cons.mp hr with rfl | hr
      · exact hat.toLies.rows_at.proper
      · exact hrs r hr
  · -- last lines no longer ascend, and rows put within the item keep it so
    intro hchain
    have hascend : ∀ r p : Rows, r.Inside p → r.last ≤ p.last := fun _ _ h => h.1.2
    have hsteady : Steady (fun r p => r.last ≤ p.last) line (u.rows :: p :: outer) :=
      fun _ _ _ hlast => iff_of_eq (congrArg (· ≤ p.last) hlast)
    have hkeeps := hpicks.keeps ho.tail hascend hlist hsteady ho.rows_within
    have hfinal : (putAll d line (walk (.whole cap) (.whole (2 : Nat)) rest)
        (u.rows :: p :: outer)).IsChain fun r p => r.last ≤ p.last := by
      rw [← hput]
      exact List.IsChain.imp hascend hchain
    exact hout (List.isChain_cons_cons.mp (hkeeps.links.mp hfinal)).1

/-- An item that ends before a list at the top does keeps the links of the chain, and so does all
that it has. -/
theorem shortItem_run (cap : Nat) {u : Token} (ho : Orderly d line (t :: u :: rest))
    (hdepth : u.depth = 1) (hend : u.stop ≠ t.stop) (hlast : p.last + 2 = t.stop)
    (hfirst : p.first = t.first) (hs : Steady Inside line (p :: outer))
    (hrs : ∀ r ∈ p :: outer, r.Proper d) :
    Runs d line cap (p :: outer) (walk (.whole cap) (.whole (1 : Nat)) (u :: rest)) ∧
      ((putAll d line (walk (.whole cap) (.whole (1 : Nat)) (u :: rest)) (p :: outer)).IsChain
        Inside ↔ (p :: outer).IsChain Inside) := by
  have huat := ho.tail.around u List.mem_cons_self
  have hlt := huat.lt_stop
  obtain ⟨hufirst, hustop, -⟩ := (List.pairwise_cons.mp ho.inner).1 u List.mem_cons_self
  have hu_in : u.rows.Within p := by
    unfold Rows.Within Token.rows
    dsimp only
    omega
  have hin : ∀ v ∈ u :: rest, v.rows.Within p := by
    intro v hv
    rcases List.mem_cons.mp hv with rfl | hv
    · exact hu_in
    · exact (ho.tail.rows_within v hv).trans hu_in
  have hpat : p.At d line := by
    have := (ho.around t List.mem_cons_self).first_le
    exact ⟨by omega, by omega, (hrs p List.mem_cons_self).last_lt⟩
  exact (walk_picks cap 1 ho.tail.typed).run cap ho.tail (Token.listRows_eq_of_inner ho) hin hs
    hpat hrs

/-- Where no item follows a list at the top, the blocks come on their own. As long as the line is
not the last one of the list, which it has left out, they keep the links of the chain. -/
theorem noItem_run {u : Token} (ho : Orderly d line (t :: u :: rest)) (hcap : 2 ≤ cap)
    (hu : ¬ (u.isList = true ∧ u.depth = 1)) (hne : line + 1 ≠ t.stop)
    (hlast : p.last + 2 = t.stop) (hfirst : p.first = t.first)
    (hs : Steady Inside line (p :: outer)) (hrs : ∀ r ∈ p :: outer, r.Proper d) :
    Runs d line cap (p :: outer) (walk (.whole cap) (.whole (1 : Nat)) (u :: rest)) ∧
      ((putAll d line (walk (.whole cap) (.whole (1 : Nat)) (u :: rest)) (p :: outer)).IsChain
        Inside ↔ (p :: outer).IsChain Inside) := by
  have hat := ho.around t List.mem_cons_self
  have hpat : p.At d line := by
    have := hat.first_le
    have := hat.lt_stop
    exact ⟨by omega, by omega, (hrs p List.mem_cons_self).last_lt⟩
  have hdepth : 1 ≤ u.depth := by
    obtain ⟨-, -, hdepth⟩ := (List.pairwise_cons.mp ho.inner).1 u List.mem_cons_self
    omega
  have hmoves : walk (.whole cap) (.whole (1 : Nat)) (u :: rest) =
      ((u :: rest).dropWhile Token.isList).map alone := by
    refine walk_eq_alone (by omega) ho.tail.typed fun v hv hl hvdepth => ?_
    rcases List.mem_cons.mp hv with rfl | hv
    · exact hu ⟨hl, hvdepth⟩
    · obtain ⟨-, -, hlt⟩ := (List.pairwise_cons.mp ho.tail.inner).1 v hv
      omega
  have hsub : ((u :: rest).dropWhile Token.isList).Sublist (u :: rest) :=
    List.dropWhile_sublist _
  have hos := ho.tail.sublist hsub
  have hlist : ∀ v ∈ (u :: rest).dropWhile Token.isList, v.isList = true → v.listRows = v.rows :=
    fun v hv => Token.listRows_eq_of_inner ho v (hsub.mem hv)
  have hin : ∀ v ∈ (u :: rest).dropWhile Token.isList,
      p.first ≤ v.rows.first ∧ v.rows.last ≤ p.last + 1 := by
    intro v hv
    obtain ⟨hvfirst, hvlast⟩ := ho.rows_within v (hsub.mem hv)
    have hlast' : t.rows.last = p.last + 1 := by
      unfold Token.rows
      dsimp only
      omega
    exact ⟨hfirst.trans_le hvfirst, hvlast.trans_eq hlast'⟩
  rw [hmoves]
  refine ⟨.of_fits ((picks_alone _).fits hos hlist) (fun r hr => ?_) hrs, ?_⟩
  · exact Option.mem_some.mp hr ▸ hpat
  · exact (putAll_alone_keeps hos (fun _ _ h => h) hlist hs hpat.first_le hpat.le_last hin).links

/-- Below a list at the top, which has left out its last line, the links of the chain are kept if
and only if no item that ends with the list follows. -/
theorem topList_rest_run (ho : Orderly d line (t :: rest)) (hcap : 1 ≤ cap)
    (hlast : p.last + 2 = t.stop) (hfirst : p.first = t.first)
    (hitem : ∀ u us, rest = u :: us → line + 1 = t.stop → u.isList = true ∧ u.depth = 1)
    (hs : Steady Inside line (p :: outer)) (hrs : ∀ r ∈ p :: outer, r.Proper d) :
    Runs d line cap (p :: outer) (walk (.whole cap) (.whole (1 : Nat)) rest) ∧
      ((putAll d line (walk (.whole cap) (.whole (1 : Nat)) rest) (p :: outer)).IsChain Inside ↔
        (p :: outer).IsChain Inside ∧ ¬ Overruns cap t rest) := by
  have hdone : ∀ ms : List Move, ms = [] → ¬ Overruns cap t rest →
      Runs d line cap (p :: outer) ms ∧ ((putAll d line ms (p :: outer)).IsChain Inside ↔
        (p :: outer).IsChain Inside ∧ ¬ Overruns cap t rest) := by
    rintro ms rfl hover
    refine ⟨⟨rfl, hrs, fun h => h⟩, ?_⟩
    exact (and_iff_left hover).symm
  -- with a cap of one level the walk is over after the list
  by_cases hone : cap = 1
  · subst hone
    exact hdone _ (walk_eq_nil ho.tail.typed) fun h => absurd h.1 (by omega)
  have hcap' : 2 ≤ cap := Nat.lt_of_le_of_ne hcap fun h => hone h.symm
  cases rest with
  | nil =>
    refine hdone _ rfl ?_
    rintro ⟨-, u, us, hnil, -⟩
    cases hnil
  | cons u us =>
    by_cases hu : u.isList = true ∧ u.depth = 1
    · by_cases hend : u.stop = t.stop
      · have hover : Overruns cap t (u :: us) := ⟨hcap', u, us, rfl, hu.1, hu.2, hend⟩
        obtain ⟨hruns, hbroken⟩ :=
          overrun_run ho.tail hu.1 hu.2 hcap' (hlast.trans hend.symm) hrs
        exact ⟨hruns, iff_of_false hbroken fun h => h.2 hover⟩
      · have hover : ¬ Overruns cap t (u :: us) := by
          rintro ⟨-, v, vs, heq, -, -, hv⟩
          cases heq
          exact hend hv
        obtain ⟨hruns, hiff⟩ := shortItem_run cap ho hu.2 hend hlast hfirst hs hrs
        exact ⟨hruns, hiff.trans (and_iff_left hover).symm⟩
    · have hover : ¬ Overruns cap t (u :: us) := by
        rintro ⟨-, v, vs, heq, hv, hdepth, -⟩
        cases heq
        exact hu ⟨hv, hdepth⟩
      have hne : line + 1 ≠ t.stop := fun h => hu (hitem u us rfl h)
      obtain ⟨hruns, hiff⟩ := noItem_run ho hcap' hu hne hlast hfirst hs hrs
      exact ⟨hruns, hiff.trans (and_iff_left hover).symm⟩

/-- With a list at the top that has more than one line the chain of the headings keeps its links if
and only if no item that ends with the list follows. -/
theorem topList_run (ho : Orderly d line (t :: rest)) (hcap : 1 ≤ cap) (hl : t.isList = true)
    (htop : t.depth = 0) (hmore : t.first + 2 ≤ t.stop) (hin : t.rows.Within p)
    (hitem : ∀ u us, rest = u :: us → line + 1 = t.stop → u.isList = true ∧ u.depth = 1)
    (hrs : ∀ r ∈ p :: outer, r.At d line) :
    Runs d line cap (p :: outer) (mixed (.whole cap) (t :: rest)) ∧
      ((putAll d line (mixed (.whole cap) (t :: rest)) (p :: outer)).IsChain Inside ↔
        (p :: outer).IsChain Inside ∧ ¬ Overruns cap t rest) := by
  have hat := ho.around t List.mem_cons_self
  have hrows : t.listRows = ⟨t.first, t.stop - 2⟩ := by
    unfold Token.listRows
    rw [if_pos htop, max_eq_right (by omega)]
  have hproper : ∀ r ∈ p :: outer, r.Proper d := fun r hr => (hrs r hr).proper
  have hinside : (⟨t.first, t.stop - 2⟩ : Rows).Inside p := by
    obtain ⟨hfirst, hlast⟩ := hin
    unfold Token.rows at hfirst hlast
    dsimp only at hfirst hlast
    refine ⟨⟨hfirst, by dsimp only; omega⟩, fun heq => ?_⟩
    have := congrArg Rows.last heq
    dsimp only at this
    omega
  have hput : t.listRows.putList (p :: outer) = ⟨t.first, t.stop - 2⟩ :: p :: outer := by
    rw [hrows]
    simp only [putList]
    rw [if_neg]
    rintro ⟨-, hlast⟩
    have := hin.2
    unfold Token.rows at this
    dsimp only at this
    omega
  have hkeeps : Keeps Inside line (p :: outer) (⟨t.first, t.stop - 2⟩ :: p :: outer) :=
    .push (fun _ _ h => h) hinside
  have hnext : ∀ r ∈ (⟨t.first, t.stop - 2⟩ : Rows) :: p :: outer, r.Proper d := by
    intro r hr
    rcases List.mem_cons.mp hr with rfl | hr
    · exact hrows ▸ hat.listRows_proper
    · exact hproper r hr
  obtain ⟨hruns, hiff⟩ := topList_rest_run ho hcap (by dsimp only; omega) rfl hitem
    hkeeps.steady hnext
  rw [mixed_topList hat.typed hl htop hcap]
  refine ⟨.list hat hproper (hput ▸ hruns), ?_⟩
  show (putAll d line _ (t.listRows.putList (p :: outer))).IsChain Inside ↔ _
  rw [hput, hiff, hkeeps.links]

/-- Within a section the blocks keep the links of the chain if and only if they do not start with a
list at the top of more than one line that an item overruns. -/
theorem seeded_run (ho : Orderly d line ts) (hcap : 1 ≤ cap) (hin : ∀ t ∈ ts, t.rows.Within p)
    (hitems : ∀ t u us, ts = t :: u :: us → t.isList = true → t.depth = 0 →
      line + 1 = t.stop → u.isList = true ∧ u.depth = 1)
    (hs : Steady Inside line (p :: outer)) (hrs : ∀ r ∈ p :: outer, r.At d line) :
    Runs d line cap (p :: outer) (mixed (.whole cap) ts) ∧
      ((putAll d line (mixed (.whole cap) ts) (p :: outer)).IsChain Inside ↔
        (p :: outer).IsChain Inside ∧ ¬ ∃ t rest, ts = t :: rest ∧ t.isList = true ∧
          t.depth = 0 ∧ t.first + 2 ≤ t.stop ∧ Overruns cap t rest) := by
  by_cases htop : ∃ t rest, ts = t :: rest ∧ t.isList = true ∧ t.depth = 0 ∧ t.first + 2 ≤ t.stop
  · obtain ⟨t, rest, rfl, hl, hdepth, hmore⟩ := htop
    obtain ⟨hruns, hiff⟩ := topList_run ho hcap hl hdepth hmore (hin t List.mem_cons_self)
      (fun u us heq hend => hitems t u us (congrArg (t :: ·) heq) hl hdepth hend) hrs
    refine ⟨hruns, hiff.trans (and_congr_right fun _ => not_congr ⟨fun h => ?_, ?_⟩)⟩
    · exact ⟨t, rest, rfl, hl, hdepth, hmore, h⟩
    · rintro ⟨u, us, heq, -, -, -, hover⟩
      cases heq
      exact hover
  · have hover : ¬ ∃ t rest, ts = t :: rest ∧ t.isList = true ∧ t.depth = 0 ∧
        t.first + 2 ≤ t.stop ∧ Overruns cap t rest := by
      rintro ⟨t, rest, heq, hl, hdepth, hmore, -⟩
      exact htop ⟨t, rest, heq, hl, hdepth, hmore⟩
    have hlist : ∀ u ∈ ts, u.isList = true → u.listRows = u.rows := by
      cases ts with
      | nil => exact fun u hu => absurd hu List.not_mem_nil
      | cons t rest =>
        intro u hu hl
        rcases List.mem_cons.mp hu with rfl | hu
        · refine (ho.around u List.mem_cons_self).listRows_eq fun hdepth => ?_
          by_contra hmore
          exact htop ⟨u, rest, rfl, hl, hdepth, by omega⟩
        · exact Token.listRows_eq_of_inner ho u hu hl
    obtain ⟨hruns, hiff⟩ := (mixed_picks cap ho.typed).run cap ho hlist hin hs
      (hrs p List.mem_cons_self) fun r hr => (hrs r hr).proper
    exact ⟨hruns, hiff.trans (and_iff_left hover).symm⟩

end

end Move

namespace Selection

open Headings Outline

/-! ## Chains of positions -/

/-- The blocks around a line lie in the innermost step of the headings and each starts with text;
only the innermost is a fence or a paragraph of two lines; and what a list at the top has on its
last line is one of its items. -/
structure Regular (d : Document) (tokens : List Token) (outline : List Heading) (line : Nat) :
    Prop where
  inSection : ∀ r ∈ (rowsAround outline line).head?,
    ∀ t ∈ tokens.filter (Token.encloses line), t.rows.Within r
  starts : ∀ t ∈ tokens.filter (Token.encloses line), d.hasBlank t.first = false
  leaf : (tokens.filter (Token.encloses line)).Pairwise fun t _ =>
    t.isFence = false ∧ t.isPair = false
  items : ∀ t u us, tokens.filter (Token.encloses line) = t :: u :: us → t.isList = true →
    t.depth = 0 → line + 1 = t.stop → u.isList = true ∧ u.depth = 1

/-- The line lies in a section, and the outermost block around it is a list at the top of more than
one line whose item around the line ends with it. -/
def OverrunsList (outline : List Heading) (tokens : List Token) (line cap : Nat) : Prop :=
  (∃ h ∈ outline, covers line h = true) ∧
    ∃ t rest, tokens.filter (Token.encloses line) = t :: rest ∧ t.isList = true ∧ t.depth = 0 ∧
      t.first + 2 ≤ t.stop ∧ Move.Overruns cap t rest

section

variable {d : Document} {tokens : List Token} {outline : List Heading} {line cap : Nat}

theorem Regular.orderly (hr : Regular d tokens outline line) (hp : ParserShaped d tokens) :
    Orderly d line (tokens.filter (Token.encloses line)) :=
  ⟨fun _ ht => hp.at_of_mem ht, hp.enclosing_inner line, hr.starts, hr.leaf⟩

/-- The moves around a line run over the rows of the headings around it. -/
theorem moves_run (hp : ParserShaped d tokens) (hs : Sectioned d outline) (hcap : 1 ≤ cap)
    (hr : Regular d tokens outline line) :
    Move.Runs d line cap (rowsAround outline line)
        (Move.all (.whole cap) (!(rowsAround outline line).isEmpty)
          (tokens.filter (Token.encloses line))) ∧
      ((Move.putAll d line (Move.all (.whole cap) (!(rowsAround outline line).isEmpty)
          (tokens.filter (Token.encloses line))) (rowsAround outline line)).IsChain Inside ↔
        (rowsAround outline line).IsChain Inside ∧ ¬ OverrunsList outline tokens line cap) := by
  have ho := hr.orderly hp
  have hat := rowsAround_at hs line
  have hsteady := rowsAround_steady outline line
  have hin := hr.inSection
  cases hH : rowsAround outline line with
  | nil =>
    obtain ⟨hruns, hchain⟩ := Move.unseeded_run cap ho
    refine ⟨hruns, iff_of_true hchain ⟨.nil, fun hover => ?_⟩⟩
    exact (rowsAround_eq_nil_iff outline line).mp hH hover.1
  | cons p outer =>
    rw [hH] at hat hsteady hin
    have hover : OverrunsList outline tokens line cap ↔ ∃ t rest,
        tokens.filter (Token.encloses line) = t :: rest ∧ t.isList = true ∧ t.depth = 0 ∧
          t.first + 2 ≤ t.stop ∧ Move.Overruns cap t rest :=
      and_iff_right (exists_covers_of_cons hH)
    rw [List.isEmpty_cons, Bool.not_false, Move.all_seeded, hover]
    exact Move.seeded_run ho hcap (hin p rfl) hr.items hsteady hat

end

/-- Around regular blocks the chain of a position is strictly nested if and only if no section is
the content of another one around the line, and no item ends with a list at the top. -/
theorem chain_strictlyNested_iff {d : Document} {tokens : List Token} {outline : List Heading}
    {cap : Nat} {p : Position} (hp : ParserShaped d tokens) (ho : ofTokens d tokens = .ok outline)
    (hcap : 1 ≤ cap) (hr : Regular d tokens outline p.line) :
    ∃ c, chain ⟨d, tokens, outline, .whole cap⟩ p = .ok c ∧
      (c.StrictlyNested ↔
        Staggered outline p.line ∧ ¬ OverrunsList outline tokens p.line cap) := by
  obtain ⟨hruns, hiff⟩ := moves_run hp (hp.sectioned ho) hcap hr
  refine ⟨_, chain_eq hp ho hruns.carried hruns.ne_nil, ?_⟩
  rw [strictlyNested_iff hruns.proper, hiff, rowsAround_isChain_iff (hp.sectioned ho)]

theorem topList_regular : Regular topList topListTokens topListOutline 1 := by
  refine ⟨by decide, by decide, by decide, fun t u us heq _ _ hend => ?_⟩
  cases heq
  revert hend
  decide

/-- On the first line of the list of two items the chain is strictly nested. -/
theorem topList_strictlyNested : ∃ c,
    chain ⟨topList, topListTokens, topListOutline, .whole 4⟩ ⟨1, 0⟩ = .ok c ∧
      c.StrictlyNested := by
  have ho : ofTokens topList topListTokens = .ok topListOutline := rfl
  have hcap : 1 ≤ 4 := by decide
  obtain ⟨c, hc, hiff⟩ :=
    chain_strictlyNested_iff (p := ⟨1, 0⟩) topList_shaped ho hcap topList_regular
  refine ⟨c, hc, hiff.mpr ⟨by decide, ?_⟩⟩
  rintro ⟨-, t, rest, heq, -, -, -, -, u, us, rfl, -, -, hend⟩
  cases heq
  revert hend
  decide

/-- Two headings on adjacent lines, the second within the first, and a text. -/
def doubled : Document := .ofText "# A\n## B\ntext" "u" "markdown" (.whole 1) "h"

def doubledTokens : List Token :=
  [⟨"heading_open", 0, 0, 1, "h1"⟩, ⟨"heading_open", 0, 1, 2, "h2"⟩,
    ⟨"paragraph_open", 0, 2, 3, "p"⟩].map Token.Sketch.token

def doubledOutline : List Heading :=
  [⟨1, .whole 0, "", "section", .between ⟨0, 0⟩ ⟨2, 4⟩⟩,
    ⟨2, .whole 1, "", "section-1", .between ⟨1, 0⟩ ⟨2, 4⟩⟩]

theorem doubled_shaped : ParserShaped doubled doubledTokens :=
  .of_sketches (by decide) (by decide) (by decide)
    (.of_lines [0, 1] rfl (by decide) (by decide))

/-- Below the two headings one step is there twice. On the last line of the list of two items its
item sticks out of it. -/
theorem step_not_nested :
    (ParserShaped doubled doubledTokens ∧ ofTokens doubled doubledTokens = .ok doubledOutline ∧
      ∃ c, chain ⟨doubled, doubledTokens, doubledOutline, .whole 4⟩ ⟨2, 0⟩ = .ok c ∧
        ¬ c.StrictlyNested) ∧
    (ParserShaped topList topListTokens ∧ ofTokens topList topListTokens = .ok topListOutline ∧
      ∃ c, chain ⟨topList, topListTokens, topListOutline, .whole 4⟩ ⟨2, 0⟩ = .ok c ∧
        ¬ c.StrictlyNested) := by
  have hdoubled : chain ⟨doubled, doubledTokens, doubledOutline, .whole (4 : Nat)⟩ ⟨2, 0⟩ =
      .ok ([⟨2, 2⟩, ⟨1, 2⟩, ⟨1, 2⟩, ⟨0, 2⟩].map (step doubled)) :=
    chain_eq doubled_shaped rfl rfl (by simp)
  have hlist : chain ⟨topList, topListTokens, topListOutline, .whole (4 : Nat)⟩ ⟨2, 0⟩ =
      .ok ([⟨2, 2⟩, ⟨1, 1⟩, ⟨1, 2⟩, ⟨0, 2⟩].map (step topList)) :=
    chain_eq topList_shaped rfl rfl (by simp)
  exact ⟨⟨doubled_shaped, rfl, _, hdoubled, by decide⟩, topList_shaped, rfl, _, hlist, by decide⟩

end Selection

end Concentric
