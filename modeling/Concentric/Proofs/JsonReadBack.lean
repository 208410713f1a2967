import Concentric.Proofs.JsonTokens
import Concentric.Proofs.PlainData

/-! Documents read back. Data is read from a document as it was written there, the entries of its
maps in the order in which they were written. Each part of a document is read on its own: whatever
follows it, as long as that ends it, and whatever containers are open around it, as long as there is
room for those that it opens itself. Binary numbers are left out here, and so are tuples, which come
back as lists. -/

namespace Concentric

namespace Json

variable {c : Char} {cs rest : List Char} {stack : List Frame} {v : Value} {key : String}

/-! ## Steps -/

theorem run_text {p : List Char × List Char} (h : characters cs = .ok p) :
    run .value stack ('"' :: cs) = run (.after (.text (String.ofList p.1))) stack p.2 := by
  rw [run]
  split
  · next heq => cases h.symm.trans heq
  · next heq =>
    obtain rfl := Except.ok.inj (h.symm.trans heq)
    rfl

theorem run_atom (h : atom? (c :: cs) = some (.ok v, rest)) (hc : c ∉ marks) :
    run .value stack (c :: cs) = run (.after v) stack rest := by
  rw [run]
  · split
    · next heq => cases h.symm.trans heq
    · next heq => cases h.symm.trans heq
    · next heq =>
      cases h.symm.trans heq
      rfl
  all_goals
    rintro rest heq
    obtain rfl := (List.cons.inj heq).1
    exact hc (by decide)

section

variable (hroom : stack.length < depthLimit)

include hroom

theorem run_listOpen (h : skip cs = rest) (hhead : rest.head? ≠ some ']') :
    run .value stack ('[' :: cs) = run .value (.list [] :: stack) rest := by
  subst h
  rw [run, if_neg (by omega)]
  split
  · next heq => exact absurd (congrArg List.head? heq) hhead
  · rfl

theorem run_listEmpty (h : skip cs = ']' :: rest) :
    run .value stack ('[' :: cs) = run (.after (.list [])) stack rest := by
  rw [run, if_neg (by omega)]
  split
  · next heq =>
    cases h.symm.trans heq
    rfl
  · next hno => exact absurd h (hno _)

theorem run_mapOpen (h : skip cs = rest) (hhead : rest.head? ≠ some '\x7d') :
    run .value stack ('\x7b' :: cs) = run (.key []) stack rest := by
  subst h
  conv_lhs => rw [run, if_neg (by omega)]
  split
  · next heq => exact absurd (congrArg List.head? heq) hhead
  · rfl

theorem run_mapEmpty (h : skip cs = '\x7d' :: rest) :
    run .value stack ('\x7b' :: cs) = run (.after (.map [])) stack rest := by
  rw [run, if_neg (by omega)]
  split
  · next heq =>
    cases h.symm.trans heq
    rfl
  · next hno => exact absurd h (hno _)

end

theorem run_listNext (done : List Value) (h : skip cs = ',' :: rest) :
    run (.after v) (.list done :: stack) cs =
      run .value (.list (v :: done) :: stack) (skip rest) := by
  conv_lhs => rw [run]
  split
  · next heq => cases h.symm.trans heq
  · next heq =>
    cases h.symm.trans heq
    rfl
  · next hno => exact absurd h (hno _)

theorem run_listClose (done : List Value) (h : skip cs = ']' :: rest) :
    run (.after v) (.list done :: stack) cs =
      run (.after (.list (v :: done).reverse)) stack rest := by
  conv_lhs => rw [run]
  split
  · next heq =>
    cases h.symm.trans heq
    rfl
  · next heq => cases h.symm.trans heq
  · next hno _ => exact absurd h (hno _)

theorem run_key {p : List Char × List Char} (done : List (String × Value))
    (h : characters cs = .ok p) (hcolon : skip p.2 = ':' :: rest) :
    run (.key done) stack ('"' :: cs) =
      run .value (.map done (String.ofList p.1) :: stack) (skip rest) := by
  conv_lhs => rw [run]
  split
  · next heq => cases h.symm.trans heq
  · next heq =>
    obtain rfl := Except.ok.inj (h.symm.trans heq)
    dsimp only
    split
    · next heq =>
      cases hcolon.symm.trans heq
      rfl
    · next hno => exact absurd hcolon (hno _)

theorem run_mapNext (done : List (String × Value)) (h : skip cs = ',' :: rest) :
    run (.after v) (.map done key :: stack) cs = run (.key (put key v done)) stack (skip rest) := by
  conv_lhs => rw [run]
  split
  · next heq => cases h.symm.trans heq
  · next heq =>
    cases h.symm.trans heq
    rfl
  · next hno => exact absurd h (hno _)

theorem run_mapClose (done : List (String × Value)) (h : skip cs = '\x7d' :: rest) :
    run (.after v) (.map done key :: stack) cs =
      run (.after (.map (put key v done))) stack rest := by
  conv_lhs => rw [run]
  split
  · next heq =>
    cases h.symm.trans heq
    rfl
  · next heq => cases h.symm.trans heq
  · next hno _ => exact absurd h (hno _)

/-! ## Layout -/

/-- The first character is no white space, and closes nothing. -/
def Starts (cs : List Char) : Prop :=
  ∃ c rest, cs = c :: rest ∧ isGap c = false ∧ c ≠ ']' ∧ c ≠ '\x7d'

theorem Starts.append (h : Starts cs) (rest : List Char) : Starts (cs ++ rest) := by
  obtain ⟨c, more, rfl, hc⟩ := h
  exact ⟨c, more ++ rest, rfl, hc⟩

theorem Starts.skip_eq (h : Starts cs) : skip cs = cs := by
  obtain ⟨c, more, rfl, hgap, -⟩ := h
  exact List.dropWhile_cons_of_neg (by simp [hgap])

theorem Starts.head_ne (h : Starts cs) : cs.head? ≠ some ']' ∧ cs.head? ≠ some '\x7d' := by
  obtain ⟨c, more, rfl, -, hc⟩ := h
  simpa using hc

theorem skip_newline (level : Nat) (cs : List Char) : skip (newline level ++ cs) = skip cs := by
  have hgaps : ∀ c ∈ newline level, isGap c = true := by
    intro c hc
    rcases List.mem_cons.mp hc with rfl | hc
    · rfl
    · rw [List.eq_of_mem_replicate hc]
      rfl
  exact List.dropWhile_append_of_pos hgaps

theorem isPrinted_newline (level : Nat) : ∀ c ∈ newline level, IsPrinted c := by
  refine List.forall_mem_cons.mpr ⟨by decide, fun c hc => ?_⟩
  rw [List.eq_of_mem_replicate hc]
  decide

theorem ends_newline (level : Nat) (cs : List Char) : Ends (newline level ++ cs) := fun _ hc =>
  Or.inr (Option.some.inj hc).symm

theorem ends_comma (cs : List Char) : Ends (',' :: cs) := fun _ hc =>
  Or.inl (Option.some.inj hc).symm

section

variable {level : Nat} {ps : List (List Char)}

theorem separate_cons (p : List Char) (hne : ps ≠ []) :
    separate level (p :: ps) = p ++ ',' :: (newline level ++ separate level ps) := by
  cases ps with
  | nil => exact absurd rfl hne
  | cons q ps => rfl

theorem starts_separate (level : Nat) (hne : ps ≠ []) (h : ∀ p ∈ ps, Starts p) :
    Starts (separate level ps) := by
  cases ps with
  | nil => exact absurd rfl hne
  | cons p ps =>
    have hp := h p List.mem_cons_self
    by_cases hlast : ps = []
    · subst hlast
      exact hp
    · rw [separate_cons p hlast]
      exact hp.append _

theorem isPrinted_separate (h : ∀ p ∈ ps, ∀ c ∈ p, IsPrinted c) :
    ∀ c ∈ separate level ps, IsPrinted c := by
  induction ps with
  | nil => exact fun c hc => absurd hc List.not_mem_nil
  | cons p ps ih =>
    obtain ⟨hp, hps⟩ := List.forall_mem_cons.mp h
    by_cases hlast : ps = []
    · subst hlast
      exact hp
    · rw [separate_cons p hlast]
      simp only [List.forall_mem_append, List.forall_mem_cons]
      exact ⟨hp, by decide, isPrinted_newline level, ih hps⟩

theorem bracket_of_ne_nil (hne : ps ≠ []) (opening closing : Char) :
    bracket opening closing level ps = opening ::
      (newline (level + 1) ++ separate (level + 1) ps ++ newline level ++ [closing]) := by
  cases ps with
  | nil => exact absurd rfl hne
  | cons p ps => rfl

theorem isPrinted_bracket {opening closing : Char} (level : Nat)
    (hends : IsPrinted opening ∧ IsPrinted closing) (h : ∀ p ∈ ps, ∀ c ∈ p, IsPrinted c) :
    ∀ c ∈ bracket opening closing level ps, IsPrinted c := by
  by_cases hne : ps = []
  · subst hne
    exact List.forall_mem_cons.mpr ⟨hends.1, List.forall_mem_singleton.mpr hends.2⟩
  rw [bracket_of_ne_nil hne]
  simp only [List.forall_mem_cons, List.forall_mem_append]
  exact ⟨hends.1, ⟨⟨isPrinted_newline _, isPrinted_separate h⟩, isPrinted_newline _⟩, hends.2,
    fun c hc => absurd hc List.not_mem_nil⟩

end

/-! ## Parts of documents -/

/-- The characters are read as the value wherever they stand, if they come to an end there and
`room` more containers may be open. -/
structure Spells (room : Nat) (cs : List Char) (v : Value) : Prop where
  starts : Starts cs
  printed : ∀ c ∈ cs, IsPrinted c
  reads : ∀ stack rest, stack.length + room ≤ depthLimit → Ends rest →
    run .value stack (cs ++ rest) = run (.after v) stack rest

section

variable {room : Nat}

theorem spells_text (s : String) : Spells room (writeText s.toList) (.text s) := by
  refine ⟨⟨_, _, rfl, by decide⟩, isPrinted_writeText _, fun stack rest _ _ => ?_⟩
  rw [writeText, List.cons_append, run_text (characters_quoted _ _), String.ofList_toList]

/-- What is read as a value of its own spells it, unless it starts with a mark. -/
theorem spells_atom (hprinted : ∀ c ∈ cs, IsPrinted c)
    (hhead : ∃ c rest, cs = c :: rest ∧ c ∉ marks)
    (h : ∀ rest, Ends rest → atom? (cs ++ rest) = some (.ok v, rest)) : Spells room cs v := by
  obtain ⟨c, more, rfl, hc⟩ := hhead
  refine ⟨⟨c, more, rfl, ?_⟩, hprinted, fun stack rest _ hrest => run_atom (h rest hrest) hc⟩
  simp only [marks, List.mem_cons, List.not_mem_nil, or_false, not_or] at hc
  simp [isGap, hc]

theorem spells_nothing : Spells room "null".toList .nothing :=
  spells_atom (isPrinted_of_all rfl) ⟨_, _, rfl, by decide⟩ fun rest _ => atom?_nothing rest

theorem spells_truth (b : Bool) :
    Spells room (if b then "true".toList else "false".toList) (.truth b) := by
  refine spells_atom ?_ ?_ fun rest _ => atom?_truth b rest
  · cases b <;> exact isPrinted_of_all rfl
  · cases b <;> exact ⟨_, _, rfl, by decide⟩

theorem spells_whole {n : Int} (hn : Literal.Short n) : Spells room (Digits.ofInt n) (.whole n) :=
  spells_atom (isPrinted_ofInt n) (exists_head_ofInt n) fun _ hrest => atom?_ofInt hn hrest

/-! ## Containers -/

section

variable {α : Type} {text : α → List Char} {value : α → Value} {level : Nat}

/-- The parts of a list are read one after another, each onto those before it. -/
theorem run_items {xs : List α} (hne : xs ≠ []) (h : ∀ x ∈ xs, Spells room (text x) (value x))
    (hroom : stack.length + 1 + room ≤ depthLimit) (done : List Value) (rest : List Char) :
    run .value (.list done :: stack)
        (separate (level + 1) (xs.map text) ++ (newline level ++ ']' :: rest)) =
      run (.after (.list (done.reverse ++ xs.map value))) stack rest := by
  induction xs generalizing done with
  | nil => exact absurd rfl hne
  | cons x xs ih =>
    obtain ⟨hx, hxs⟩ := List.forall_mem_cons.mp h
    have hread := hx.reads (.list done :: stack)
    -- a part ends at the comma before the next one, and the last of them at the new line
    by_cases hlast : xs = []
    · subst hlast
      rw [List.map_singleton, separate, hread _ hroom (ends_newline level _),
        run_listClose done (skip_newline level (']' :: rest))]
      simp
    · have hmore : xs.map text ≠ [] := mt List.map_eq_nil_iff.mp hlast
      have hstarts := (starts_separate (level + 1) hmore
        (List.forall_mem_map.mpr fun y hy => (hxs y hy).starts)).append
          (newline level ++ ']' :: rest)
      rw [List.map_cons, separate_cons _ hmore, List.append_assoc, List.cons_append,
        List.append_assoc, hread _ hroom (ends_comma _), run_listNext done rfl, skip_newline,
        hstarts.skip_eq, ih hlast hxs]
      simp

theorem spells_list {xs : List α} (level : Nat)
    (h : ∀ x ∈ xs, Spells room (text x) (value x)) :
    Spells (room + 1) (bracket '[' ']' level (xs.map text)) (.list (xs.map value)) := by
  have hends : IsPrinted '[' ∧ IsPrinted ']' := by decide
  have hprinted := isPrinted_bracket level hends
    (List.forall_mem_map.mpr fun x hx => (h x hx).printed)
  by_cases hne : xs = []
  · subst hne
    exact ⟨⟨_, _, rfl, by decide⟩, hprinted, fun stack rest hroom _ =>
      run_listEmpty (by omega) rfl⟩
  have hmore : xs.map text ≠ [] := mt List.map_eq_nil_iff.mp hne
  have hstarts := starts_separate (level + 1) hmore
    (List.forall_mem_map.mpr fun x hx => (h x hx).starts)
  rw [bracket_of_ne_nil hmore] at hprinted ⊢
  refine ⟨⟨_, _, rfl, by decide⟩, hprinted, fun stack rest hroom _ => ?_⟩
  have hbody := hstarts.append (newline level ++ ']' :: rest)
  rw [List.cons_append, List.append_assoc, List.append_assoc, List.append_assoc,
    List.singleton_append, run_listOpen (by omega) ((skip_newline _ _).trans hbody.skip_eq)
      hbody.head_ne.1, run_items hne h (by omega) [] rest]
  rfl

theorem put_of_notMem {done : List (String × Value)} (h : key ∉ done.map Prod.fst) (v : Value) :
    put key v done = done ++ [(key, v)] := by
  induction done with
  | nil => rfl
  | cons e done ih =>
    obtain ⟨k, w⟩ := e
    obtain ⟨hk, hdone⟩ := not_or.mp (mt List.mem_cons.mpr h)
    rw [put, if_neg (Ne.symm hk), ih hdone]
    rfl

def entryText (e : String × List Char) : List Char := writeText e.1.toList ++ ':' :: ' ' :: e.2

theorem starts_entryText (e : String × List Char) : Starts (entryText e) :=
  ⟨_, _, rfl, by decide⟩

theorem isPrinted_entryText {e : String × List Char} (h : ∀ c ∈ e.2, IsPrinted c) :
    ∀ c ∈ entryText e, IsPrinted c := by
  simp only [entryText, List.forall_mem_append, List.forall_mem_cons]
  exact ⟨isPrinted_writeText _, by decide, by decide, h⟩

theorem run_entry (h : Spells room cs v) (hroom : stack.length + 1 + room ≤ depthLimit)
    (hrest : Ends rest) (done : List (String × Value)) (key : String) :
    run (.key done) stack (entryText (key, cs) ++ rest) =
      run (.after v) (.map done key :: stack) rest := by
  have hskip : skip (' ' :: (cs ++ rest)) = cs ++ rest := (h.starts.append rest).skip_eq
  rw [entryText, writeText, List.cons_append, List.cons_append, List.append_assoc,
    run_key done (characters_quoted _ _) rfl, String.ofList_toList]
  show run .value (.map done key :: stack) (skip (' ' :: (cs ++ rest))) = _
  rw [hskip, h.reads (.map done key :: stack) rest hroom hrest]

/-- The entries of a map are read one after another, each onto those before it. -/
theorem run_entries {es : List (String × α)} (hne : es ≠ [])
    (h : ∀ e ∈ es, Spells room (text e.2) (value e.2))
    (hroom : stack.length + 1 + room ≤ depthLimit) (done : List (String × Value))
    (hkeys : (done.map Prod.fst ++ es.map Prod.fst).Nodup) (rest : List Char) :
    run (.key done) stack (separate (level + 1) (es.map fun e => entryText (e.1, text e.2)) ++
        (newline level ++ '\x7d' :: rest)) =
      run (.after (.map (done ++ es.map fun e => (e.1, value e.2)))) stack rest := by
  induction es generalizing done with
  | nil => exact absurd rfl hne
  | cons e es ih =>
    obtain ⟨key, x⟩ := e
    obtain ⟨hx, hes⟩ := List.forall_mem_cons.mp h
    have hnew : put key (value x) done = done ++ [(key, value x)] :=
      put_of_notMem (fun hmem => (List.nodup_append.mp hkeys).2.2 key hmem key
        List.mem_cons_self rfl) (value x)
    by_cases hlast : es = []
    · subst hlast
      rw [List.map_singleton, separate, run_entry hx hroom (ends_newline level _),
        run_mapClose done (skip_newline level ('\x7d' :: rest)), hnew]
      rfl
    · have hmore : es.map (fun e => entryText (e.1, text e.2)) ≠ [] :=
        mt List.map_eq_nil_iff.mp hlast
      have hstarts := (starts_separate (level + 1) hmore
        (List.forall_mem_map.mpr fun _ _ => starts_entryText _)).append
          (newline level ++ '\x7d' :: rest)
      have hkeys' : ((done ++ [(key, value x)]).map Prod.fst ++ es.map Prod.fst).Nodup := by
        simpa using hkeys
      rw [List.map_cons, separate_cons _ hmore, List.append_assoc, List.cons_append,
        List.append_assoc, run_entry hx hroom (ends_comma _), run_mapNext done rfl, skip_newline,
        hstarts.skip_eq, hnew, ih hlast hes _ hkeys']
      simp

theorem spells_map {es : List (String × α)} (level : Nat)
    (h : ∀ e ∈ es, Spells room (text e.2) (value e.2)) (hkeys : (es.map Prod.fst).Nodup) :
    Spells (room + 1)
      (bracket '\x7b' '\x7d' level (es.map fun e => entryText (e.1, text e.2)))
      (.map (es.map fun e => (e.1, value e.2))) := by
  have hends : IsPrinted '\x7b' ∧ IsPrinted '\x7d' := by decide
  have hprinted := isPrinted_bracket level hends
    (List.forall_mem_map.mpr fun e he => isPrinted_entryText (e := (e.1, _)) (h e he).printed)
  by_cases hne : es = []
  · subst hne
    exact ⟨⟨_, _, rfl, by decide⟩, hprinted, fun stack rest hroom _ =>
      run_mapEmpty (by omega) rfl⟩
  have hmore : es.map (fun e => entryText (e.1, text e.2)) ≠ [] := mt List.map_eq_nil_iff.mp hne
  have hstarts := starts_separate (level + 1) hmore
    (List.forall_mem_map.mpr fun _ _ => starts_entryText _)
  rw [bracket_of_ne_nil hmore] at hprinted ⊢
  refine ⟨⟨_, _, rfl, by decide⟩, hprinted, fun stack rest hroom _ => ?_⟩
  have hbody := hstarts.append (newline level ++ '\x7d' :: rest)
  rw [List.cons_append, List.append_assoc, List.append_assoc, List.append_assoc,
    List.singleton_append, run_mapOpen (by omega) ((skip_newline _ _).trans hbody.skip_eq)
      hbody.head_ne.2, run_entries hne h (by omega) [] hkeys rest]
  rfl

end

end

/-! ## Documents -/

/-- Entries in the order in which they are written. -/
def ordered {α : Type} (sorted : Bool) (es : List (String × α)) : List (String × α) :=
  if sorted then es.mergeSort fun a b => !decide (b.1 < a.1) else es

theorem ordered_map {α β : Type} (sorted : Bool) (f : α → β) (es : List (String × α)) :
    ordered sorted (es.map fun e => (e.1, f e.2)) =
      (ordered sorted es).map fun e => (e.1, f e.2) := by
  cases sorted with
  | false => rfl
  | true => exact (List.map_mergeSort (f := fun e : String × α => (e.1, f e.2))
      fun _ _ _ _ => rfl).symm

theorem ordered_perm {α : Type} (sorted : Bool) (es : List (String × α)) :
    (ordered sorted es).Perm es := by
  cases sorted with
  | false => exact .refl es
  | true => exact List.mergeSort_perm es _

end Json

namespace Value

mutual

/-- The value with the entries of its maps as they are in a document. -/
def arranged (sorted : Bool) : Value → Value
  | list vs => list (arrangedAll sorted vs)
  | map es => map (Json.ordered sorted (arrangedEntries sorted es))
  | v => v

def arrangedAll (sorted : Bool) : List Value → List Value
  | [] => []
  | v :: vs => v.arranged sorted :: arrangedAll sorted vs

def arrangedEntries (sorted : Bool) : List (String × Value) → List (String × Value)
  | [] => []
  | (k, v) :: es => (k, v.arranged sorted) :: arrangedEntries sorted es

end

theorem arrangedAll_eq_map (sorted : Bool) (vs : List Value) :
    arrangedAll sorted vs = vs.map (arranged sorted) := by
  induction vs with
  | nil => rfl
  | cons v vs ih => rw [arrangedAll, ih, List.map_cons]

theorem arrangedEntries_eq_map (sorted : Bool) (es : List (String × Value)) :
    arrangedEntries sorted es = es.map fun e => (e.1, e.2.arranged sorted) := by
  induction es with
  | nil => rfl
  | cons e es ih => rw [arrangedEntries, ih, List.map_cons]

/-- The value is read back from a document, with at most `room` containers open at once: its whole
numbers are not too long, and no map of it has a key twice. -/
inductive Kept : Nat → Value → Prop
  | nothing {room : Nat} : Kept room .nothing
  | truth {room : Nat} (b : Bool) : Kept room (.truth b)
  | whole {room : Nat} {n : Int} (short : Literal.Short n) : Kept room (.whole n)
  | text {room : Nat} (s : String) : Kept room (.text s)
  | list {room : Nat} {vs : List Value} (parts : ∀ v ∈ vs, Kept room v) :
      Kept (room + 1) (.list vs)
  | map {room : Nat} {es : List (String × Value)} (entries : ∀ e ∈ es, Kept room e.2)
      (keys : (es.map Prod.fst).Nodup) : Kept (room + 1) (.map es)

theorem Kept.isData {room : Nat} {v : Value} (h : v.Kept room) : v.IsData := by
  induction h with
  | nothing => exact .nothing
  | truth b => exact .truth b
  | whole => exact .whole _
  | text s => exact .text s
  | list _ ih => exact .list ih
  | map _ _ ih => exact .map ih

end Value

namespace Json

/-- What is written for data spells it, at any level. -/
theorem spells_written {room : Nat} {v : Value} (sorted : Bool) (h : v.Kept room) (level : Nat) :
    Spells room (written sorted level v) (v.arranged sorted) := by
  induction h generalizing level with
  | nothing => exact spells_nothing
  | truth b => exact spells_truth b
  | whole short => exact spells_whole short
  | text s => exact spells_text s
  | list parts ih =>
    rw [written_list fun v hv => (parts v hv).isData, Value.arranged, Value.arrangedAll_eq_map]
    exact spells_list level fun v hv => ih v hv (level + 1)
  | @map room es entries keys ih =>
    -- the entries are put in order after they are written, and those that are read are in this order
    have hperm := ordered_perm sorted es
    have hspells := spells_map level (fun e he => ih e (hperm.mem_iff.mp he) (level + 1))
      ((hperm.map Prod.fst).nodup_iff.mpr keys)
    rw [written_map fun e he => (entries e he).isData, Value.arranged,
      Value.arrangedEntries_eq_map, ordered_map sorted (Value.arranged sorted)]
    show Spells _ (bracket _ _ _ ((ordered sorted
      (es.map fun e => (e.1, written sorted (level + 1) e.2))).map entryText)) _
    rw [ordered_map sorted (written sorted (level + 1)), List.map_map]
    exact hspells

/-- Data is read back from the document that it is written in, which is printed in ASCII. -/
theorem read_document {v : Value} (h : v.Kept depthLimit) (sorted : Bool) :
    ∃ s, document sorted v = .ok s ∧ read s.toList = .ok (v.arranged sorted) ∧
      ∀ c ∈ s.toList, IsPrinted c := by
  have hspells := spells_written sorted h 0
  have hread := hspells.reads [] [] (by simp) (by simp [Ends])
  rw [List.append_nil] at hread
  have hmark : ∀ rest, written sorted 0 v ≠ '\uFEFF' :: rest := by
    intro rest heq
    have hmem : '\uFEFF' ∈ written sorted 0 v := heq ▸ List.mem_cons_self
    exact absurd (hspells.printed _ hmem) (by decide)
  refine ⟨String.ofList (written sorted 0 v), by rw [document, write_of_isData h.isData]; rfl, ?_⟩
  rw [String.toList_ofList]
  refine ⟨?_, hspells.printed⟩
  rw [read, hspells.starts.skip_eq, hread, run]
  · rfl
  · exact hmark

end Json

end Concentric
