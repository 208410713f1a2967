import Concentric.Proofs.CacheTransparency
import Mathlib.Data.List.Dedup
import Mathlib.Data.List.DropRight

/-! A cache holds the signatures that were parsed last, as many as it has room for, in the order of
their last parse. A hit moves an entry to the end, a miss puts one there and drops entries from the
front: both are one step of `Cache.recent`. A parse is thus answered from the cache if and only if
its signature is a recent one. -/

namespace Concentric

theorem Numeral.place_of_whole? {a : Numeral} {n : Int} (h : a.whole? = some n) :
    a.place = (Numeral.whole n).place := by
  cases a with
  | whole m => exact congrArg (fun k => (Numeral.whole k).place) (Option.some.inj h)
  | truth b => exact congrArg (fun k => (Numeral.whole k).place) (Option.some.inj h)
  | real x => cases h

theorem Numeral.lt_congr {a b : Numeral} (h : a.place = b.place) (c : Numeral) :
    a.lt c = b.lt c := by
  rw [lt, lt, h]

theorem Numeral.le_congr {a b : Numeral} (h : a.place = b.place) (c : Numeral) :
    a.le c = b.le c := by
  rw [le, le, lt_congr h, eq, eq, h]

namespace Cache

variable {α : Type} {a : α} {c : Cache α} {n : Nat} {key : String} {used : List String}

/-! ## Keys in the order of their last use -/

/-- The last `n` distinct keys, in the order of their last occurrence. -/
def recent (n : Nat) (used : List String) : List String := used.dedup.rtake n

theorem dedup_concat (used : List String) (key : String) :
    (used ++ [key]).dedup = (used.dedup.filter fun k => k != key) ++ [key] := by
  induction used with
  | nil => rfl
  | cons k used ih =>
    by_cases hmem : k ∈ used
    · rw [List.cons_append, List.dedup_cons_of_mem (List.mem_append_left _ hmem), ih,
        List.dedup_cons_of_mem hmem]
    · rw [List.dedup_cons_of_notMem hmem, List.cons_append]
      by_cases heq : k = key
      · rw [List.dedup_cons_of_mem (by simp [heq]), ih, List.filter_cons_of_neg (by simp [heq])]
      · rw [List.dedup_cons_of_notMem (by simp [heq, hmem]), ih,
          List.filter_cons_of_pos (by simp [heq]), List.cons_append]

theorem rtake_suffix (n : Nat) (used : List String) : used.rtake n <:+ used :=
  List.drop_suffix _ _

theorem length_rtake (n : Nat) (used : List String) :
    (used.rtake n).length = min n used.length := by
  rw [List.rtake, List.length_drop]
  omega

theorem rtake_eq_of_suffix {later : List String} (hsuffix : later <:+ used)
    (hlength : later.length = min n used.length) : used.rtake n = later := by
  rw [List.suffix_iff_eq_drop.mp hsuffix, List.rtake, hlength]
  congr 1
  omega

/-- The last items of a list are those of any end of it that has as many. -/
theorem rtake_of_suffix {later : List String} (hsuffix : later <:+ used)
    (hlength : min n used.length ≤ later.length) : later.rtake n = used.rtake n := by
  refine (rtake_eq_of_suffix ((rtake_suffix n later).trans hsuffix) ?_).symm
  have hle := hsuffix.length_le
  rw [length_rtake]
  omega

theorem nodup_recent (n : Nat) (used : List String) : (recent n used).Nodup :=
  (List.nodup_dedup used).sublist (rtake_suffix n _).sublist

theorem length_recent (n : Nat) (used : List String) :
    (recent n used).length = min n used.dedup.length :=
  length_rtake n _

/-- At most one key of a list without repetitions is lost. -/
theorem length_filter_ne (hnodup : used.Nodup) (key : String) :
    used.length ≤ (used.filter fun k => k != key).length + 1 := by
  rw [← hnodup.erase_eq_filter, List.length_erase]
  split <;> omega

/-- Recent keys are found from recent keys: what is forgotten is not asked for again. -/
theorem recent_concat (n : Nat) (used : List String) (key : String) :
    recent n (used ++ [key]) =
      (((recent n used).filter fun k => k != key) ++ [key]).rtake n := by
  have hsuffix : ((recent n used).filter fun k => k != key) ++ [key] <:+
      (used.dedup.filter fun k => k != key) ++ [key] :=
    List.suffix_append_self_iff.mpr ((rtake_suffix n used.dedup).filter _)
  have hlost := length_filter_ne (nodup_recent n used) key
  have hlength := length_recent n used
  rw [recent, dedup_concat]
  refine (rtake_of_suffix hsuffix ?_).symm
  rw [List.length_append, List.length_append, List.length_singleton]
  -- either nothing has been forgotten yet, or there are `n` recent keys
  by_cases hn : n ≤ used.dedup.length
  · omega
  · have hall : recent n used = used.dedup := rtake_eq_of_suffix (List.suffix_refl _) (by omega)
    rw [hall]
    omega

/-- A key is recent if fewer than `n` distinct keys have come since its last turn. -/
theorem mem_recent_iff {before later : List String} (hlast : key ∉ later) :
    key ∈ recent n (before ++ key :: later) ↔ later.dedup.length < n := by
  have hsuffix : key :: later.dedup <:+ (before ++ key :: later).dedup := by
    rw [List.dedup_append, List.dedup_cons_of_notMem hlast]
    exact List.suffix_union_right before _
  have hrecent := rtake_suffix n (before ++ key :: later).dedup
  have hlength := length_recent n (before ++ key :: later)
  have hle := hsuffix.length_le
  rw [List.length_cons] at hle
  constructor
  · intro hmem
    by_contra hmany
    have hshort : (recent n (before ++ key :: later)).length ≤ later.dedup.length := by omega
    have hlater : recent n (before ++ key :: later) <:+ later.dedup :=
      List.suffix_of_suffix_length_le hrecent ((List.suffix_cons key _).trans hsuffix) hshort
    exact hlast (List.mem_dedup.mp (hlater.subset hmem))
  · intro hfew
    have hlong : (key :: later.dedup).length ≤ (recent n (before ++ key :: later)).length := by
      rw [List.length_cons]
      omega
    exact (List.suffix_of_suffix_length_le hsuffix hrecent hlong).subset List.mem_cons_self

/-! ## The keys that are kept -/

theorem trim_congr {m limit : Numeral} (h : m.place = limit.place) (c : Cache α) :
    trim m c = trim limit c := by
  induction c with
  | nil => rfl
  | cons e es ih => rw [trim, trim, Numeral.lt_congr h, ih]

theorem remember_congr {m limit : Numeral} (h : m.place = limit.place) (c : Cache α)
    (key : String) (a : α) : c.remember m key a = c.remember limit key a := by
  rw [remember, remember, Numeral.le_congr h, trim_congr h]

theorem keys_trim (n : Nat) (c : Cache α) : (trim (.whole n) c).keys = c.keys.rtake n := by
  refine (rtake_eq_of_suffix ((trim_suffix (.whole n) c).map _) ?_).symm
  rw [List.length_map, List.length_map, length_trim]

/-- What is asked for again is put at the end. -/
theorem keys_use_recent (hkeys : c.keys = recent n used) (hmem : key ∈ c.keys) (a : α) :
    (c.use key a).keys = recent n (used ++ [key]) := by
  rw [keys_use, recent_concat, ← hkeys]
  refine (rtake_eq_of_suffix (List.suffix_refl _) ?_).symm
  have hroom := length_recent n used
  have herased : (c.keys.filter fun k => k != key).length = c.keys.length - 1 := by
    rw [hkeys, ← (nodup_recent n used).erase_eq_filter, List.length_erase_of_mem (hkeys ▸ hmem)]
  have hpos := List.length_pos_of_mem hmem
  rw [← hkeys] at hroom
  rw [List.length_append, List.length_singleton]
  omega

/-- What is new is put at the end, if there is room for anything. -/
theorem keys_remember_recent {limit : Numeral} (hlimit : limit.whole? = some (n : Int))
    (hkeys : c.keys = recent n used) (key : String) (a : α) :
    (c.remember limit key a).keys = recent n (used ++ [key]) := by
  rw [remember_congr (Numeral.place_of_whole? hlimit), remember]
  by_cases hzero : n = 0
  · subst hzero
    rw [if_pos (by simp), hkeys, recent, recent, List.rtake_zero, List.rtake_zero]
  · rw [if_neg (by simp [hzero]), keys_trim, keys_use, hkeys, recent_concat]

end Cache

namespace Tokenizer

variable {parser : BlockParser} {t : Tokenizer} {s : Settings} {d : Document} {n : Nat}
  {ds : List Document} {used : List String} {past : List (String × TokenStream)}

/-! ## Recent signatures -/

theorem keys_parse (hsize : t.settings.tokenCacheSize.whole? = some (n : Int))
    (hkeys : t.cache.keys = Cache.recent n used) (d : Document) :
    (t.parse parser d).tokenizer.cache.keys = Cache.recent n (used ++ [d.signature]) := by
  cases hfind : t.cache.find? d.signature with
  | none =>
    rw [parse_of_missed hfind]
    exact Cache.keys_remember_recent hsize hkeys _ _
  | some stream =>
    rw [parse_of_kept hfind]
    exact Cache.keys_use_recent hkeys (List.mem_map_of_mem (Cache.mem_of_find? hfind)) stream

theorem keys_after (hsize : t.settings.tokenCacheSize.whole? = some (n : Int))
    (hkeys : t.cache.keys = Cache.recent n used) (ds : List Document) :
    (t.after parser ds).cache.keys = Cache.recent n (used ++ ds.map Document.signature) := by
  induction ds generalizing t used with
  | nil => rwa [List.map_nil, List.append_nil]
  | cons d ds ih =>
    rw [List.map_cons, List.append_cons]
    refine ih ?_ (keys_parse hsize hkeys d)
    rwa [settings_parse]

theorem keys_after_fresh (parser : BlockParser) (hsize : s.tokenCacheSize.whole? = some (n : Int))
    (ds : List Document) :
    ((fresh s).after parser ds).cache.keys = Cache.recent n (ds.map Document.signature) := by
  have hempty : (fresh s).cache.keys = Cache.recent n [] := by
    rw [Cache.recent, List.dedup_nil, List.rtake_nil]
    rfl
  exact keys_after hsize hempty ds

/-- A stream is kept until as many distinct signatures have come as there is room for. -/
theorem kept_iff (parser : BlockParser) (hsize : s.tokenCacheSize.whole? = some (n : Int))
    {before later : List Document} (hlast : ∀ e ∈ later, e.signature ≠ d.signature) :
    d.signature ∈ ((fresh s).after parser (before ++ d :: later)).cache.keys ↔
      (later.map Document.signature).dedup.length < n := by
  rw [keys_after_fresh parser hsize, List.map_append, List.map_cons]
  refine Cache.mem_recent_iff fun hmem => ?_
  obtain ⟨e, he, heq⟩ := List.mem_map.mp hmem
  exact hlast e he heq

/-! ## Streams given before -/

/-- The streams that a tokenizer gives for documents one after another, under their signatures. -/
def given (parser : BlockParser) (t : Tokenizer) : List Document → List (String × TokenStream)
  | [] => []
  | d :: ds =>
    (d.signature, (t.parse parser d).stream) :: given parser (t.parse parser d).tokenizer ds

/-- What is kept has been given before, and a stream that is yet to be made is none of those. -/
structure Remembers (t : Tokenizer) (past : List (String × TokenStream)) : Prop where
  kept : ∀ e ∈ t.cache, e ∈ past
  numbered : ∀ e ∈ past, e.2.number < t.parses

theorem Remembers.fresh (s : Settings) : Remembers (fresh s) [] := by
  constructor <;> simp [Tokenizer.fresh]

theorem Remembers.parse (h : Remembers t past) (d : Document) :
    Remembers (t.parse parser d).tokenizer
      (past ++ [(d.signature, (t.parse parser d).stream)]) := by
  cases hfind : t.cache.find? d.signature with
  | none =>
    rw [parse_of_missed hfind]
    refine ⟨fun e he => ?_, fun e he => ?_⟩
    · rcases Cache.mem_remember he with rfl | hold
      · exact List.mem_append_right _ List.mem_cons_self
      · exact List.mem_append_left _ (h.kept e hold)
    · rcases List.mem_append.mp he with hold | hnew
      · exact Nat.lt_succ_of_lt (h.numbered e hold)
      · rw [List.mem_singleton.mp hnew]
        exact Nat.lt_succ_self _
  | some stream =>
    rw [parse_of_kept hfind]
    have hmem := h.kept _ (Cache.mem_of_find? hfind)
    refine ⟨fun e he => ?_, fun e he => ?_⟩
    · rcases Cache.mem_use he with rfl | hold
      · exact List.mem_append_left _ hmem
      · exact List.mem_append_left _ (h.kept e hold)
    · rcases List.mem_append.mp he with hold | hnew
      · exact h.numbered e hold
      · rw [List.mem_singleton.mp hnew]
        exact h.numbered _ hmem

theorem Remembers.after (h : Remembers t past) (ds : List Document) :
    Remembers (t.after parser ds) (past ++ given parser t ds) := by
  induction ds generalizing t past with
  | nil => rwa [given, List.append_nil]
  | cons d ds ih =>
    rw [given, List.append_cons]
    exact ih (h.parse d)

/-- A stream has been given before if it is kept, and is a new one otherwise. -/
theorem Remembers.stream_mem_iff (h : Remembers t past) (d : Document) :
    (d.signature, (t.parse parser d).stream) ∈ past ↔ d.signature ∈ t.cache.keys := by
  cases hfind : t.cache.find? d.signature with
  | none =>
    rw [parse_of_missed hfind]
    refine iff_of_false (fun hmem => ?_) (Cache.find?_eq_none_iff.mp hfind)
    exact Nat.lt_irrefl _ (h.numbered _ hmem)
  | some stream =>
    rw [parse_of_kept hfind]
    have hmem := Cache.mem_of_find? hfind
    exact iff_of_true (h.kept _ hmem) (List.mem_map_of_mem hmem)

theorem calls_parse_eq_nil_iff : (t.parse parser d).calls = [] ↔ d.signature ∈ t.cache.keys := by
  rw [calls_parse]
  split <;> simp [*]

/-! ## Runs -/

/-- With room for `n` streams, those of the last `n` distinct signatures are kept after each parse,
in the order of their last parse. A parse asks nothing of the parser, and gives a stream that was
given before, exactly if its signature is among the last `n` distinct ones before it. -/
theorem parseAll_recent (parser : BlockParser) {s : Settings} {n : Nat} {ds : List Document}
    {i : Nat} {d : Document} (hsize : s.tokenCacheSize.whole? = some (n : Int))
    (hd : ds[i]? = some d) :
    ∃ p, ((fresh s).parseAll parser ds)[i]? = some p ∧
      p.tokenizer.cache.keys = Cache.recent n ((ds.take (i + 1)).map Document.signature) ∧
      (p.calls = [] ↔ d.signature ∈ Cache.recent n ((ds.take i).map Document.signature)) ∧
      ((d.signature, p.stream) ∈ given parser (fresh s) (ds.take i) ↔
        d.signature ∈ Cache.recent n ((ds.take i).map Document.signature)) := by
  have hkeys := keys_after_fresh parser hsize (ds.take i)
  have hpast : Remembers ((fresh s).after parser (ds.take i)) (given parser (fresh s) (ds.take i)) :=
    (Remembers.fresh s).after (ds.take i)
  have hlater : ((fresh s).after parser (ds.take i)).settings.tokenCacheSize.whole? =
      some (n : Int) := by
    rwa [settings_after]
  refine ⟨((fresh s).after parser (ds.take i)).parse parser d, ?_, ?_, ?_, ?_⟩
  · rw [getElem?_parseAll, hd, Option.map_some]
  · rw [keys_parse hlater hkeys, List.take_add_one, hd, Option.toList_some, List.map_append,
      List.map_singleton]
  · rw [calls_parse_eq_nil_iff, hkeys]
  · rw [hpast.stream_mem_iff, hkeys]

/-- Documents by turns, under hashes of their own. -/
def turns : List Document :=
  ["a", "b", "a", "c", "b"].map fun text => .ofText text "u" "markdown" (.whole 1) text

/-- Settings under which two streams are kept. -/
def twoRooms : Settings := { tokenCacheSize := .whole 2 }

/-- The third document is kept from its first turn, though it has no tokens. Its second turn puts it
behind the second document, for which there is thus no room when the fourth one comes. -/
theorem turns_recent : twoRooms.tokenCacheSize.whole? = some 2 ∧
    (∃ p, ((fresh twoRooms).parseAll (fun _ _ => []) turns)[2]? = some p ∧
      p.tokenizer.cache.keys = ["u:1:b", "u:1:a"] ∧ p.calls = []) ∧
    ∃ p, ((fresh twoRooms).parseAll (fun _ _ => []) turns)[4]? = some p ∧
      p.tokenizer.cache.keys = ["u:1:c", "u:1:b"] ∧ p.calls ≠ [] := by
  have hsignatures : turns.map Document.signature =
      ["u:1:a", "u:1:b", "u:1:a", "u:1:c", "u:1:b"] := by decide +kernel
  have hthird : turns[2]? = some (.ofText "a" "u" "markdown" (.whole 1) "a") := rfl
  have hfifth : turns[4]? = some (.ofText "b" "u" "markdown" (.whole 1) "b") := rfl
  refine ⟨rfl, ?_, ?_⟩
  · obtain ⟨p, hp, hkeys, hcalls, -⟩ :=
      parseAll_recent (fun _ _ => []) (s := twoRooms) (n := 2) rfl hthird
    rw [List.map_take, hsignatures] at hkeys hcalls
    refine ⟨p, hp, hkeys.trans (by decide +kernel), hcalls.mpr ?_⟩
    decide +kernel
  · obtain ⟨p, hp, hkeys, hcalls, -⟩ :=
      parseAll_recent (fun _ _ => []) (s := twoRooms) (n := 2) rfl hfifth
    rw [List.map_take, hsignatures] at hkeys hcalls
    refine ⟨p, hp, hkeys.trans (by decide +kernel), fun hnil => absurd (hcalls.mp hnil) ?_⟩
    decide +kernel

end Tokenizer

end Concentric
