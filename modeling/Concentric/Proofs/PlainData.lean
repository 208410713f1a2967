import Concentric.Json.Reader
import Concentric.Json.Writer
import Concentric.Proofs.Stream

/-! Plain data: what JSON documents are made of. Whatever is read from a document is such, and
whatever is such can be written as one. -/

namespace Concentric

/-- The value is made of what a JSON document has: no octets, positions or things. -/
inductive Value.IsData : Value → Prop
  | nothing : IsData .nothing
  | truth (b : Bool) : IsData (.truth b)
  | whole (n : Int) : IsData (.whole n)
  | real (x : Binary64) : IsData (.real x)
  | text (s : String) : IsData (.text s)
  | list {vs : List Value} (parts : ∀ v ∈ vs, v.IsData) : IsData (.list vs)
  | tuple {vs : List Value} (parts : ∀ v ∈ vs, v.IsData) : IsData (.tuple vs)
  | map {es : List (String × Value)} (entries : ∀ e ∈ es, e.2.IsData) : IsData (.map es)

namespace Value

theorem isData_ofNumeral (n : Numeral) : (ofNumeral n).IsData := by
  cases n with
  | whole n => exact .whole n
  | truth b => exact .truth b
  | real x => exact .real x

theorem plainAll_eq_map (vs : List Value) : plainAll vs = vs.map plain := by
  induction vs with
  | nil => rfl
  | cons v vs ih => rw [plainAll, ih, List.map_cons]

theorem plainEntries_eq_map (es : List (String × Value)) :
    plainEntries es = es.map fun e => (e.1, e.2.plain) := by
  induction es with
  | nil => rfl
  | cons e es ih => rw [plainEntries, ih, List.map_cons]

theorem IsData.plain {v : Value} (h : v.IsData) : v.plain.IsData := by
  induction h with
  | nothing => exact .nothing
  | truth b => exact .truth b
  | whole n => exact .whole n
  | real x => exact .real x
  | text s => exact .text s
  | list _ ih =>
    unfold Value.plain
    rw [plainAll_eq_map]
    exact .list (List.forall_mem_map.mpr ih)
  | tuple _ ih =>
    unfold Value.plain
    rw [plainAll_eq_map]
    exact .tuple (List.forall_mem_map.mpr ih)
  | map _ ih =>
    unfold Value.plain
    rw [plainEntries_eq_map]
    exact .map (List.forall_mem_map.mpr ih)

end Value

namespace Json

/-! ## Writing -/

section

variable {sorted : Bool} {level : Nat} {v : Value}

/-- What is written for a value at a level, if it can be written. -/
def written (sorted : Bool) (level : Nat) (v : Value) : List Char :=
  (write sorted level v).toOption.getD []

theorem write_eq_written {cs : List Char} (h : write sorted level v = .ok cs) :
    write sorted level v = .ok (written sorted level v) := by
  rw [written, h]
  rfl

theorem writeAll_eq_written {vs : List Value}
    (h : ∀ v ∈ vs, write sorted level v = .ok (written sorted level v)) :
    writeAll sorted level vs = .ok (vs.map (written sorted level)) := by
  induction vs with
  | nil => rfl
  | cons v vs ih =>
    obtain ⟨hv, hvs⟩ := List.forall_mem_cons.mp h
    rw [writeAll, hv, ih hvs]
    rfl

theorem writeEntries_eq_written {es : List (String × Value)}
    (h : ∀ e ∈ es, write sorted level e.2 = .ok (written sorted level e.2)) :
    writeEntries sorted level es = .ok (es.map fun e => (e.1, written sorted level e.2)) := by
  induction es with
  | nil => rfl
  | cons e es ih =>
    obtain ⟨key, v⟩ := e
    obtain ⟨hv, hes⟩ := List.forall_mem_cons.mp h
    rw [writeEntries, hv, ih hes]
    rfl

theorem write_of_isData (h : v.IsData) (level : Nat) :
    write sorted level v = .ok (written sorted level v) := by
  induction h generalizing level with
  | nothing | truth | whole | real | text => rfl
  | list _ ih | tuple _ ih =>
    have hparts := writeAll_eq_written fun v hv => ih v hv (level + 1)
    exact write_eq_written (by rw [write, hparts]; rfl)
  | map _ ih =>
    have hparts := writeEntries_eq_written fun e he => ih e he (level + 1)
    exact write_eq_written (by rw [write, hparts]; rfl)

theorem written_list {vs : List Value} (h : ∀ v ∈ vs, v.IsData) :
    written sorted level (.list vs) =
      bracket '[' ']' level (vs.map (written sorted (level + 1))) := by
  rw [written, write, writeAll_eq_written fun v hv => write_of_isData (h v hv) (level + 1)]
  rfl

theorem written_map {es : List (String × Value)} (h : ∀ e ∈ es, e.2.IsData) :
    written sorted level (.map es) = bracket '\x7b' '\x7d' level
      ((if sorted then sortEntries (es.map fun e => (e.1, written sorted (level + 1) e.2))
        else es.map fun e => (e.1, written sorted (level + 1) e.2)).map fun p =>
          writeText p.1.toList ++ ':' :: ' ' :: p.2) := by
  rw [written, write, writeEntries_eq_written fun e he => write_of_isData (h e he) (level + 1)]
  rfl

/-- Data can be written as a document. -/
theorem document_of_isData (sorted : Bool) (h : v.IsData) : ∃ s, document sorted v = .ok s :=
  ⟨String.ofList (written sorted 0 v), by rw [document, write_of_isData h]; rfl⟩

end

/-! ## Reading -/

/-- What an open container holds so far is data. -/
def Frame.IsData : Frame → Prop
  | list done => ∀ v ∈ done, v.IsData
  | map done _ => ∀ e ∈ done, e.2.IsData

/-- What a mode goes on with is data. -/
def Mode.IsData : Mode → Prop
  | value => True
  | key done => ∀ e ∈ done, e.2.IsData
  | after v => v.IsData

theorem isData_put {key : String} {v : Value} {es : List (String × Value)} (hv : v.IsData)
    (hes : ∀ e ∈ es, e.2.IsData) : ∀ e ∈ put key v es, e.2.IsData := by
  induction es with
  | nil => exact List.forall_mem_singleton.mpr hv
  | cons e es ih =>
    obtain ⟨he, hes⟩ := List.forall_mem_cons.mp hes
    unfold put
    split
    · exact List.forall_mem_cons.mpr ⟨hv, hes⟩
    · exact List.forall_mem_cons.mpr ⟨he, ih hes⟩

theorem isData_of_magnitude? {negative : Bool} {cs rest : List Char} {v : Value}
    (h : magnitude? negative cs = some (.ok v, rest)) : v.IsData := by
  simp only [magnitude?, Option.map_eq_some_iff] at h
  obtain ⟨⟨whole, r⟩, -, h⟩ := h
  dsimp only at h
  split at h
  · split at h
    · cases (Prod.mk.inj h).1
    · exact Except.ok.inj (Prod.mk.inj h).1 ▸ .whole _
  · exact Except.ok.inj (Prod.mk.inj h).1 ▸ .real _
  · exact Except.ok.inj (Prod.mk.inj h).1 ▸ .real _

theorem isData_of_atom? {cs rest : List Char} {v : Value} (h : atom? cs = some (.ok v, rest)) :
    v.IsData := by
  unfold atom? at h
  split at h
  · next n hn =>
    obtain ⟨rfl, -⟩ : n.2 = v ∧ _ := by simpa using h
    have hnames : ∀ n ∈ names, n.2.IsData := by
      intro n hn
      simp only [names, List.mem_cons, List.not_mem_nil, or_false] at hn
      rcases hn with rfl | rfl | rfl | rfl | rfl | rfl <;> constructor
    exact hnames n (List.mem_of_find?_eq_some hn)
  · unfold number? at h
    split at h <;> exact isData_of_magnitude? h

theorem isData_of_run {mode : Mode} {stack : List Frame} {cs : List Char} {v : Value}
    (hmode : mode.IsData) (hstack : ∀ f ∈ stack, f.IsData) (h : run mode stack cs = .ok v) :
    v.IsData := by
  have hnone : ∀ e ∈ ([] : List (String × Value)), e.2.IsData := fun _ he => by cases he
  -- a fault has no value, an atom is data, and a container takes in what is data
  fun_induction run mode stack cs with
  | case1 | case3 | case6 | case9 | case10 | case12 | case14 | case15 | case17 | case20 | case23 =>
    cases h
  | case2 _ _ _ _ _ ih => exact ih (.text _) hstack h
  | case4 _ _ _ _ _ _ ih => exact ih (.list fun _ hv => by cases hv) hstack h
  | case5 _ _ _ _ _ ih =>
    have hopen : (Frame.list []).IsData := fun _ hv => by cases hv
    exact ih True.intro (List.forall_mem_cons.mpr ⟨hopen, hstack⟩) h
  | case7 _ _ _ _ _ _ ih => exact ih (.map hnone) hstack h
  | case8 _ _ _ _ _ ih => exact ih hnone hstack h
  | case11 _ _ _ _ _ _ _ hatom _ ih => exact ih (isData_of_atom? hatom) hstack h
  | case13 _ _ _ _ _ _ _ _ _ ih =>
    exact ih True.intro (List.forall_mem_cons.mpr ⟨hmode, hstack⟩) h
  | case16 => exact Except.ok.inj h ▸ hmode
  | case18 _ item done _ _ _ _ ih =>
    obtain ⟨hdone, hstack⟩ := List.forall_mem_cons.mp hstack
    have hall : ∀ w ∈ item :: done, w.IsData := List.forall_mem_cons.mpr ⟨hmode, hdone⟩
    exact ih (.list fun w hw => hall w (List.mem_reverse.mp hw)) hstack h
  | case19 _ item done _ _ _ _ ih =>
    obtain ⟨hdone, hstack⟩ := List.forall_mem_cons.mp hstack
    have hopen : (Frame.list (item :: done)).IsData := List.forall_mem_cons.mpr ⟨hmode, hdone⟩
    exact ih True.intro (List.forall_mem_cons.mpr ⟨hopen, hstack⟩) h
  | case21 _ _ _ _ _ _ _ _ ih =>
    obtain ⟨hdone, hstack⟩ := List.forall_mem_cons.mp hstack
    exact ih (.map (isData_put hmode hdone)) hstack h
  | case22 _ _ _ _ _ _ _ _ ih =>
    obtain ⟨hdone, hstack⟩ := List.forall_mem_cons.mp hstack
    exact ih (isData_put hmode hdone) hstack h

/-- What is read from a document is data. -/
theorem isData_of_read {cs : List Char} {v : Value} (h : read cs = .ok v) : v.IsData := by
  unfold read at h
  split at h
  · cases h
  · have hvalue : Mode.value.IsData := True.intro
    exact isData_of_run hvalue (fun f hf => absurd hf List.not_mem_nil) h

end Json

end Concentric
