/-! Cutting a text in two at the first place where a character stands. -/

namespace Concentric.Text

def cut? (mark : Char) : List Char → Option (List Char × List Char)
  | [] => none
  | c :: rest =>
    if c = mark then some ([], rest) else (cut? mark rest).map fun p => (c :: p.1, p.2)

theorem cut?_eq_some_iff {mark : Char} {cs a b : List Char} :
    cut? mark cs = some (a, b) ↔ cs = a ++ mark :: b ∧ mark ∉ a := by
  induction cs generalizing a with
  | nil => simp [cut?]
  | cons c rest ih =>
    by_cases hc : c = mark
    · subst hc
      cases a with
      | nil => simp [cut?, eq_comm]
      | cons x xs => simp [cut?]; grind
    · cases a with
      | nil => simp [cut?, hc]
      | cons x xs =>
        simp only [cut?, hc, if_false, Option.map_eq_some_iff, Prod.mk.injEq, List.cons.injEq,
          List.cons_append, List.mem_cons, not_or]
        constructor
        · rintro ⟨⟨p, q⟩, h, ⟨rfl, rfl⟩, rfl⟩
          obtain ⟨h1, h2⟩ := ih.1 h
          exact ⟨⟨rfl, h1⟩, fun e => hc e.symm, h2⟩
        · rintro ⟨⟨rfl, h1⟩, _, h2⟩
          exact ⟨(xs, b), ih.2 ⟨h1, h2⟩, ⟨rfl, rfl⟩, rfl⟩

/-- The parts between the marks: one more than there are marks. -/
def parts (mark : Char) : List Char → List (List Char)
  | [] => [[]]
  | c :: rest =>
    if c = mark then [] :: parts mark rest
    else match parts mark rest with
      | p :: ps => (c :: p) :: ps
      | [] => [[c]]

end Concentric.Text
