import Concentric.Number.Numeral

/-! A cache that keeps what was used last. Its entries stand in the order of their last use, the
oldest first, and each key has one entry at most. -/

namespace Concentric

/-- Entries in the order of their last use, the oldest first. -/
abbrev Cache (α : Type) := List (String × α)

namespace Cache

variable {α : Type}

def keys (c : Cache α) : List String := c.map (·.1)

def find? (c : Cache α) (key : String) : Option α := c.lookup key

def use (c : Cache α) (key : String) (a : α) : Cache α :=
  (c.filter fun e => e.1 != key) ++ [(key, a)]

def trim (limit : Numeral) : Cache α → Cache α
  | [] => []
  | e :: es =>
    if limit.lt (.whole (e :: es).length) then trim limit es else e :: es

/-- Adds an entry. A cache with no room for any stays as it is. -/
def remember (limit : Numeral) (c : Cache α) (key : String) (a : α) : Cache α :=
  if limit.le (.whole 0) then c else trim limit (c.use key a)

theorem keys_use (c : Cache α) (key : String) (a : α) :
    keys (c.use key a) = (c.keys.filter fun k => k != key) ++ [key] := by
  simp [keys, use, List.filter_map, Function.comp_def]

theorem trim_suffix (limit : Numeral) (c : Cache α) : trim limit c <:+ c := by
  induction c with
  | nil => exact List.suffix_refl _
  | cons e es ih =>
    unfold trim
    split
    · exact ih.trans (List.suffix_cons e es)
    · exact List.suffix_refl _

theorem length_trim (n : Nat) (c : Cache α) :
    (trim (.whole n) c).length = min n c.length := by
  induction c with
  | nil => simp [trim]
  | cons e es ih =>
    unfold trim
    split
    · next h =>
      simp only [Numeral.lt_whole, decide_eq_true_eq, List.length_cons] at h
      rw [ih, List.length_cons]
      omega
    · next h =>
      simp only [Numeral.lt_whole, decide_eq_true_eq, List.length_cons, Int.not_lt] at h
      rw [List.length_cons]
      omega

end Cache

end Concentric
