/-!
# Pieces of a list

Rows of a listing and records of a file hold a fixed number of bytes, the last one possibly fewer.
-/

namespace Asm65816

/-- A list cut into pieces of `size` items; the last piece takes what is left, and no piece is
empty. -/
def pieces {α : Type} (size : Nat) : List α → List (List α)
  | [] => []
  | first :: rest => (first :: rest.take (size - 1)) :: pieces size (rest.drop (size - 1))
termination_by items => items.length
decreasing_by simp only [List.length_drop, List.length_cons]; omega

/-- Nothing is lost or moved. -/
theorem flatten_pieces {α : Type} (size : Nat) (items : List α) :
    (pieces size items).flatten = items := by
  fun_induction pieces size items with
  | case1 => rfl
  | case2 first rest ih => simp [ih]

end Asm65816
