/-!
A trail names a place in a tree by child indexes, from the place up to the root. Its tails name the
places around it.
-/

namespace Mykt

abbrev Trail := List Nat

/-- A trail and its tails, the empty one last. -/
def Trail.upward : Trail → List Trail
  | [] => [[]]
  | i :: is => (i :: is) :: upward is

theorem Trail.length_upward (t : Trail) : (upward t).length = t.length + 1 := by
  induction t with
  | nil => rfl
  | cons i is ih => simp [upward, ih]

theorem Trail.getLast?_upward (t : Trail) : (upward t).getLast? = some [] := by
  induction t with
  | nil => rfl
  | cons i is ih => simp [upward, List.getLast?_cons, ih]

end Mykt
