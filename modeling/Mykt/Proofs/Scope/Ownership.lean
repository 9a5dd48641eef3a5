import Mykt.Declaration
import Mykt.Proofs.Tree.Places

/-!
Who owns a declaration, told from the tree alone: the nearest routine above it, or the file. A name
means the last declaration of its name in the innermost routine around it that owns one, or else in
the file. Main statements: what a routine owns is found below it without entering inner routines,
and so is what the file owns.
-/

namespace Mykt.Tree

def isRoutine (t : Tree) : Bool := t.kind = .rule .functionDeclaration

def isRoutineAt (t : Tree) (trail : Trail) : Bool := (t.at? trail).any isRoutine

/-- The routines that hold a place, the innermost first. -/
def routinesAround (t : Tree) (trail : Trail) : List Trail :=
  (Trail.upward trail).filter t.isRoutineAt

/-- The nearest routine strictly above a place; none stands for the file. -/
def owner (t : Tree) : Trail → Option Trail
  | [] => none
  | _ :: above => (t.routinesAround above).head?

/-- The declarations of a tree in document order. -/
def declarations (t : Tree) : List (Trail × Tree) :=
  (t.places []).filter fun x => (Fold.declares x.2.kind).isSome

def owned (t : Tree) (routine : Option Trail) : List (Trail × Tree) :=
  t.declarations.filter fun x => t.owner x.1 = routine

def declaredName (t : Tree) : Option String := (t.child? (.rule .simpleIdentifier)).map text

/-- The last declaration of a name that a routine or the file owns. -/
def lastOwned (t : Tree) (name : String) (routine : Option Trail) : Option (Trail × Tree) :=
  ((t.owned routine).filter fun x => x.2.declaredName = some name).getLast?

/-- The declaration that a name at a place means. -/
def meaning (t : Tree) (trail : Trail) (name : String) : Option (Trail × Tree) :=
  ((t.routinesAround trail).map some ++ [none]).findSome? (t.lastOwned name)

section

variable {t u : Tree} {trail above place routine : Trail}

theorem declaredName_of_lastOwned {name : String} {routine : Option Trail} {d : Trail × Tree}
    (h : t.lastOwned name routine = some d) : d.2.declaredName = some name := by
  have hm := List.mem_filter.1 (List.mem_of_getLast? h)
  exact of_decide_eq_true hm.2

theorem declaredName_of_meaning {name : String} {d : Trail × Tree}
    (h : t.meaning trail name = some d) : d.2.declaredName = some name := by
  obtain ⟨routine, -, hr⟩ := List.exists_of_findSome?_eq_some h
  exact declaredName_of_lastOwned hr

theorem isRoutineAt_of_at? (h : t.at? trail = some u) : t.isRoutineAt trail = u.isRoutine := by
  simp [isRoutineAt, h]

theorem routinesAround_cons (t : Tree) (i : Nat) (above : Trail) :
    t.routinesAround (i :: above) =
      if t.isRoutineAt (i :: above) then (i :: above) :: t.routinesAround above
      else t.routinesAround above := by
  simp [routinesAround, Trail.upward, List.filter_cons]

theorem head?_routinesAround (h : t.isRoutineAt trail = true) :
    (t.routinesAround trail).head? = some trail := by
  cases trail <;> simp [routinesAround, Trail.upward, h]

theorem routinesAround_nil (h : t.isRoutine = false) : t.routinesAround [] = [] := by
  simp [routinesAround, Trail.upward, isRoutineAt, h]

theorem isSuffix_of_mem_upward (h : place ∈ Trail.upward trail) : place <:+ trail := by
  induction trail with
  | nil => simpa [Trail.upward] using h
  | cons i is ih =>
    rcases List.mem_cons.1 h with rfl | h
    · exact List.suffix_refl _
    · exact (ih h).trans (List.suffix_cons i is)

/-- An owner is strictly above what it owns. -/
theorem exists_of_owner_eq (h : t.owner trail = some routine) :
    ∃ down i, trail = down ++ i :: routine := by
  cases trail with
  | nil => simp [owner] at h
  | cons i above =>
    have hm : routine ∈ Trail.upward above :=
      List.mem_of_mem_filter (List.mem_of_head? h)
    obtain ⟨down, rfl⟩ := isSuffix_of_mem_upward hm
    -- the index just above the routine is the last of `i :: down`
    have hne : i :: down ≠ [] := by simp
    refine ⟨(i :: down).dropLast, (i :: down).getLast hne, ?_⟩
    rw [List.append_cons, List.dropLast_concat_getLast, List.cons_append]

theorem length_lt_of_owner_eq (h : t.owner trail = some routine) :
    routine.length < trail.length := by
  obtain ⟨down, i, rfl⟩ := exists_of_owner_eq h
  simp only [List.length_append, List.length_cons]
  omega

/-- Below a routine, owners are that routine or routines in it. -/
theorem exists_owner_of_below (h : t.isRoutineAt trail = true) (down : List Nat) (i : Nat) :
    ∃ routine, t.owner (down ++ i :: trail) = some routine ∧ trail.length ≤ routine.length := by
  have around : ∀ xs : List Nat, ∃ routine, (t.routinesAround (xs ++ trail)).head? = some routine ∧
      trail.length ≤ routine.length := by
    intro xs
    induction xs with
    | nil =>
      refine ⟨trail, ?_, Nat.le_refl _⟩
      cases trail with
      | nil => simp_all [routinesAround, Trail.upward]
      | cons j js => simp [routinesAround_cons, h]
    | cons x xs ih =>
      rw [List.cons_append, routinesAround_cons]
      split
      · exact ⟨_, rfl, by simp only [List.length_cons, List.length_append]; omega⟩
      · exact ih
  cases down with
  | nil => exact around []
  | cons d ds =>
    rw [List.cons_append, List.append_cons]
    exact around (ds ++ [i])

end

mutual

/-- The declarations of a tree that are not in a routine of it. -/
def owns (trail : Trail) : Tree → List (Trail × Tree)
  | leaf _ => []
  | node k cs =>
    (if (Fold.declares k).isSome then [(trail, node k cs)] else []) ++
      if isRoutine (node k cs) then [] else ownsOf trail 0 cs

def ownsOf (trail : Trail) (index : Nat) : List Tree → List (Trail × Tree)
  | [] => []
  | t :: ts => t.owns (index :: trail) ++ ownsOf trail (index + 1) ts

end

/-- The declarations among places that have a given owner. -/
def ownedAmong (t : Tree) (routine : Option Trail) (xs : List (Trail × Tree)) :
    List (Trail × Tree) :=
  xs.filter fun x => (Fold.declares x.2.kind).isSome && t.owner x.1 = routine

theorem owned_eq (t : Tree) (routine : Option Trail) :
    t.owned routine = t.ownedAmong routine (t.places []) := by
  simp only [owned, declarations, ownedAmong, List.filter_filter]
  congr 1
  funext x
  exact Bool.and_comm _ _

theorem ownedAmong_append (t : Tree) (routine : Option Trail) (xs ys : List (Trail × Tree)) :
    t.ownedAmong routine (xs ++ ys) = t.ownedAmong routine xs ++ t.ownedAmong routine ys := by
  simp [ownedAmong]

/-- Nothing below a routine is owned from above it. -/
theorem ownedAmong_below_routine {t : Tree} {i : Nat} {above : Trail} (cs : List Tree)
    (hr : t.isRoutineAt (i :: above) = true) :
    t.ownedAmong (t.owner (i :: above)) (placesOf (i :: above) 0 cs) = [] := by
  rw [ownedAmong, List.filter_eq_nil_iff]
  intro hx hm
  obtain ⟨place, u⟩ := hx
  obtain ⟨j, down, rfl, -⟩ := (mem_placesOf cs).1 hm
  obtain ⟨routine, ho, hl⟩ := exists_owner_of_below hr down.reverse (0 + j)
  simp only [ho, Bool.and_eq_true, decide_eq_true_eq, not_and]
  intro _ he
  have := length_lt_of_owner_eq he.symm
  simp only [List.length_cons] at this hl
  omega

theorem at?_child {t u : Tree} {k : Kind} {cs us : List Tree} {trail : Trail} {index : Nat}
    (h : t.at? trail = some (node k cs)) (hd : cs.drop index = u :: us) :
    t.at? (index :: trail) = some u ∧ cs.drop (index + 1) = us := by
  constructor
  · rw [at?_cons, h]
    have : (cs.drop index)[0]? = some u := by simp [hd]
    simpa [children] using this
  · rw [← List.drop_drop, hd]
    rfl

/-- Leaves below the root declare nothing in a tree of terminals. -/
def LeavesSilent (t : Tree) : Prop := ∀ x ∈ t.tokens, Fold.declares x.kind = none

mutual

/-- The owner of a tree owns in it what is not in a routine of it. -/
theorem ownedAmong_places {t : Tree} (hl : t.LeavesSilent) (u : Tree) (i : Nat) (above : Trail)
    (h : t.at? (i :: above) = some u) :
    t.ownedAmong (t.owner (i :: above)) (u.places (i :: above)) = u.owns (i :: above) := by
  cases u with
  | leaf x =>
    have hx := hl x (mem_tokens_of_mem_leaves (mem_leaves_nil.2 h))
    simp [places, ownedAmong, kind, owns, hx]
  | node k cs =>
    have hr := isRoutineAt_of_at? h
    have rest : t.ownedAmong (t.owner (i :: above)) (placesOf (i :: above) 0 cs) =
        if isRoutine (node k cs) then [] else ownsOf (i :: above) 0 cs := by
      split
      · next hk => exact ownedAmong_below_routine cs (hr.trans hk)
      · next hk =>
        have same : t.owner (i :: above) = (t.routinesAround (i :: above)).head? := by
          rw [routinesAround_cons, if_neg (by simp [hr, hk])]
          rfl
        rw [same]
        exact ownedAmong_placesOf hl cs (i :: above) 0 k cs h (by simp)
    rw [places, owns, ← rest]
    by_cases hd : (Fold.declares k).isSome <;> simp [ownedAmong, kind, hd]

theorem ownedAmong_placesOf {t : Tree} (hl : t.LeavesSilent) (ts : List Tree) (trail : Trail)
    (index : Nat) (k : Kind) (cs : List Tree) (h : t.at? trail = some (node k cs))
    (hts : cs.drop index = ts) :
    t.ownedAmong (t.routinesAround trail).head? (placesOf trail index ts) =
      ownsOf trail index ts := by
  cases ts with
  | nil => rfl
  | cons u us =>
    obtain ⟨hu, hus⟩ := at?_child h hts
    have rest := ownedAmong_placesOf hl us trail (index + 1) k cs h hus
    have first := ownedAmong_places hl u index trail hu
    rw [placesOf, ownsOf, ownedAmong_append, rest, ← first]
    rfl

end

theorem isRoutine_of_declares_eq_none {k : Kind} {cs : List Tree} (h : Fold.declares k = none) :
    (node k cs).isRoutine = false := by
  apply decide_eq_false
  intro hk
  obtain rfl : k = .rule .functionDeclaration := hk
  cases h

/-- What the file owns stands outside of all routines. -/
theorem owned_none {k : Kind} {cs : List Tree} (hl : (node k cs).LeavesSilent)
    (hk : Fold.declares k = none) : (node k cs).owned none = ownsOf [] 0 cs := by
  have rest := ownedAmong_placesOf hl cs [] 0 k cs rfl rfl
  rw [routinesAround_nil (isRoutine_of_declares_eq_none hk), List.head?_nil] at rest
  rw [owned_eq, ← rest]
  simp [places, ownedAmong, kind, hk]

/-- A routine below one child owns nothing below another. -/
theorem ownedAmong_eq_nil {t : Tree} {trail : Trail} {xs : List (Trail × Tree)} {i : Nat}
    (down : List Nat)
    (h : ∀ x ∈ xs, ∃ ds j, j ≠ i ∧ x.1 = ds ++ j :: trail) :
    t.ownedAmong (some (down ++ i :: trail)) xs = [] := by
  rw [ownedAmong, List.filter_eq_nil_iff]
  intro x hx
  obtain ⟨ds, j, hj, he⟩ := h x hx
  simp only [Bool.and_eq_true, decide_eq_true_eq, not_and]
  intro _ ho
  obtain ⟨es, l, hs⟩ := exists_of_owner_eq ho
  rw [he, ← List.cons_append, ← List.append_assoc] at hs
  exact hj (index_eq_of_append_eq hs)

theorem ownedAmong_child {t u : Tree} (down : List Nat) (trail : Trail) (ts : List Tree)
    (index j : Nat) (h : ts[j]? = some u) :
    t.ownedAmong (some (down ++ (index + j) :: trail)) (placesOf trail index ts) =
      t.ownedAmong (some (down ++ (index + j) :: trail)) (u.places ((index + j) :: trail)) := by
  induction ts generalizing index j with
  | nil => simp at h
  | cons v vs ih =>
    rw [placesOf, ownedAmong_append]
    cases j with
    | zero =>
      obtain rfl : v = u := by simpa using h
      have rest : t.ownedAmong (some (down ++ (index + 0) :: trail))
          (placesOf trail (index + 1) vs) = [] := by
        apply ownedAmong_eq_nil down
        intro x hx
        obtain ⟨l, ds, he, -⟩ := (mem_placesOf vs).1 hx
        exact ⟨ds.reverse, index + 1 + l, by omega, he⟩
      rw [rest, List.append_nil]
      rfl
    | succ j =>
      have first : t.ownedAmong (some (down ++ (index + (j + 1)) :: trail))
          (v.places (index :: trail)) = [] := by
        apply ownedAmong_eq_nil down
        intro x hx
        obtain ⟨ds, he, -⟩ := (mem_places v).1 hx
        exact ⟨ds.reverse, index, by omega, he⟩
      have rest := ih (index + 1) j (by simpa using h)
      rw [first, List.nil_append, show index + (j + 1) = index + 1 + j by omega]
      exact rest

theorem ownedAmong_down {t : Tree} (hl : t.LeavesSilent) {k : Kind} {cs : List Tree}
    (hk : (node k cs).isRoutine = true) (down : List Nat) (u : Tree) (trail : Trail)
    (h : t.at? trail = some u) (hd : u.descend down = some (node k cs)) :
    t.ownedAmong (some (down.reverse ++ trail)) (u.places trail) =
      ownsOf (down.reverse ++ trail) 0 cs := by
  induction down generalizing u trail with
  | nil =>
    obtain rfl : u = node k cs := by simpa [descend] using hd
    have hr : t.isRoutineAt trail = true := (isRoutineAt_of_at? h).trans hk
    have rest := ownedAmong_placesOf hl cs trail 0 k cs h rfl
    have first : t.owner trail ≠ some trail := by
      intro ho
      have := length_lt_of_owner_eq ho
      omega
    rw [head?_routinesAround hr] at rest
    rw [List.reverse_nil, List.nil_append, ← rest, places, ownedAmong,
      List.filter_cons_of_neg (by simp [first])]
    rfl
  | cons j down ih =>
    cases u with
    | leaf x => simp [descend, children] at hd
    | node k' cs' =>
      obtain ⟨v, hv, hvd⟩ := Option.bind_eq_some_iff.1 hd
      simp only [children] at hv
      have hat : t.at? (j :: trail) = some v := by
        rw [at?_cons, h]
        exact hv
      have first : t.owner trail ≠ some (down.reverse ++ j :: trail) := by
        intro ho
        have := length_lt_of_owner_eq ho
        simp only [List.length_append, List.length_cons] at this
        omega
      have child := ownedAmong_child (t := t) down.reverse trail cs' 0 j hv
      rw [Nat.zero_add] at child
      rw [List.reverse_cons, List.append_assoc, List.singleton_append, ← ih v (j :: trail) hat hvd,
        ← child, places, ownedAmong, List.filter_cons_of_neg (by simp [first])]
      rfl

/-- What a routine owns stands below it and outside of its inner routines. -/
theorem owned_some {t : Tree} (hl : t.LeavesSilent) {k : Kind} {cs : List Tree} {trail : Trail}
    (h : t.at? trail = some (node k cs)) (hk : (node k cs).isRoutine = true) :
    t.owned (some trail) = ownsOf trail 0 cs := by
  have down := ownedAmong_down hl hk trail.reverse t [] rfl h
  rw [List.reverse_reverse, List.append_nil] at down
  rw [owned_eq, down]

end Mykt.Tree
