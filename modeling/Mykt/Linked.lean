import Mykt.Trail

/-!
Items that are linked both ways: each names the item above it and lists those below it, by number.
An item is made after the one above it, so that numbers fall on the way up and rise on the way down.
-/

namespace Mykt

/-- How much there is on a stack, if its elements count for so much. -/
def stackWeight {α : Type} (f : α → Nat) : List α → Nat
  | [] => 0
  | x :: stack => f x + stackWeight f stack

section

variable {α : Type} (f : α → Nat)

theorem stackWeight_append (xs ys : List α) :
    stackWeight f (xs ++ ys) = stackWeight f xs + stackWeight f ys := by
  induction xs with
  | nil => simp [stackWeight]
  | cons x xs ih => simp [stackWeight, ih, Nat.add_assoc]

theorem stackWeight_reverse (xs : List α) : stackWeight f xs.reverse = stackWeight f xs := by
  induction xs with
  | nil => rfl
  | cons x xs ih => simp [stackWeight, stackWeight_append, ih, Nat.add_comm]

theorem stackWeight_map {β : Type} (g : β → α) (xs : List β) :
    stackWeight f (xs.map g) = stackWeight (fun x => f (g x)) xs := by
  induction xs with
  | nil => rfl
  | cons x xs ih => simp [stackWeight, ih]

theorem stackWeight_filter_le (p : α → Bool) (xs : List α) :
    stackWeight f (xs.filter p) ≤ stackWeight f xs := by
  induction xs with
  | nil => exact Nat.le_refl _
  | cons x xs ih =>
    rw [List.filter_cons]
    split <;> simp only [stackWeight] <;> omega

theorem stackWeight_sizeOf_lt [SizeOf α] (xs : List α) : stackWeight sizeOf xs < sizeOf xs := by
  induction xs with
  | nil => simp [stackWeight]
  | cons x xs ih =>
    simp only [stackWeight, List.cons.sizeOf_spec]
    omega

end

structure Linked.Item (α : Type) where
  value : α
  above : Option Nat
  below : List Nat

/-- Items by their numbers. -/
structure Linked (α : Type) where
  items : Array (Linked.Item α)
  lt_of_above : ∀ (n : Nat) (x : Linked.Item α), items[n]? = some x → ∀ p, x.above = some p → p < n
  lt_of_below : ∀ (n : Nat) (x : Linked.Item α), items[n]? = some x →
    ∀ c ∈ x.below, n < c ∧ c < items.size

namespace Linked

variable {α β : Type}

def empty : Linked α := ⟨#[], by simp, by simp⟩

def size (a : Linked α) : Nat := a.items.size

def value? (a : Linked α) (n : Nat) : Option α := a.items[n]?.map (·.value)

def above? (a : Linked α) (n : Nat) : Option Nat := a.items[n]?.bind (·.above)

def below (a : Linked α) (n : Nat) : List Nat := (a.items[n]?.map (·.below)).getD []

theorem above?_lt {a : Linked α} {n p : Nat} (h : a.above? n = some p) : p < n := by
  obtain ⟨x, hx, hp⟩ := Option.bind_eq_some_iff.1 h
  exact a.lt_of_above n x hx p hp

theorem lt_of_mem_below {a : Linked α} {n c : Nat} (h : c ∈ a.below n) : n < c ∧ c < a.size := by
  cases hx : a.items[n]? with
  | none => simp [below, hx] at h
  | some x => exact a.lt_of_below n x hx c (by simpa [below, hx] using h)

theorem lt_size_of_value? {a : Linked α} {n : Nat} {v : α} (h : a.value? n = some v) :
    n < a.size := by
  obtain ⟨x, hx, -⟩ := Option.map_eq_some_iff.1 h
  exact (Array.getElem?_eq_some_iff.1 hx).1

theorem below_eq_nil {a : Linked α} {n : Nat} (h : a.size ≤ n) : a.below n = [] := by
  rw [below, Array.getElem?_eq_none h]
  rfl

/-- Adds an item that names the one above it and is not listed there. -/
def plant (a : Linked α) (v : α) (above : Option (Fin a.size)) : Linked α where
  items := a.items.push ⟨v, above.map (·.val), []⟩
  lt_of_above := by
    intro n x hx p hp
    rw [Array.getElem?_push] at hx
    split at hx
    · obtain rfl : _ = x := by simpa using hx
      obtain ⟨q, -, rfl⟩ := Option.map_eq_some_iff.1 hp
      have := q.isLt
      simp only [size] at this
      omega
    · exact a.lt_of_above n x hx p hp
  lt_of_below := by
    intro n x hx c hc
    rw [Array.getElem?_push] at hx
    split at hx
    · obtain rfl : _ = x := by simpa using hx
      cases hc
    · have := a.lt_of_below n x hx c hc
      rw [Array.size_push]
      omega

section

variable (a : Linked α) (v : α) (above : Option (Fin a.size)) (m : Nat)

@[simp] theorem size_plant : (a.plant v above).size = a.size + 1 := Array.size_push _

theorem getElem?_plant : (a.plant v above).items[m]? =
    if m = a.size then some ⟨v, above.map (·.val), []⟩ else a.items[m]? :=
  Array.getElem?_push

theorem value?_plant :
    (a.plant v above).value? m = if m = a.size then some v else a.value? m := by
  rw [value?, getElem?_plant]
  split <;> rfl

theorem above?_plant :
    (a.plant v above).above? m = if m = a.size then above.map (·.val) else a.above? m := by
  rw [above?, getElem?_plant]
  split <;> rfl

@[simp] theorem below_plant : (a.plant v above).below m = a.below m := by
  rw [below, getElem?_plant]
  split
  · next h => exact (below_eq_nil (Nat.le_of_eq h.symm)).symm
  · rfl

end

/-- Changes the value of an item. -/
def modify (a : Linked α) (n : Nat) (f : α → α) : Linked α where
  items := a.items.modify n fun x => { x with value := f x.value }
  lt_of_above := by
    intro m x hx p hp
    rw [Array.getElem?_modify] at hx
    split at hx
    · obtain ⟨y, hy, rfl⟩ := Option.map_eq_some_iff.1 hx
      exact a.lt_of_above m y hy p hp
    · exact a.lt_of_above m x hx p hp
  lt_of_below := by
    intro m x hx c hc
    rw [Array.getElem?_modify] at hx
    rw [Array.size_modify]
    split at hx
    · obtain ⟨y, hy, rfl⟩ := Option.map_eq_some_iff.1 hx
      exact a.lt_of_below m y hy c hc
    · exact a.lt_of_below m x hx c hc

section

variable (a : Linked α) (n : Nat) (f : α → α) (m : Nat)

@[simp] theorem size_modify : (a.modify n f).size = a.size := Array.size_modify

theorem getElem?_modify : (a.modify n f).items[m]? =
    if n = m then a.items[m]?.map fun x => { x with value := f x.value } else a.items[m]? :=
  Array.getElem?_modify

theorem value?_modify :
    (a.modify n f).value? m = if n = m then (a.value? m).map f else a.value? m := by
  rw [value?, getElem?_modify]
  split
  · simp [value?, Function.comp_def]
  · rfl

@[simp] theorem above?_modify : (a.modify n f).above? m = a.above? m := by
  rw [above?, getElem?_modify]
  split
  · cases h : a.items[m]? <;> simp [above?, h]
  · rfl

@[simp] theorem below_modify : (a.modify n f).below m = a.below m := by
  rw [below, getElem?_modify]
  split
  · simp [below, Function.comp_def]
  · rfl

end

/-- The numbers that the next so many items will have. -/
def next (a : Linked α) (count : Nat) : List Nat := List.range' a.size count

theorem mem_next {a : Linked α} {count c : Nat} :
    c ∈ a.next count ↔ a.size ≤ c ∧ c < a.size + count :=
  List.mem_range'_1

/-- Adds items below an item and lists them there, after those that it has. -/
def hang (a : Linked α) (n : Nat) (vs : List α) : Linked α :=
  if h : n < a.size then
    { items := (a.items.modify n fun x => { x with below := x.below ++ a.next vs.length }) ++
        (vs.map fun v => (⟨v, some n, []⟩ : Item α)).toArray
      lt_of_above := by
        intro m x hx p hp
        simp only [Array.getElem?_append, Array.size_modify, Array.getElem?_modify] at hx
        split at hx
        · split at hx
          · obtain ⟨y, hy, rfl⟩ := Option.map_eq_some_iff.1 hx
            exact a.lt_of_above m y hy p hp
          · exact a.lt_of_above m x hx p hp
        · simp only [List.getElem?_toArray, List.getElem?_map] at hx
          obtain ⟨v, -, rfl⟩ := Option.map_eq_some_iff.1 hx
          obtain rfl : n = p := by simpa using hp
          simp only [size] at h
          omega
      lt_of_below := by
        intro m x hx c hc
        simp only [Array.getElem?_append, Array.size_modify, Array.getElem?_modify] at hx
        simp only [Array.size_append, Array.size_modify, List.size_toArray, List.length_map]
        split at hx
        · split at hx
          · obtain ⟨y, hy, rfl⟩ := Option.map_eq_some_iff.1 hx
            simp only [List.mem_append, mem_next] at hc
            rcases hc with hc | hc
            · have := a.lt_of_below m y hy c hc
              omega
            · simp only [size] at hc
              omega
          · have := a.lt_of_below m x hx c hc
            omega
        · simp only [List.getElem?_toArray, List.getElem?_map] at hx
          obtain ⟨v, -, rfl⟩ := Option.map_eq_some_iff.1 hx
          cases hc }
  else a

theorem hang_of_size_le {a : Linked α} {n : Nat} (h : a.size ≤ n) (vs : List α) :
    a.hang n vs = a := by
  rw [hang, dif_neg (by omega)]

section

variable {a : Linked α} {n : Nat} (h : n < a.size) (vs : List α) (m : Nat)

include h

theorem getElem?_hang : (a.hang n vs).items[m]? =
    if m < a.size then
      if n = m then a.items[m]?.map fun x => { x with below := x.below ++ a.next vs.length }
      else a.items[m]?
    else vs[m - a.size]?.map fun v => ⟨v, some n, []⟩ := by
  rw [hang, dif_pos h]
  simp only [Array.getElem?_append, Array.size_modify, Array.getElem?_modify,
    List.getElem?_toArray, List.getElem?_map, size]
  rfl

@[simp] theorem size_hang : (a.hang n vs).size = a.size + vs.length := by
  rw [hang, dif_pos h]
  simp [size]

theorem value?_hang :
    (a.hang n vs).value? m = if m < a.size then a.value? m else vs[m - a.size]? := by
  rw [value?, getElem?_hang h]
  split
  · split
    · simp [value?, Function.comp_def]
    · rfl
  · simp [Function.comp_def]

theorem above?_hang : (a.hang n vs).above? m =
    if m < a.size then a.above? m else if m < a.size + vs.length then some n else none := by
  rw [above?, getElem?_hang h]
  split
  · split
    · cases hm : a.items[m]? <;> simp [above?, hm]
    · rfl
  · split
    · rw [List.getElem?_eq_getElem (by omega)]
      rfl
    · rw [List.getElem?_eq_none (by omega)]
      rfl

theorem below_hang :
    (a.hang n vs).below m = if n = m then a.below n ++ a.next vs.length else a.below m := by
  rw [below, getElem?_hang h]
  split
  · next hm =>
    split
    · next he =>
      subst he
      simp [below, Array.getElem?_eq_getElem (show n < a.items.size from hm)]
    · rfl
  · next hm =>
    rw [if_neg (by omega), below_eq_nil (Nat.le_of_not_lt hm)]
    cases vs[m - a.size]? <;> rfl

end

/-- Recursion over what is below an item. -/
def fold (a : Linked α) (f : Nat → List β → β) (n : Nat) : β :=
  f n ((a.below n).attach.map fun c => a.fold f c.val)
termination_by a.size - n
decreasing_by
  have := lt_of_mem_below c.property
  omega

theorem fold_eq (a : Linked α) (f : Nat → List β → β) (n : Nat) :
    a.fold f n = f n ((a.below n).map (a.fold f)) := by
  rw [fold]
  simp

/-- An item and all below it, each before those below it. -/
def preorder (a : Linked α) (n : Nat) : List Nat := a.fold (fun n below => n :: below.flatten) n

theorem preorder_eq (a : Linked α) (n : Nat) :
    a.preorder n = n :: (a.below n).flatMap a.preorder := by
  rw [preorder, fold_eq, List.flatMap]
  rfl

/-- Takes items from a stack, and puts those below each on the stack. -/
def walkFrom (a : Linked α) : List Nat → List Nat
  | [] => []
  | n :: stack => n :: a.walkFrom (a.below n ++ stack)
termination_by stack => (stack.flatMap a.preorder).length
decreasing_by
  rw [List.flatMap_cons, List.flatMap_append, preorder_eq]
  simp

def walk (a : Linked α) (n : Nat) : List Nat := a.walkFrom [n]

/-- An item, the one above it, and so on. -/
def chain (a : Linked α) (n : Nat) : List Nat :=
  n ::
    match h : a.above? n with
    | some p =>
      have : p < n := above?_lt h
      a.chain p
    | none => []

/-- The indexes that lead to an item, its own first. -/
def trail (a : Linked α) (n : Nat) : Trail :=
  match h : a.above? n with
  | some p =>
    have : p < n := above?_lt h
    (a.below p).idxOf n :: a.trail p
  | none => []

/-- Goes down by indexes, the topmost first. -/
def descend (a : Linked α) (n : Nat) : List Nat → Option Nat
  | [] => some n
  | i :: is => (a.below n)[i]?.bind (a.descend · is)

def at? (a : Linked α) (root : Nat) (trail : Trail) : Option Nat := a.descend root trail.reverse

end Linked

end Mykt
