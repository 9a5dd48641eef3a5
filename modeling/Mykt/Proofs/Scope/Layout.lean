import Mathlib.Data.List.Basic
import Mykt.Scope.Basic

/-!
Scopes by their trails, and what a part of a tree adds to a scope. Main statements: a change at a
trail is a change of what the trail leads to; the scopes of an outline are those that trails lead to;
of the symbols added to a scope the last of a name is found.
-/

namespace Mykt.Scope

theorem descend_append (s : Scope) (xs ys : List Nat) :
    s.descend (xs ++ ys) = (s.descend xs).bind (·.descend ys) := by
  induction xs generalizing s with
  | nil => rfl
  | cons i is ih =>
    simp only [List.cons_append, descend, Option.bind_assoc]
    congr 1
    funext u
    exact ih u

@[simp] theorem anchor_mk (a : Option Anchor) (ss : List Symbol) (is : List Scope) :
    (mk a ss is).anchor = a := rfl

@[simp] theorem inner_mk (a : Option Anchor) (ss : List Symbol) (is : List Scope) :
    (mk a ss is).inner = is := rfl

theorem lookup?_mk_nil (a : Option Anchor) (is : List Scope) (name : String) :
    (mk a [] is).lookup? name = none := rfl

@[simp] theorem at?_nil (s : Scope) : s.at? [] = some s := rfl

theorem at?_cons (s : Scope) (i : Nat) (trail : Trail) :
    s.at? (i :: trail) = (s.at? trail).bind (·.inner[i]?) := by
  simp [at?, descend_append, descend]

/-- Changes one inner scope. -/
def modifyInner (i : Nat) (f : Scope → Scope) : Scope → Scope
  | mk a ss is => mk a ss (is.modify i f)

theorem modifyDown_append (f : Scope → Scope) (xs : List Nat) (i : Nat) (s : Scope) :
    modifyDown f (xs ++ [i]) s = modifyDown (modifyInner i f) xs s := by
  induction xs generalizing s with
  | nil =>
    cases s
    rfl
  | cons j js ih =>
    obtain ⟨a, ss, is⟩ := s
    simp only [List.cons_append, modifyDown]
    congr 2
    funext u
    exact ih u

@[simp] theorem modifyAt_nil (s : Scope) (f : Scope → Scope) : s.modifyAt [] f = f s := rfl

theorem modifyAt_cons (s : Scope) (i : Nat) (trail : Trail) (f : Scope → Scope) :
    s.modifyAt (i :: trail) f = s.modifyAt trail (modifyInner i f) := by
  simp [modifyAt, modifyDown_append]

theorem inner_modifyDown_cons (f : Scope → Scope) (i : Nat) (is : List Nat) (s : Scope) :
    (modifyDown f (i :: is) s).inner = s.inner.modify i (modifyDown f is) := by
  cases s
  rfl

theorem descend_modifyDown (f : Scope → Scope) (down : List Nat) (s : Scope) :
    (modifyDown f down s).descend down = (s.descend down).map f := by
  induction down generalizing s with
  | nil => rfl
  | cons i is ih =>
    simp only [descend, inner_modifyDown_cons, List.getElem?_modify, if_pos]
    cases s.inner[i]? with
    | none => rfl
    | some u => exact ih u

theorem at?_modifyAt (f : Scope → Scope) (trail : Trail) (s : Scope) :
    (s.modifyAt trail f).at? trail = (s.at? trail).map f :=
  descend_modifyDown f trail.reverse s

theorem modifyDown_modifyDown (f g : Scope → Scope) (down : List Nat) (s : Scope) :
    modifyDown g down (modifyDown f down s) = modifyDown (g ∘ f) down s := by
  induction down generalizing s with
  | nil => rfl
  | cons i is ih =>
    obtain ⟨a, ss, cs⟩ := s
    simp only [modifyDown, List.modify_modify_eq]
    congr 2
    funext u
    exact ih u

theorem modifyAt_modifyAt (f g : Scope → Scope) (trail : Trail) (s : Scope) :
    (s.modifyAt trail f).modifyAt trail g = s.modifyAt trail (g ∘ f) :=
  modifyDown_modifyDown f g trail.reverse s

theorem modifyAt_id (trail : Trail) (s : Scope) : s.modifyAt trail id = s := by
  have down (is : List Nat) : modifyDown id is = id := by
    induction is with
    | nil => rfl
    | cons i is ih =>
      funext s
      cases s
      simp [modifyDown, ih]
  simp [modifyAt, down]

theorem modifyDown_congr {f g : Scope → Scope} {down : List Nat} {s u : Scope}
    (h : s.descend down = some u) (hu : f u = g u) :
    modifyDown f down s = modifyDown g down s := by
  induction down generalizing s with
  | nil =>
    obtain rfl : s = u := by simpa [descend] using h
    exact hu
  | cons i is ih =>
    obtain ⟨a, ss, cs⟩ := s
    simp only [descend, inner] at h
    obtain ⟨v, hv, hd⟩ := Option.bind_eq_some_iff.1 h
    simp only [modifyDown, mk.injEq, true_and]
    apply List.ext_getElem?
    intro j
    rw [List.getElem?_modify, List.getElem?_modify]
    by_cases hj : i = j
    · subst hj
      simp [hv, ih hd]
    · simp [hj]

/-- Only what stands at the trail counts for a change there. -/
theorem modifyAt_congr {f g : Scope → Scope} {trail : Trail} {s u : Scope}
    (h : s.at? trail = some u) (hu : f u = g u) : s.modifyAt trail f = s.modifyAt trail g :=
  modifyDown_congr h hu

/-- What a part of a tree adds to the scope that it stands in. -/
structure Portion where
  symbols : List Symbol
  inner : List Scope

namespace Portion

def empty : Portion := ⟨[], []⟩

def append (x y : Portion) : Portion := ⟨x.symbols ++ y.symbols, x.inner ++ y.inner⟩

instance : Append Portion := ⟨append⟩

@[simp] theorem symbols_append (x y : Portion) : (x ++ y).symbols = x.symbols ++ y.symbols := rfl

@[simp] theorem inner_append (x y : Portion) : (x ++ y).inner = x.inner ++ y.inner := rfl

end Portion

/-- The scope with a portion added to it, its symbols in order. -/
def absorb (s : Scope) (x : Portion) : Scope :=
  mk s.anchor (x.symbols.foldl (fun ss y => insert y ss) s.symbols) (s.inner ++ x.inner)

@[simp] theorem anchor_absorb (s : Scope) (x : Portion) : (s.absorb x).anchor = s.anchor := rfl

@[simp] theorem inner_absorb (s : Scope) (x : Portion) :
    (s.absorb x).inner = s.inner ++ x.inner := rfl

theorem absorb_empty (s : Scope) : s.absorb .empty = s := by
  cases s
  simp [absorb, Portion.empty, anchor, symbols, inner]

theorem absorb_absorb (s : Scope) (x y : Portion) :
    (s.absorb x).absorb y = s.absorb (x ++ y) := by
  simp [absorb, anchor, symbols, inner]

theorem define_eq_absorb (x : Symbol) (s : Scope) : s.define x = s.absorb ⟨[x], []⟩ := by
  cases s
  simp [absorb, define, anchor, symbols, inner]

theorem openInner_eq_absorb (a : Anchor) (s : Scope) :
    s.openInner a = s.absorb ⟨[], [mk (some a) [] []]⟩ := by
  cases s
  simp [absorb, openInner, anchor, symbols, inner]

/-- The last symbol of a name counts, and before all of them what the scope had. -/
theorem lookup?_absorb (s : Scope) (x : Portion) (name : String) :
    (s.absorb x).lookup? name = (x.symbols.reverse.find? (·.name = name)).or (s.lookup? name) := by
  obtain ⟨ys, zs⟩ := x
  suffices ∀ ss : List Symbol, (ys.foldl (fun ss y => insert y ss) ss).find? (·.name = name) =
      (ys.reverse.find? (·.name = name)).or (ss.find? (·.name = name)) from this s.symbols
  induction ys with
  | nil => simp
  | cons y ys ih =>
    intro ss
    rw [List.foldl_cons, ih, find?_insert, List.reverse_cons, List.find?_append, Option.or_assoc]
    congr 1
    by_cases h : y.name = name <;> simp [h]

mutual

theorem mem_outline (s : Scope) {u : Scope} {trail place : Trail} :
    (place, u) ∈ s.outline trail ↔
      ∃ down, place = down.reverse ++ trail ∧ s.descend down = some u := by
  obtain ⟨a, ss, is⟩ := s
  simp only [outline, List.mem_cons, Prod.mk.injEq, mem_outlineOf is]
  constructor
  · intro hm
    rcases hm with ⟨rfl, rfl⟩ | ⟨j, down, rfl, h⟩
    · exact ⟨[], rfl, rfl⟩
    · exact ⟨j :: down, by simp, h⟩
  · intro hd
    obtain ⟨down, rfl, h⟩ := hd
    cases down with
    | nil => exact .inl ⟨rfl, by simpa [descend, eq_comm] using h⟩
    | cons j down => exact .inr ⟨j, down, by simp, h⟩

theorem mem_outlineOf (ss : List Scope) {u : Scope} {trail place : Trail} {index : Nat} :
    (place, u) ∈ outlineOf trail index ss ↔
      ∃ j down, place = down.reverse ++ (index + j) :: trail ∧
        ss[j]?.bind (·.descend down) = some u := by
  cases ss with
  | nil => simp [outlineOf]
  | cons s ss =>
    simp only [outlineOf, List.mem_append, mem_outline s, mem_outlineOf ss]
    constructor
    · intro hm
      rcases hm with ⟨down, rfl, h⟩ | ⟨j, down, rfl, h⟩
      · exact ⟨0, down, rfl, h⟩
      · exact ⟨j + 1, down, by simp only [Nat.add_assoc, Nat.add_comm 1], h⟩
    · intro hd
      obtain ⟨j, down, rfl, h⟩ := hd
      cases j with
      | zero => exact .inl ⟨down, rfl, h⟩
      | succ j => exact .inr ⟨j, down, by simp only [Nat.add_assoc, Nat.add_comm 1], h⟩

end

theorem mem_outline_nil {s u : Scope} {place : Trail} :
    (place, u) ∈ s.outline [] ↔ s.at? place = some u := by
  rw [mem_outline]
  constructor
  · intro hd
    obtain ⟨down, rfl, h⟩ := hd
    simpa [at?] using h
  · intro h
    exact ⟨place.reverse, by simp, h⟩

theorem outline_absorb (s : Scope) (x : Portion) (trail : Trail) :
    (s.absorb x).outline trail = (trail, s.absorb x) :: outlineOf trail 0 (s.inner ++ x.inner) := by
  rw [absorb, outline]

theorem outlineOf_append (trail : Trail) (index : Nat) (xs ys : List Scope) :
    outlineOf trail index (xs ++ ys) =
      outlineOf trail index xs ++ outlineOf trail (index + xs.length) ys := by
  induction xs generalizing index with
  | nil => simp [outlineOf]
  | cons x xs ih =>
    simp only [List.cons_append, outlineOf, ih, List.append_assoc, List.length_cons]
    congr 3
    omega

end Mykt.Scope
