import Mathlib.Data.List.Nodup
import Mykt.Tree.Basic

/-!
The places of a tree: its subtrees in document order, each with the trail that leads to it. Main
statements: a subtree is listed with a trail exactly when the trail leads to it, no trail is listed
twice, and the leaves are the places that hold a token.
-/

namespace Mykt.Tree

mutual

/-- A tree and its subtrees, each before its children, with their trails. -/
def places (trail : Trail) : Tree → List (Trail × Tree)
  | leaf t => [(trail, leaf t)]
  | node k cs => (trail, node k cs) :: placesOf trail 0 cs

def placesOf (trail : Trail) (index : Nat) : List Tree → List (Trail × Tree)
  | [] => []
  | t :: ts => t.places (index :: trail) ++ placesOf trail (index + 1) ts

end

theorem descend_append (t : Tree) (xs ys : List Nat) :
    t.descend (xs ++ ys) = (t.descend xs).bind (·.descend ys) := by
  induction xs generalizing t with
  | nil => rfl
  | cons i is ih =>
    simp only [List.cons_append, descend, Option.bind_assoc]
    congr 1
    funext u
    exact ih u

@[simp] theorem at?_nil (t : Tree) : t.at? [] = some t := rfl

theorem at?_cons (t : Tree) (i : Nat) (trail : Trail) :
    t.at? (i :: trail) = (t.at? trail).bind (·.children[i]?) := by
  simp [at?, descend_append, descend]

mutual

theorem mem_places (t : Tree) {u : Tree} {trail place : Trail} :
    (place, u) ∈ t.places trail ↔
      ∃ down, place = down.reverse ++ trail ∧ t.descend down = some u := by
  cases t with
  | leaf x =>
    simp only [places, List.mem_singleton, Prod.mk.injEq]
    constructor
    · intro hm
      obtain ⟨rfl, rfl⟩ := hm
      exact ⟨[], rfl, rfl⟩
    · intro hd
      obtain ⟨down, rfl, h⟩ := hd
      cases down with
      | nil => simpa [descend, eq_comm] using h
      | cons i is => simp [descend, children] at h
  | node k cs =>
    simp only [places, List.mem_cons, Prod.mk.injEq, mem_placesOf cs]
    constructor
    · intro hm
      rcases hm with ⟨rfl, rfl⟩ | ⟨j, down, rfl, h⟩
      · exact ⟨[], rfl, rfl⟩
      · exact ⟨j :: down, by simp, h⟩
    · intro hd
      obtain ⟨down, rfl, h⟩ := hd
      cases down with
      | nil => exact .inl ⟨rfl, by simpa [descend, eq_comm] using h⟩
      | cons j down => exact .inr ⟨j, down, by simp, h⟩

theorem mem_placesOf (ts : List Tree) {u : Tree} {trail place : Trail} {index : Nat} :
    (place, u) ∈ placesOf trail index ts ↔
      ∃ j down, place = down.reverse ++ (index + j) :: trail ∧
        ts[j]?.bind (·.descend down) = some u := by
  cases ts with
  | nil => simp [placesOf]
  | cons t ts =>
    simp only [placesOf, List.mem_append, mem_places t, mem_placesOf ts]
    constructor
    · intro hm
      rcases hm with ⟨down, rfl, h⟩ | ⟨j, down, rfl, h⟩
      · exact ⟨0, down, rfl, h⟩
      · exact ⟨j + 1, down, by simp only [Nat.add_assoc, Nat.add_comm 1], h⟩
    · intro hd
      obtain ⟨j, down, rfl, h⟩ := hd
      cases j with
      | zero => exact .inl ⟨down, rfl, h⟩
      | succ j => exact .inr ⟨j, down, by simp only [Nat.add_assoc, Nat.add_comm 1], h⟩

end

theorem mem_places_nil {t u : Tree} {place : Trail} :
    (place, u) ∈ t.places [] ↔ t.at? place = some u := by
  rw [mem_places]
  constructor
  · intro hd
    obtain ⟨down, rfl, h⟩ := hd
    simpa [at?] using h
  · intro h
    exact ⟨place.reverse, by simp, h⟩

mutual

theorem mem_leaves (t : Tree) {x : Token} {trail place : Trail} :
    (place, x) ∈ t.leaves trail ↔ (place, leaf x) ∈ t.places trail := by
  cases t with
  | leaf y => simp [leaves, places]
  | node k cs => simp [leaves, places, mem_leavesOf cs]

theorem mem_leavesOf (ts : List Tree) {x : Token} {trail place : Trail} {index : Nat} :
    (place, x) ∈ leavesOf trail index ts ↔ (place, leaf x) ∈ placesOf trail index ts := by
  cases ts with
  | nil => simp [leavesOf, placesOf]
  | cons t ts => simp [leavesOf, placesOf, mem_leaves t, mem_leavesOf ts]

end

theorem mem_leaves_nil {t : Tree} {x : Token} {place : Trail} :
    (place, x) ∈ t.leaves [] ↔ t.at? place = some (leaf x) := by
  rw [mem_leaves, mem_places_nil]

theorem mem_tokens_of_mem_leaves {t : Tree} {x : Token} {trail place : Trail}
    (h : (place, x) ∈ t.leaves trail) : x ∈ t.tokens := by
  rw [← map_leaves trail t]
  exact List.mem_map_of_mem h

/-- Below a child, trails end in the child's index. -/
theorem index_eq_of_append_eq {xs ys : List Nat} {i j : Nat} {trail : Trail}
    (h : xs ++ i :: trail = ys ++ j :: trail) : i = j := by
  have h' := congrArg List.reverse h
  simp only [List.reverse_append, List.reverse_cons, List.append_assoc, List.singleton_append,
    List.append_cancel_left_eq, List.cons.injEq] at h'
  exact h'.1

mutual

theorem nodup_places (t : Tree) (trail : Trail) : ((t.places trail).map (·.1)).Nodup := by
  cases t with
  | leaf x => simp [places]
  | node k cs =>
    simp only [places, List.map_cons, List.nodup_cons]
    refine ⟨?_, nodup_placesOf cs trail 0⟩
    intro h
    obtain ⟨⟨place, u⟩, hm, rfl⟩ := List.mem_map.1 h
    obtain ⟨j, down, he, -⟩ := (mem_placesOf _).1 hm
    have := congrArg List.length he
    simp only [List.length_append, List.length_reverse, List.length_cons] at this
    omega

theorem nodup_placesOf (ts : List Tree) (trail : Trail) (index : Nat) :
    ((placesOf trail index ts).map (·.1)).Nodup := by
  cases ts with
  | nil => simp [placesOf]
  | cons t ts =>
    simp only [placesOf, List.map_append]
    refine List.Nodup.append (nodup_places t _) (nodup_placesOf ts _ _) ?_
    intro place h₁ h₂
    obtain ⟨⟨place, u⟩, hm₁, rfl⟩ := List.mem_map.1 h₁
    obtain ⟨⟨place', v⟩, hm₂, rfl⟩ := List.mem_map.1 h₂
    obtain ⟨down₁, he₁, -⟩ := (mem_places _).1 hm₁
    obtain ⟨j, down₂, he₂, -⟩ := (mem_placesOf _).1 hm₂
    have := index_eq_of_append_eq (he₁.symm.trans he₂)
    omega

end

end Mykt.Tree
