import Mykt.Proofs.Scope.Record

/-!
Which node each scope of a table belongs to. Main statements: what is added to a scope puts the
scopes that it opens among the others and leaves these where they are; so the scope of a node is
found as before, unless it is the one that is opened.
-/

namespace Mykt

/-- A list is another one with some elements put in at one place. -/
def Inserts {α : Type} (zs xs ys : List α) : Prop :=
  ∃ before behind, xs = before ++ behind ∧ ys = before ++ (zs ++ behind)

namespace Inserts

variable {α : Type} {xs ys zs : List α}

theorem surround (h : Inserts zs xs ys) (before behind : List α) :
    Inserts zs (before ++ (xs ++ behind)) (before ++ (ys ++ behind)) := by
  obtain ⟨first, last, rfl, rfl⟩ := h
  exact ⟨before ++ first, last ++ behind, by simp, by simp⟩

theorem mem_iff (h : Inserts zs xs ys) {y : α} : y ∈ ys ↔ y ∈ xs ∨ y ∈ zs := by
  obtain ⟨first, last, rfl, rfl⟩ := h
  simp only [List.mem_append]
  tauto

theorem find?_eq (h : Inserts zs xs ys) {p : α → Bool} (hz : zs.find? p = none) :
    ys.find? p = xs.find? p := by
  obtain ⟨first, last, rfl, rfl⟩ := h
  simp [List.find?_append, hz]

theorem find?_eq_some (h : Inserts zs xs ys) {p : α → Bool} (hx : xs.find? p = none) :
    ys.find? p = zs.find? p := by
  obtain ⟨first, last, rfl, rfl⟩ := h
  rw [List.find?_append, Option.or_eq_none_iff] at hx
  simp [List.find?_append, hx.1, hx.2]

end Inserts

namespace Scope

/-- A scope and all within it, by their trails and the nodes that they belong to. -/
def anchors (trail : Trail) (s : Scope) : List (Trail × Option Anchor) :=
  (s.outline trail).map fun x => (x.1, x.2.anchor)

def anchorsOf (trail : Trail) (index : Nat) (ss : List Scope) : List (Trail × Option Anchor) :=
  (outlineOf trail index ss).map fun x => (x.1, x.2.anchor)

theorem anchors_mk (trail : Trail) (a : Option Anchor) (ss : List Symbol) (is : List Scope) :
    (mk a ss is).anchors trail = (trail, a) :: anchorsOf trail 0 is := by
  simp [anchors, anchorsOf, outline]

theorem anchorsOf_append (trail : Trail) (index : Nat) (xs ys : List Scope) :
    anchorsOf trail index (xs ++ ys) =
      anchorsOf trail index xs ++ anchorsOf trail (index + xs.length) ys := by
  simp [anchorsOf, outlineOf_append]

theorem anchorsOf_cons (trail : Trail) (index : Nat) (s : Scope) (ss : List Scope) :
    anchorsOf trail index (s :: ss) =
      s.anchors (index :: trail) ++ anchorsOf trail (index + 1) ss := by
  simp [anchorsOf, anchors, outlineOf]

theorem inserts_absorb (trail : Trail) (s : Scope) (x : Portion) :
    Inserts (anchorsOf trail s.inner.length x.inner) (s.anchors trail)
      ((s.absorb x).anchors trail) := by
  obtain ⟨a, ss, is⟩ := s
  refine ⟨(mk a ss is).anchors trail, [], by simp, ?_⟩
  rw [absorb, anchors_mk, anchors_mk, anchorsOf_append, inner_mk, anchor_mk, Nat.zero_add,
    List.append_nil, List.cons_append]

theorem inserts_modify {g : Scope → Scope} {zs : List (Trail × Option Anchor)} {trail : Trail}
    {is : List Scope} {v : Scope} {i : Nat} (index : Nat) (hv : is[i]? = some v)
    (h : Inserts zs (v.anchors ((index + i) :: trail)) ((g v).anchors ((index + i) :: trail))) :
    Inserts zs (anchorsOf trail index is) (anchorsOf trail index (is.modify i g)) := by
  induction is generalizing index i with
  | nil => simp at hv
  | cons s is ih =>
    rw [anchorsOf_cons]
    cases i with
    | zero =>
      obtain rfl : s = v := by simpa using hv
      rw [List.modify_zero_cons, anchorsOf_cons]
      exact h.surround [] _
    | succ i =>
      rw [List.modify_succ_cons, anchorsOf_cons]
      have hshift : index + (i + 1) = index + 1 + i := by omega
      rw [hshift] at h
      have hrest := ih (index + 1) (by simpa using hv) h
      simpa using hrest.surround (s.anchors (index :: trail)) []

/-- What is put in at a trail is put in among all. -/
theorem inserts_modifyDown {f : Scope → Scope} {zs : List (Trail × Option Anchor)}
    (down : List Nat) {s u : Scope} (trail : Trail) (hu : s.descend down = some u)
    (h : Inserts zs (u.anchors (down.reverse ++ trail)) ((f u).anchors (down.reverse ++ trail))) :
    Inserts zs (s.anchors trail) ((modifyDown f down s).anchors trail) := by
  induction down generalizing s trail with
  | nil =>
    obtain rfl : s = u := by simpa [descend] using hu
    exact h
  | cons i down ih =>
    obtain ⟨a, ss, is⟩ := s
    obtain ⟨v, hv, hd⟩ := Option.bind_eq_some_iff.1 hu
    have hinner := ih (i :: trail) hd (by simpa using h)
    rw [modifyDown, anchors_mk, anchors_mk]
    rw [← Nat.zero_add i] at hinner
    simpa using (inserts_modify 0 hv hinner).surround [(trail, a)] []

end Scope

namespace SymbolTable

/-- The scopes of a table, by their trails and the nodes that they belong to. -/
def anchors (table : SymbolTable) : List (Trail × Option Anchor) := table.root.anchors []

section

variable {table : SymbolTable} {document : Nat} {place scope : Trail}

/-- The scope of a node of the how-manieth tree. -/
def isAnchorAt (document : Nat) (place : Trail) (x : Trail × Option Anchor) : Bool :=
  x.2.any fun a => a.document = document && a.trail = place

theorem scopeFor?_eq_find? (table : SymbolTable) (document : Nat) (place : Trail) :
    table.scopeFor? document place =
      (table.anchors.find? (isAnchorAt document place)).map (·.1) := by
  rw [scopeFor?_eq, anchors, Scope.anchors, List.find?_map, Option.map_map]
  rfl

theorem exists_at?_of_scopeFor? (h : table.scopeFor? document place = some scope) :
    ∃ s, table.root.at? scope = some s := by
  obtain ⟨s, hs, -⟩ := exists_of_scopeFor?_eq_some h
  exact ⟨s, Scope.mem_outline_nil.1 hs⟩

theorem exists_at?_of_scopeOf? {routine : Option Trail}
    (h : table.scopeOf? document routine = some scope) : ∃ s, table.root.at? scope = some s := by
  cases routine with
  | none =>
    cases h
    exact ⟨table.root, rfl⟩
  | some place => exact exists_at?_of_scopeFor? h

/-- What stands for no scope is declared in the global one. -/
theorem exists_at?_getD (table : SymbolTable) (routine : Option Trail) :
    ∃ s, table.root.at? ((table.scopeOf? table.visits routine).getD []) = some s := by
  cases h : table.scopeOf? table.visits routine with
  | none => exact ⟨table.root, rfl⟩
  | some scope => exact exists_at?_of_scopeOf? h

/-- The scopes of a portion are put in among those of the table. -/
theorem inserts_addAt {s : Scope} (hs : table.root.at? scope = some s) (x : Scope.Portion) :
    Inserts (Scope.anchorsOf scope s.inner.length x.inner) table.anchors
      (table.addAt scope x).anchors := by
  apply Scope.inserts_modifyDown scope.reverse [] hs
  rw [List.reverse_reverse, List.append_nil]
  exact Scope.inserts_absorb scope s x

end

/-- A table that has grown by scopes for the tree that is visited, of nodes at some places. -/
structure Grows (table table' : SymbolTable) (places : List Trail) : Prop where
  visits_eq : table'.visits = table.visits
  kept : ∀ place, place ∉ places →
    table'.scopeFor? table.visits place = table.scopeFor? table.visits place
  opened : ∀ x ∈ table'.anchors, x ∈ table.anchors ∨
    ∃ i scope place kind, x = (i :: scope, some ⟨table.visits, place, kind⟩)

namespace Grows

variable {table table' table'' : SymbolTable} {places places' : List Trail} {place : Trail}

theorem refl (table : SymbolTable) (places : List Trail) : table.Grows table places where
  visits_eq := rfl
  kept := fun _ _ => rfl
  opened := fun _ hx => .inl hx

theorem trans (h : table.Grows table' places) (h' : table'.Grows table'' places') :
    table.Grows table'' (places ++ places') where
  visits_eq := h'.visits_eq.trans h.visits_eq
  kept := by
    intro place hp
    rw [List.mem_append, not_or] at hp
    have hkept := h'.kept place hp.2
    rw [h.visits_eq] at hkept
    exact hkept.trans (h.kept place hp.1)
  opened := by
    intro x hx
    rcases h'.opened x hx with hx | hx
    · exact h.opened x hx
    · rw [h.visits_eq] at hx
      exact .inr hx

theorem scopeOf?_eq (h : table.Grows table' places) {routine : Option Trail}
    (hr : ∀ place ∈ routine, place ∉ places) :
    table'.scopeOf? table'.visits routine = table.scopeOf? table.visits routine := by
  cases routine with
  | none => rfl
  | some place =>
    rw [h.visits_eq]
    exact h.kept place (hr place rfl)

end Grows

section

variable {table : SymbolTable} {scope : Trail} {s : Scope}

/-- Symbols alone open no scope. -/
theorem grows_symbols (hs : table.root.at? scope = some s) (xs : List Symbol)
    (places : List Trail) : table.Grows (table.addAt scope ⟨xs, []⟩) places := by
  have hinserts := inserts_addAt hs ⟨xs, []⟩
  have hnone : Scope.anchorsOf scope s.inner.length [] = [] := rfl
  rw [hnone] at hinserts
  constructor
  case visits_eq => rfl
  case kept =>
    intro place _
    rw [scopeFor?_eq_find?, scopeFor?_eq_find?, hinserts.find?_eq rfl]
  case opened =>
    intro x hx
    have hold : x ∈ table.anchors ∨ x ∈ [] := hinserts.mem_iff.1 hx
    simpa using Or.inl hold

theorem inserts_scope (hs : table.root.at? scope = some s) (xs : List Symbol) (place : Trail)
    (kind : Kind) :
    Inserts [(s.inner.length :: scope, some ⟨table.visits, place, kind⟩)] table.anchors
      (table.addAt scope ⟨xs, [.mk (some ⟨table.visits, place, kind⟩) [] []]⟩).anchors :=
  inserts_addAt hs ⟨xs, [.mk (some ⟨table.visits, place, kind⟩) [] []]⟩

/-- A scope that is opened for a node is one more scope. -/
theorem grows_scope (hs : table.root.at? scope = some s) (xs : List Symbol) (place : Trail)
    (kind : Kind) :
    table.Grows (table.addAt scope ⟨xs, [.mk (some ⟨table.visits, place, kind⟩) [] []]⟩)
      [place] := by
  have hinserts := inserts_scope hs xs place kind
  constructor
  case visits_eq => rfl
  case kept =>
    intro other hother
    have hne : place ≠ other := by simpa [eq_comm] using hother
    rw [scopeFor?_eq_find?, scopeFor?_eq_find?, hinserts.find?_eq (by simp [isAnchorAt, hne])]
  case opened =>
    intro x hx
    rcases hinserts.mem_iff.1 hx with hx | hx
    · exact .inl hx
    · exact .inr ⟨_, _, _, _, List.mem_singleton.1 hx⟩

/-- The scope that is opened for a node is found there, if there was none. -/
theorem scopeFor?_scope (hs : table.root.at? scope = some s) (xs : List Symbol) {place : Trail}
    (kind : Kind) (hnone : table.scopeFor? table.visits place = none) :
    (table.addAt scope ⟨xs, [.mk (some ⟨table.visits, place, kind⟩) [] []]⟩).scopeFor? table.visits
      place = some (s.inner.length :: scope) := by
  rw [scopeFor?_eq_find?, Option.map_eq_none_iff] at hnone
  rw [scopeFor?_eq_find?, (inserts_scope hs xs place kind).find?_eq_some hnone]
  simp [isAnchorAt]

end

end SymbolTable

end Mykt
