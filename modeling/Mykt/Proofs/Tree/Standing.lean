import Mathlib.Data.List.Zip
import Mykt.Proofs.Linked.Traversal
import Mykt.Proofs.Tree.Places
import Mykt.Tree.Linked

/-!
Linked nodes that stand for a tree. Main statements: the same trails lead down from both, a walk lists
the nodes in the recursive pre-order, and terminals and texts are those of the tree.
-/

namespace Mykt.Tree

theorem tokens_eq (t : Tree) : t.tokens = t.token?.toList ++ t.children.flatMap tokens := by
  have hof (ts : List Tree) : tokensOf ts = ts.flatMap tokens := by
    induction ts with
    | nil => rfl
    | cons t ts ih => rw [tokensOf, ih, List.flatMap_cons]
  cases t with
  | leaf x => rfl
  | node k cs => exact hof cs

theorem places_eq (t : Tree) (trail : Trail) :
    t.places trail = (trail, t) :: placesOf trail 0 t.children := by
  cases t <;> rfl

mutual

theorem leaves_eq_filterMap (t : Tree) (trail : Trail) :
    t.leaves trail = (t.places trail).filterMap fun x => x.2.token?.map (x.1, ·) := by
  cases t with
  | leaf x => rfl
  | node k cs => simpa [leaves, places, token?] using leavesOf_eq_filterMap cs trail 0

theorem leavesOf_eq_filterMap (ts : List Tree) (trail : Trail) (index : Nat) :
    leavesOf trail index ts =
      (placesOf trail index ts).filterMap fun x => x.2.token?.map (x.1, ·) := by
  cases ts with
  | nil => rfl
  | cons t ts =>
    rw [leavesOf, placesOf, List.filterMap_append, leaves_eq_filterMap t,
      leavesOf_eq_filterMap ts]

end

/-- The nodes from a number on stand for a tree: they have its kinds, its tokens and its shape. -/
inductive Stands (a : Linked Node) : Tree → Nat → Prop where
  | intro {t : Tree} {n : Nat} {v : Node} (hv : a.value? n = some v) (hk : v.kind = t.kind)
      (ht : v.token = t.token?) (hc : List.Forall₂ (Stands a) t.children (a.below n)) :
      Stands a t n

/-- The tokens of the terminals below a node. -/
def tokensBelow (a : Linked Node) (n : Nat) : List Token := (a.walk n).filterMap (tokenAt? a)

theorem tokensBelow_eq (a : Linked Node) (n : Nat) :
    tokensBelow a n = (tokenAt? a n).toList ++ (a.below n).flatMap (tokensBelow a) := by
  have hbelow (m : Nat) : tokensBelow a m = (a.preorder m).filterMap (tokenAt? a) := by
    rw [tokensBelow, Linked.walk_eq_preorder]
  rw [hbelow, Linked.preorder_eq, ← List.singleton_append, List.filterMap_append,
    List.filterMap_flatMap]
  simp only [← hbelow]
  cases h : tokenAt? a n <;> simp [h]

namespace Stands

variable {a b : Linked Node} {t : Tree} {n root : Nat}

/-- To show something of the nodes that stand for trees, one may use it of their children. -/
theorem children_induction {P : Tree → Nat → Prop}
    (h : ∀ t n, Stands a t n → List.Forall₂ P t.children (a.below n) → P t n) {t : Tree} {n : Nat}
    (hs : Stands a t n) : P t n := by
  apply h t n hs
  obtain ⟨-, -, -, hc⟩ := hs
  have hsize : ∀ c ∈ t.children, sizeOf c < sizeOf t := by
    intro c hc
    cases t with
    | leaf x => cases hc
    | node k cs =>
      have := List.sizeOf_lt_of_mem hc
      simp only [children] at this
      simp only [node.sizeOf_spec]
      omega
  generalize a.below n = ns at hc
  generalize t.children = ts at hc hsize
  induction hc with
  | nil => exact .nil
  | @cons c m cs ms hm _ ih =>
    have := hsize c List.mem_cons_self
    exact .cons (children_induction h hm) (ih fun c hc => hsize c (List.mem_cons_of_mem _ hc))
termination_by sizeOf t

theorem tokenAt?_eq (h : Stands a t n) : tokenAt? a n = t.token? := by
  obtain ⟨hv, -, ht, -⟩ := h
  rw [tokenAt?, hv]
  exact ht

theorem tokensBelow_eq (h : Stands a t n) : tokensBelow a n = t.tokens := by
  refine children_induction (P := fun t n => tokensBelow a n = t.tokens) ?_ h
  intro t n h ih
  rw [Tree.tokensBelow_eq, tokens_eq, h.tokenAt?_eq]
  congr 1
  generalize a.below n = ns at ih
  generalize t.children = ts at ih
  induction ih with
  | nil => rfl
  | cons hm _ ih' => rw [List.flatMap_cons, List.flatMap_cons, hm, ih']

/-- Only kinds, tokens and lists of children count. -/
theorem congr (h : Stands a t n) (hbelow : ∀ m, b.below m = a.below m)
    (hvalue : ∀ m v, a.value? m = some v →
      ∃ w, b.value? m = some w ∧ w.kind = v.kind ∧ w.token = v.token) : Stands b t n := by
  refine children_induction (P := Stands b) ?_ h
  intro t n h ih
  obtain ⟨hv, hk, ht, -⟩ := h
  obtain ⟨w, hw, hwk, hwt⟩ := hvalue _ _ hv
  exact .intro hw (hwk.trans hk) (hwt.trans ht) (by rwa [hbelow])

/-- The same trails lead down, and to nodes that stand for what they lead to. -/
theorem at? (h : Stands a t root) (trail : Trail) :
    Option.Rel (Stands a) (t.at? trail) (a.at? root trail) := by
  induction trail with
  | nil => exact .some h
  | cons i trail ih =>
    rw [Tree.at?_cons, Linked.at?_cons]
    generalize t.at? trail = x, a.at? root trail = y at ih
    cases ih with
    | none => exact .none
    | some hu =>
      obtain ⟨-, -, -, hc⟩ := hu
      simp only [Option.bind_some]
      generalize a.below _ = ns at hc
      generalize children _ = ts at hc
      induction hc generalizing i with
      | nil => exact .none
      | cons hm _ ih' =>
        cases i with
        | zero => exact .some hm
        | succ i => simpa using ih' i

theorem isSome_at? (h : Stands a t root) (trail : Trail) :
    (a.at? root trail).isSome = (t.at? trail).isSome := by
  have hat := h.at? trail
  generalize t.at? trail = x, a.at? root trail = y at hat
  cases hat <;> rfl

theorem exists_at? {trail : Trail} {u : Tree} (h : Stands a t root) (hu : t.at? trail = some u) :
    ∃ n, a.at? root trail = some n ∧ Stands a u n := by
  have hat := h.at? trail
  rw [hu] at hat
  generalize a.at? root trail = y at hat
  cases hat with
  | some hn => exact ⟨_, rfl, hn⟩

/-- Place by place, a walk lists the nodes of the recursive pre-order. -/
theorem forall₂_walk {trail : Trail} (h : Stands a t n) (hn : a.at? root trail = some n) :
    List.Forall₂ (fun m x => a.at? root x.1 = some m ∧ Stands a x.2 m)
      (a.walk n) (t.places trail) := by
  rw [Linked.walk_eq_preorder]
  refine children_induction (P := fun t n => ∀ trail, a.at? root trail = some n →
    List.Forall₂ (fun m x => a.at? root x.1 = some m ∧ Stands a x.2 m)
      (a.preorder n) (t.places trail)) ?_ h trail hn
  intro t n h ih trail hn
  rw [Linked.preorder_eq, places_eq]
  refine .cons ⟨hn, h⟩ ?_
  have hat (j : Nat) : a.at? root ((0 + j) :: trail) = (a.below n)[j]? := by
    rw [Nat.zero_add, Linked.at?_cons, hn]
    rfl
  generalize a.below n = ns at ih hat
  generalize t.children = ts at ih
  generalize 0 = i at hat
  induction ih generalizing i with
  | nil => exact .nil
  | cons hm _ ih' =>
    rw [List.flatMap_cons, placesOf]
    refine List.rel_append (hm (i :: trail) (hat 0)) (ih' (i + 1) fun j => ?_)
    rw [Nat.add_right_comm]
    exact hat (j + 1)

theorem map_walk {trail : Trail} (h : Stands a t n) (hn : a.at? root trail = some n) :
    (a.walk n).map some = (t.places trail).map fun x => a.at? root x.1 := by
  have hwalk := h.forall₂_walk hn
  generalize a.walk n = ms at hwalk
  generalize t.places trail = xs at hwalk
  induction hwalk with
  | nil => rfl
  | cons hm _ ih => rw [List.map_cons, List.map_cons, hm.1, ih]

theorem map_terminals {trail : Trail} (h : Stands a t n) (hn : a.at? root trail = some n) :
    (terminals a n).map some = (t.leaves trail).map fun x => a.at? root x.1 := by
  have hwalk := h.forall₂_walk hn
  rw [terminals, leaves_eq_filterMap]
  generalize a.walk n = ms at hwalk
  generalize t.places trail = xs at hwalk
  induction hwalk with
  | nil => rfl
  | @cons m x ms xs hm _ ih =>
    have htoken := hm.2.tokenAt?_eq
    cases hx : x.2.token? with
    | none => simpa [htoken, hx] using ih
    | some y => simpa [htoken, hx, hm.1] using ih

theorem length_terminals {trail : Trail} (h : Stands a t n) (hn : a.at? root trail = some n) :
    (terminals a n).length = t.tokens.length := by
  have hlength := congrArg List.length (h.map_terminals hn)
  rw [List.length_map, List.length_map] at hlength
  rw [hlength, ← map_leaves trail t, List.length_map]

theorem filterMap_terminals (a : Linked Node) (n : Nat) :
    (terminals a n).filterMap (tokenAt? a) = tokensBelow a n := by
  rw [terminals, List.filterMap_filter, tokensBelow]
  congr 1
  funext m
  cases tokenAt? a m <;> rfl

theorem textAt_eq (h : Stands a t n) : textAt a n = t.text := by
  have htoken := h.tokenAt?_eq
  unfold textAt
  rw [filterMap_terminals, h.tokensBelow_eq, htoken]
  cases t with
  | leaf x => simp [token?, text, tokens]
  | node k cs => rfl

end Stands

end Mykt.Tree
