import Mykt.Proofs.Tree.Standing

/-!
Linked nodes and the trees that they are made from. Main statements: the nodes that are made stand
for the tree, each linked to the node that holds it; when all are finished, each begins and ends with
the first and the last token below it.
-/

namespace Mykt.Tree

/-! Making nodes -/

/-- Behind each number in a list stand the children of its node, and the number does not. -/
def ParentsFirst (a : Linked Node) : List Nat → Prop
  | [] => True
  | n :: ns => n ∉ ns ∧ (∀ c ∈ a.below n, c ∈ ns) ∧ ParentsFirst a ns

/-- The nodes on a stack are those of their trees, and have no children yet. -/
structure Ready (a : Linked Node) (stack : List (Nat × Raw)) : Prop where
  nodup : (stack.map (·.1)).Nodup
  bare : ∀ x ∈ stack, a.value? x.1 = some x.2.node ∧ a.below x.1 = []

/-- What there is when the stack is empty, and in which order nodes have left it. -/
structure Grown (a : Linked Node) (stack : List (Nat × Raw)) (b : Linked Node)
    (order : List Nat) : Prop where
  size_le : a.size ≤ b.size
  value?_eq : ∀ m < a.size, b.value? m = a.value? m
  above?_eq : ∀ m < a.size, b.above? m = a.above? m
  below_eq : ∀ m < a.size, m ∉ stack.map (·.1) → b.below m = a.below m
  stands : ∀ x ∈ stack, Stands b x.2.tree x.1
  mem_order : ∀ x ∈ stack, x.1 ∈ order
  order_cases : ∀ m ∈ order, m ∈ stack.map (·.1) ∨ a.size ≤ m
  parentsFirst : ParentsFirst b order
  /-- A leaf begins and ends with its token, another node not yet. -/
  unfinished : ∀ m ∈ order, ∃ v, b.value? m = some v ∧ v.start = v.token ∧ v.stop = v.token ∧
    (v.token = none ∨ b.below m = [])

section

variable {a b : Linked Node} {n : Nat} {r : Raw} {stack : List (Nat × Raw)} {order : List Nat}

/-- The children of a tree with the numbers that their nodes get. -/
def numbered (a : Linked Node) (r : Raw) : List (Nat × Raw) :=
  (a.next r.children.length).zip r.children

theorem map_fst_numbered : (numbered a r).map (·.1) = a.next r.children.length :=
  List.map_fst_zip (by simp [Linked.next])

theorem map_fst_pushed : ((numbered a r).reverse ++ stack).map (·.1) =
    (a.next r.children.length).reverse ++ stack.map (·.1) := by
  rw [List.map_append, List.map_reverse, map_fst_numbered]

theorem mem_numbered {x : Nat × Raw} (h : x ∈ numbered a r) :
    ∃ i, x.1 = a.size + i ∧ r.children[i]? = some x.2 := by
  obtain ⟨i, hi⟩ := List.mem_iff_getElem?.1 h
  obtain ⟨hn, hr⟩ := List.getElem?_zip_eq_some.1 hi
  refine ⟨i, ?_, hr⟩
  rw [Linked.next, List.getElem?_range' (List.getElem?_eq_some_iff.1 hr).1] at hn
  simpa [eq_comm] using hn

theorem Ready.lt_size (h : Ready a stack) : ∀ m ∈ stack.map (·.1), m < a.size := by
  intro m hm
  obtain ⟨x, hx, rfl⟩ := List.mem_map.1 hm
  exact Linked.lt_size_of_value? (h.bare x hx).1

theorem Ready.step (h : Ready a ((n, r) :: stack)) :
    Ready (a.hang n (r.children.map Raw.node)) ((numbered a r).reverse ++ stack) := by
  obtain ⟨hn, hstack⟩ := List.nodup_cons.1 h.nodup
  have hlt : n < a.size := h.lt_size n List.mem_cons_self
  constructor
  · rw [map_fst_pushed]
    refine List.Nodup.append (List.nodup_reverse.2 List.nodup_range') hstack ?_
    intro m hm hm'
    have := h.lt_size m (List.mem_cons_of_mem _ hm')
    have := (Linked.mem_next.1 (List.mem_reverse.1 hm)).1
    omega
  · intro x hx
    rw [Linked.value?_hang hlt, Linked.below_hang hlt]
    rcases List.mem_append.1 hx with hx | hx
    · obtain ⟨i, hi, hr⟩ := mem_numbered (List.mem_reverse.1 hx)
      rw [if_neg (by omega), if_neg (by omega), Linked.below_eq_nil (by omega)]
      simp [hi, hr]
    · have hm := List.mem_map_of_mem (f := (·.1)) hx
      have hne : n ≠ x.1 := fun he => hn (he ▸ hm)
      rw [if_pos (h.lt_size x.1 (List.mem_cons_of_mem _ hm)), if_neg hne]
      exact h.bare x (List.mem_cons_of_mem _ hx)

theorem Raw.kind_node (r : Raw) : r.node.kind = r.tree.kind := by
  cases r <;> simp [node, tree, Tree.kind]

theorem Raw.token_node (r : Raw) : r.node.token = r.tree.token? := by
  cases r <;> simp [node, tree, token?]

theorem Raw.children_tree (r : Raw) : r.tree.children = r.children.map tree := by
  cases r <;> simp [tree, Tree.children, children, trees_eq_map]

/-! When a node leaves the stack, its children come onto it, and no other node changes. -/

namespace Grown

variable (h : Ready a ((n, r) :: stack))
  (hg : Grown (a.hang n (r.children.map Raw.node)) ((numbered a r).reverse ++ stack) b order)

include h hg

theorem value?_of_lt {m : Nat} (hm : m < a.size) : b.value? m = a.value? m := by
  have hlt : n < a.size := h.lt_size n List.mem_cons_self
  rw [hg.value?_eq m (by rw [Linked.size_hang hlt]; omega), Linked.value?_hang hlt, if_pos hm]

theorem above?_of_lt {m : Nat} (hm : m < a.size) : b.above? m = a.above? m := by
  have hlt : n < a.size := h.lt_size n List.mem_cons_self
  rw [hg.above?_eq m (by rw [Linked.size_hang hlt]; omega), Linked.above?_hang hlt, if_pos hm]

theorem below_of_notMem {m : Nat} (hm : m < a.size) (hs : m ∉ stack.map (·.1)) :
    b.below m = if n = m then a.next r.children.length else a.below m := by
  have hlt : n < a.size := h.lt_size n List.mem_cons_self
  have hbare : a.below n = [] := (h.bare (n, r) List.mem_cons_self).2
  rw [hg.below_eq m (by rw [Linked.size_hang hlt]; omega), Linked.below_hang hlt, hbare,
    List.nil_append, List.length_map]
  rw [map_fst_pushed, List.mem_append, List.mem_reverse, Linked.mem_next]
  rintro (hm' | hm')
  · omega
  · exact hs hm'

theorem below_top : b.below n = a.next r.children.length := by
  rw [below_of_notMem h hg (h.lt_size n List.mem_cons_self) (List.nodup_cons.1 h.nodup).1,
    if_pos rfl]

theorem mem_stack_or_le {m : Nat} (hm : m ∈ order) : m ∈ stack.map (·.1) ∨ a.size ≤ m := by
  rcases hg.order_cases m hm with hm | hm
  · rw [map_fst_pushed, List.mem_append, List.mem_reverse, Linked.mem_next] at hm
    rcases hm with hm | hm
    · exact .inr hm.1
    · exact .inl hm
  · rw [Linked.size_hang (h.lt_size n List.mem_cons_self)] at hm
    exact .inr (by omega)

theorem notMem_order : n ∉ order := by
  intro hm
  rcases mem_stack_or_le h hg hm with hm | hm
  · exact (List.nodup_cons.1 h.nodup).1 hm
  · have := h.lt_size n List.mem_cons_self
    omega

theorem mem_order_of_below {c : Nat} (hc : c ∈ b.below n) : c ∈ order := by
  rw [below_top h hg, ← map_fst_numbered] at hc
  obtain ⟨x, hx, rfl⟩ := List.mem_map.1 hc
  exact hg.mem_order x (List.mem_append_left _ (List.mem_reverse.2 hx))

theorem value?_top : b.value? n = some r.node :=
  (value?_of_lt h hg (h.lt_size n List.mem_cons_self)).trans (h.bare (n, r) List.mem_cons_self).1

theorem stands_top : Stands b r.tree n := by
  refine .intro (value?_top h hg) r.kind_node r.token_node ?_
  rw [r.children_tree, below_top h hg, List.forall₂_map_left_iff, List.forall₂_iff_zip]
  refine ⟨by simp [Linked.next], ?_⟩
  intro s m hs
  have hx : (m, s) ∈ numbered a r := by
    rw [numbered, ← List.zip_swap]
    exact List.mem_map.2 ⟨(s, m), hs, rfl⟩
  exact hg.stands (m, s) (List.mem_append_left _ (List.mem_reverse.2 hx))

theorem step : Grown a ((n, r) :: stack) b (n :: order) where
  size_le := by
    have hsize := hg.size_le
    rw [Linked.size_hang (h.lt_size n List.mem_cons_self)] at hsize
    omega
  value?_eq := fun _ hm => value?_of_lt h hg hm
  above?_eq := fun _ hm => above?_of_lt h hg hm
  below_eq := by
    intro m hm hs
    rw [List.map_cons, List.mem_cons, not_or] at hs
    rw [below_of_notMem h hg hm hs.2, if_neg (Ne.symm hs.1)]
  stands := by
    intro x hx
    rcases List.mem_cons.1 hx with rfl | hx
    · exact stands_top h hg
    · exact hg.stands x (List.mem_append_right _ hx)
  mem_order := by
    intro x hx
    rcases List.mem_cons.1 hx with rfl | hx
    · exact List.mem_cons_self
    · exact List.mem_cons_of_mem _ (hg.mem_order x (List.mem_append_right _ hx))
  order_cases := by
    intro m hm
    rcases List.mem_cons.1 hm with rfl | hm
    · exact .inl List.mem_cons_self
    · exact (mem_stack_or_le h hg hm).imp_left (List.mem_cons_of_mem _)
  parentsFirst := ⟨notMem_order h hg, fun _ hc => mem_order_of_below h hg hc, hg.parentsFirst⟩
  unfinished := by
    intro m hm
    rcases List.mem_cons.1 hm with rfl | hm
    · refine ⟨r.node, value?_top h hg, ?_⟩
      rw [below_top h hg]
      cases r <;> simp [Raw.node, Raw.children, Linked.next]
    · exact hg.unfinished m hm

end Grown

theorem grown_grow (h : Ready a stack) : Grown a stack (grow a stack).1 (grow a stack).2 := by
  fun_induction grow a stack with
  | case1 a =>
    refine ⟨Nat.le_refl _, ?_, ?_, ?_, ?_, ?_, ?_, trivial, ?_⟩ <;> simp
  | case2 a n r stack made rest ih => exact .step h (ih h.step)

theorem tidy_grow {root : Nat} (h : a.Tidy root) : (grow a stack).1.Tidy root := by
  fun_induction grow a stack with
  | case1 a => exact h
  | case2 a n r stack made rest ih => exact ih (h.hang n _)

end

theorem ParentsFirst.mem_of_reaches {a : Linked Node} {order : List Nat} {n m : Nat}
    (h : ParentsFirst a order) (hn : n ∈ order) (hm : a.Reaches n m) : m ∈ order := by
  have hclosed (order : List Nat) (h : ParentsFirst a order) :
      ∀ p ∈ order, ∀ c ∈ a.below p, c ∈ order := by
    induction order with
    | nil => simp
    | cons x order ih =>
      obtain ⟨-, hx, h⟩ := h
      intro p hp c hc
      rcases List.mem_cons.1 hp with rfl | hp
      · exact List.mem_cons_of_mem _ (hx c hc)
      · exact List.mem_cons_of_mem _ (ih h p hp c hc)
  induction hm with
  | refl => exact hn
  | tail _ hc ih => exact hclosed order h _ ih _ hc

/-! Finishing nodes -/

section

variable (a : Linked Node) (n m : Nat)

@[simp] theorem below_finish : (finish a n).below m = a.below m := by
  unfold finish
  split <;> simp

@[simp] theorem above?_finish : (finish a n).above? m = a.above? m := by
  unfold finish
  split <;> simp

theorem value?_finish_of_ne (h : n ≠ m) : (finish a n).value? m = a.value? m := by
  unfold finish
  split
  · rfl
  · rw [Linked.value?_modify, if_neg h]

end

/-- Finishes nodes, the last one first. -/
def finishAll (a : Linked Node) (order : List Nat) : Linked Node :=
  order.foldr (fun n a => finish a n) a

section

variable (a : Linked Node) (order : List Nat) (m : Nat)

@[simp] theorem below_finishAll : (finishAll a order).below m = a.below m := by
  induction order with
  | nil => rfl
  | cons n order ih => exact (below_finish _ n m).trans ih

@[simp] theorem above?_finishAll : (finishAll a order).above? m = a.above? m := by
  induction order with
  | nil => rfl
  | cons n order ih => exact (above?_finish _ n m).trans ih

theorem value?_finishAll_of_notMem (h : m ∉ order) : (finishAll a order).value? m = a.value? m := by
  induction order with
  | nil => rfl
  | cons n order ih =>
    rw [List.mem_cons, not_or] at h
    exact (value?_finish_of_ne _ n m (Ne.symm h.1)).trans (ih h.2)

end

theorem value?_finish {a : Linked Node} {m : Nat} {v : Node} (n : Nat) (h : a.value? m = some v) :
    ∃ w, (finish a n).value? m = some w ∧ w.kind = v.kind ∧ w.token = v.token := by
  unfold finish
  split
  · exact ⟨v, h, rfl, rfl⟩
  · rw [Linked.value?_modify, h]
    split
    · exact ⟨_, rfl, rfl, rfl⟩
    · exact ⟨v, rfl, rfl, rfl⟩

/-- Nodes keep their kinds and tokens. -/
theorem Stands.finishAll {a : Linked Node} {t : Tree} {n : Nat} (h : Stands a t n)
    (order : List Nat) : Stands (finishAll a order) t n := by
  induction order with
  | nil => exact h
  | cons m order ih => exact ih.congr (below_finish _ m) fun _ _ hv => value?_finish m hv

/-- A node whose tokens are told. -/
def Node.over (v : Node) (ts : List Token) : Node :=
  { v with start := ts.head?, stop := ts.getLast? }

theorem findSome?_eq_head?_flatMap {α β γ : Type} {f : α → Option β} {g : β → Option γ}
    {k : α → List γ} {xs : List α} (h : ∀ x ∈ xs, ∃ y, f x = some y ∧ g y = (k x).head?) :
    (xs.filterMap f).findSome? g = (xs.flatMap k).head? := by
  induction xs with
  | nil => rfl
  | cons x xs ih =>
    obtain ⟨y, hy, hg⟩ := h x List.mem_cons_self
    rw [List.filterMap_cons_some hy, List.findSome?_cons, List.flatMap_cons, List.head?_append, hg,
      ih fun x hx => h x (List.mem_cons_of_mem _ hx)]
    cases (k x).head? <;> rfl

/-- A node over finished children spans what they span. -/
theorem spanning_eq_over {a b : Linked Node} {ns : List Nat} (v : Node)
    (h : ∀ c ∈ ns, ∃ w : Node, b.value? c = some (w.over (tokensBelow a c))) :
    v.spanning (ns.filterMap b.value?) = v.over (ns.flatMap (tokensBelow a)) := by
  have hstart : (ns.filterMap b.value?).findSome? (·.start) =
      (ns.flatMap (tokensBelow a)).head? := by
    apply findSome?_eq_head?_flatMap
    intro c hc
    obtain ⟨w, hw⟩ := h c hc
    exact ⟨_, hw, rfl⟩
  have hstop : (ns.filterMap b.value?).reverse.findSome? (·.stop) =
      (ns.flatMap (tokensBelow a)).getLast? := by
    rw [← List.head?_reverse, List.reverse_flatMap, ← List.filterMap_reverse]
    apply findSome?_eq_head?_flatMap
    intro c hc
    obtain ⟨w, hw⟩ := h c (List.mem_reverse.1 hc)
    exact ⟨_, hw, by simp [Node.over]⟩
  rw [Node.spanning, Node.over, hstart, hstop]

/-- Every node of the list is finished, as each is finished after its children. -/
theorem value?_finishAll {a : Linked Node} {order : List Nat} (h : ParentsFirst a order)
    (hv : ∀ m ∈ order, ∃ v, a.value? m = some v ∧ v.start = v.token ∧ v.stop = v.token ∧
      (v.token = none ∨ a.below m = [])) :
    ∀ m ∈ order, (finishAll a order).value? m =
      (a.value? m).map (·.over (tokensBelow a m)) := by
  induction order with
  | nil => simp
  | cons n order ih =>
    obtain ⟨hn, hbelow, h⟩ := h
    have ih := ih h fun m hm => hv m (List.mem_cons_of_mem _ hm)
    intro m hm
    change (finish (finishAll a order) n).value? m = _
    by_cases he : n = m
    · subst he
      obtain ⟨v, hvn, hstart, hstop, hleaf⟩ := hv n List.mem_cons_self
      have hnow : (finishAll a order).value? n = some v :=
        (value?_finishAll_of_notMem a order n hn).trans hvn
      have htoken : tokenAt? a n = v.token := by rw [tokenAt?, hvn]; rfl
      rw [hvn, Option.map_some, tokensBelow_eq, htoken, finish]
      split
      · next hnil =>
        rw [below_finishAll] at hnil
        rw [hnow, hnil]
        obtain ⟨kind, start, stop, token⟩ := v
        obtain rfl : start = token := hstart
        obtain rfl : stop = start := hstop
        cases stop <;> rfl
      · next c cs hcons =>
        rw [below_finishAll] at hcons
        have hnone : v.token = none := hleaf.resolve_right (by simp [hcons])
        rw [Linked.value?_modify, if_pos rfl, hnow, Option.map_some, hnone, hcons,
          spanning_eq_over (a := a)]
        · rfl
        · intro c' hc'
          have hc'' := hbelow c' (hcons ▸ hc')
          obtain ⟨w, hw, -⟩ := hv c' (List.mem_cons_of_mem _ hc'')
          exact ⟨w, by rw [ih c' hc'', hw]; rfl⟩
    · rw [value?_finish_of_ne _ _ _ he]
      exact ih m ((List.mem_cons.1 hm).resolve_left (Ne.symm he))

/-! Linking a tree -/

theorem link_eq (a : Linked Node) (parent : Option (Fin a.size)) (r : Raw) :
    link a parent r = finishAll (grow (a.plant r.node parent) [(a.size, r)]).1
      (grow (a.plant r.node parent) [(a.size, r)]).2 := by
  rw [link, finishAll, List.foldl_reverse]

theorem ready_plant (a : Linked Node) (parent : Option (Fin a.size)) (r : Raw) :
    Ready (a.plant r.node parent) [(a.size, r)] where
  nodup := List.nodup_singleton _
  bare := by
    intro x hx
    obtain rfl := List.mem_singleton.1 hx
    simp [Linked.value?_plant, Linked.below_eq_nil]

section

variable (a : Linked Node) (parent : Option (Fin a.size)) (r : Raw)

theorem grown_plant : Grown (a.plant r.node parent) [(a.size, r)]
    (grow (a.plant r.node parent) [(a.size, r)]).1
    (grow (a.plant r.node parent) [(a.size, r)]).2 :=
  grown_grow (ready_plant a parent r)

theorem tidy_link : (link a parent r).Tidy a.size := by
  rw [link_eq]
  exact (tidy_grow ((Linked.Tidy.of_size a).plant r.node parent)).congr (above?_finishAll _ _)
    (below_finishAll _ _)

theorem stands_link : Stands (link a parent r) r.tree a.size := by
  rw [link_eq]
  exact ((grown_plant a parent r).stands (a.size, r) List.mem_cons_self).finishAll _

theorem above?_link {n : Nat} (h : n ≤ a.size) :
    (link a parent r).above? n = if n = a.size then parent.map (·.val) else a.above? n := by
  rw [link_eq, above?_finishAll, ← Linked.above?_plant a r.node]
  exact (grown_plant a parent r).above?_eq n (by rw [Linked.size_plant]; omega)

theorem chain_link :
    (link a parent r).chain a.size = a.size :: (parent.map fun p => a.chain p).getD [] := by
  have habove := above?_link a parent r (Nat.le_refl a.size)
  rw [if_pos rfl] at habove
  cases parent with
  | none => exact Linked.chain_of_root habove
  | some p =>
    have hchain : (link a (some p) r).chain p = a.chain p := by
      apply Linked.chain_congr
      intro m hm
      have := p.isLt
      rw [above?_link a _ r (by omega), if_neg (by omega)]
    exact (Linked.chain_of_above habove).trans (congrArg (List.cons a.size) hchain)

/-- The nodes that were there are as they were. -/
theorem link_of_lt {n : Nat} (h : n < a.size) :
    (link a parent r).value? n = a.value? n ∧ (link a parent r).above? n = a.above? n ∧
      (link a parent r).below n = a.below n := by
  have hg := grown_plant a parent r
  have hlt : n < (a.plant r.node parent).size := by rw [Linked.size_plant]; omega
  have hne : n ∉ [(a.size, r)].map (·.1) := by simp; omega
  refine ⟨?_, ?_, ?_⟩
  · rw [link_eq, value?_finishAll_of_notMem, hg.value?_eq n hlt, Linked.value?_plant,
      if_neg (by omega)]
    intro hm
    rcases hg.order_cases n hm with hm | hm
    · exact hne hm
    · omega
  · rw [above?_link a parent r (by omega), if_neg (by omega)]
  · rw [link_eq, below_finishAll, hg.below_eq n hlt hne, Linked.below_plant]

/-- At every place stands a node for the subtree, and it is finished. -/
theorem value?_link {trail : Trail} {t : Tree} (h : r.tree.at? trail = some t) :
    ∃ n, (link a parent r).at? a.size trail = some n ∧ Stands (link a parent r) t n ∧
      (link a parent r).value? n = some ⟨t.kind, t.tokens.head?, t.tokens.getLast?, t.token?⟩ := by
  have hg := grown_plant a parent r
  obtain ⟨n, hn, hs⟩ := (hg.stands (a.size, r) List.mem_cons_self).exists_at? h
  have hmem := hg.parentsFirst.mem_of_reaches (hg.mem_order (a.size, r) List.mem_cons_self)
    (Linked.reaches_of_at? hn)
  have htokens := hs.tokensBelow_eq
  rw [link_eq]
  refine ⟨n, (Linked.at?_congr (below_finishAll _ _) _ _).trans hn, hs.finishAll _, ?_⟩
  obtain ⟨hv, hk, ht, -⟩ := hs
  rw [value?_finishAll hg.parentsFirst hg.unfinished n hmem, hv, Option.map_some, Node.over, htokens,
    hk, ht]

end

/-- Linking a tree leaves the other nodes alone and makes nodes that stand for the tree, in one
place each, with the links of children and parents in accord. At every place the node has the kind
and the token of the subtree, begins and ends with its first and last token, and is walked, climbed
and read as the subtree is. -/
theorem link_mirrors_tree (a : Linked Node) (parent : Option (Fin a.size)) (r : Raw) :
    let b := link a parent r
    let root := a.size
    (∀ n < a.size, b.value? n = a.value? n ∧ b.above? n = a.above? n ∧ b.below n = a.below n) ∧
    b.above? root = parent.map (·.val) ∧
    (∀ n ∈ b.walk root, ∀ c ∈ b.below n, b.above? c = some n) ∧
    (b.walk root).Nodup ∧
    (∀ trail, (b.at? root trail).isSome = (r.tree.at? trail).isSome) ∧
    ∀ trail t, r.tree.at? trail = some t → ∃ n, b.at? root trail = some n ∧
      b.value? n = some ⟨t.kind, t.tokens.head?, t.tokens.getLast?, t.token?⟩ ∧
      (((b.value? n).bind (·.start) = none ↔ terminals b n = []) ∧
        ((b.value? n).bind (·.stop) = none ↔ terminals b n = [])) ∧
      (b.chain n).map some = (Trail.upward trail).map (b.at? root) ++
        ((parent.map fun p => a.chain p).getD []).map some ∧
      (b.walk n).map some = (t.places trail).map (fun x => b.at? root x.1) ∧
      (terminals b n).map some = (t.leaves trail).map (fun x => b.at? root x.1) ∧
      textAt b n = t.text := by
  intro b root
  have htidy : b.Tidy root := tidy_link a parent r
  refine ⟨fun n hn => link_of_lt a parent r hn, ?_, ?_, ?_, ?_, ?_⟩
  · rw [above?_link a parent r (Nat.le_refl a.size), if_pos rfl]
  · intro n hn c hc
    rw [Linked.walk_eq_preorder, Linked.mem_preorder_iff] at hn
    exact htidy.above?_of_mem n c hn.le hc
  · rw [Linked.walk_eq_preorder]
    exact htidy.nodup_preorder (Nat.le_refl root)
  · exact (stands_link a parent r).isSome_at?
  · intro trail t ht
    obtain ⟨n, hn, hstands, hvalue⟩ : ∃ n, b.at? root trail = some n ∧ Stands b t n ∧ _ :=
      value?_link a parent r ht
    have hterminals : t.tokens = [] ↔ terminals b n = [] := by
      rw [← List.length_eq_zero_iff, ← hstands.length_terminals hn, List.length_eq_zero_iff]
    refine ⟨n, hn, hvalue, ?_, ?_, hstands.map_walk hn, hstands.map_terminals hn, hstands.textAt_eq⟩
    · rw [hvalue, Option.bind_some, Option.bind_some, List.head?_eq_none_iff,
        List.getLast?_eq_none_iff]
      exact ⟨hterminals, hterminals⟩
    · rw [htidy.chain_eq_of_at? (Nat.le_refl root) hn, chain_link]
      rfl

end Mykt.Tree
