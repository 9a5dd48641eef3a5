import Mykt.Proofs.Grammar.Shape
import Mykt.Proofs.Scope.Layout

/-!
What the visit of a tree adds to a table. Main statement: a visit succeeds exactly when all
declarations of the tree have ranges, as in every short text; it then adds to the global scope a
portion that is computed from the tree alone and from how many scopes were there before.
-/

namespace Mykt

namespace Tree

/-- Any two tokens of a tree span a range. -/
def HasSpans (t : Tree) : Prop := ∀ x ∈ t.tokens, ∀ y ∈ t.tokens, ∃ r, Range.ofTokens x y = .ok r

theorem hasSpans_of_parse {source : String} {t : Tree} (h : parse source = .ok t)
    (hs : source.length ≤ Position.limit) : t.HasSpans := by
  intro x hx y hy
  rw [← String.length_toList] at hs
  exact (standsIn_of_parse h hx).ofTokens_eq_ok (standsIn_of_parse h hy) hs

theorem HasSpans.mono {t u : Tree} (h : t.HasSpans) (hu : u.tokens ⊆ t.tokens) : u.HasSpans := by
  intro x hx y hy
  exact h x (hu hx) y (hu hy)

theorem HasSpans.exists_range {t : Tree} (h : t.HasSpans) {x : Token} (hx : x ∈ t.tokens) :
    ∃ r, t.range = .ok r := by
  have hne : t.tokens ≠ [] := List.ne_nil_of_mem hx
  obtain ⟨r, hr⟩ := h _ (List.head_mem hne) _ (List.getLast_mem hne)
  refine ⟨r, ?_⟩
  simp only [range, first?_eq, last?_eq, List.head?_eq_some_head hne,
    List.getLast?_eq_some_getLast hne, hr]
  rfl

/-- A tree that follows the grammar and all of whose declarations have a place. -/
inductive IsRanged : Tree → Prop where
  | terminal {x : Token} (h : (leaf x).Conforms) : IsRanged (leaf x)
  | rule {k : Kind} {cs : List Tree} (h : (node k cs).Conforms)
      (hl : Fold.declares k ≠ none → ∃ name range nameRange,
        (node k cs).child? (.rule .simpleIdentifier) = some name ∧
        (node k cs).range = .ok range ∧ name.range = .ok nameRange)
      (hc : ∀ c ∈ cs, IsRanged c) : IsRanged (node k cs)

theorem IsRanged.conforms {t : Tree} (h : t.IsRanged) : t.Conforms := by
  cases h with
  | terminal h | rule h => exact h

theorem IsRanged.of_mem {k : Kind} {cs : List Tree} {c : Tree} (h : (node k cs).IsRanged)
    (hc : c ∈ cs) : c.IsRanged := by
  cases h with
  | rule _ _ hcs => exact hcs c hc

theorem HasSpans.isRanged {t : Tree} (h : t.HasSpans) (ht : t.Conforms) : t.IsRanged := by
  induction ht with
  | leaf hk => exact .terminal (.leaf hk)
  | @node r cs hd hcs ih =>
    have below (c : Tree) (hc : c ∈ cs) : c.HasSpans := h.mono (tokens_subset_of_mem hc)
    have ranged : ∀ c ∈ cs, c.IsRanged := by
      intro c hc
      exact ih c hc (below c hc)
    refine .rule (.node hd hcs) ?_ ranged
    intro hk
    obtain ⟨kind, hk⟩ := Option.ne_none_iff_exists'.1 hk
    obtain ⟨n, -, hchild⟩ := exists_name_of_declares hk hd
    have hmem : ofName n ∈ cs := List.mem_of_find?_eq_some hchild
    obtain ⟨range, hrange⟩ := h.exists_range (x := n) (tokens_subset_of_mem hmem (by simp))
    obtain ⟨nameRange, hname⟩ := (below _ hmem).exists_range (x := n) (by simp)
    exact ⟨_, range, nameRange, hchild, hrange, hname⟩

theorem isRanged_of_parse {source : String} {t : Tree} (h : parse source = .ok t)
    (hs : source.length ≤ Position.limit) : t.IsRanged :=
  (hasSpans_of_parse h hs).isRanged (conforms_of_parse h).1

end Tree

namespace Fold

theorem locate_eq_ok {uri : String} {t name : Tree} {range nameRange : Range}
    (hc : t.child? (.rule .simpleIdentifier) = some name) (hr : t.range = .ok range)
    (hn : name.range = .ok nameRange) :
    locate uri t = .ok (name.text, ⟨uri, range, nameRange⟩) := by
  simp [locate, hc, hr, hn]

theorem exists_of_locate_eq_ok {uri : String} {t : Tree} {found : String × Location}
    (h : locate uri t = .ok found) : ∃ name range nameRange,
      t.child? (.rule .simpleIdentifier) = some name ∧ t.range = .ok range ∧
      name.range = .ok nameRange := by
  unfold locate at h
  split at h
  · cases h
  · next name hc =>
    split at h
    · cases h
    · cases h
    · next range nameRange hr hn => exact ⟨name, range, nameRange, hc, hr, hn⟩

end Fold

/-- The name of a declaration, and where the declaration and its name stand. -/
theorem Tree.IsRanged.exists_locate {k : Kind} {kind : SymbolKind} {cs : List Tree}
    (h : (Tree.node k cs).IsRanged) (hk : Fold.declares k = some kind) (uri : String) :
    ∃ n range nameRange, n.isName = true ∧
      (Tree.node k cs).child? (.rule .simpleIdentifier) = some (.ofName n) ∧
      (Tree.node k cs).range = .ok range ∧ (Tree.ofName n).range = .ok nameRange ∧
      Fold.locate uri (.node k cs) = .ok (n.text, ⟨uri, range, nameRange⟩) := by
  cases h with
  | rule hc hl _ =>
    obtain ⟨name, range, nameRange, hchild, hr, hn⟩ := hl (by simp [hk])
    cases hc with
    | node hd _ =>
      obtain ⟨n, hname, hchild'⟩ := exists_name_of_declares hk hd
      cases hchild.symm.trans hchild'
      refine ⟨n, range, nameRange, hname, hchild, hr, hn, ?_⟩
      rw [Fold.locate_eq_ok hchild hr hn, Tree.text_ofName]

namespace Tree

open Scope

mutual

/-- What a tree at a trail adds to a scope that holds `n` scopes. -/
def portion (document : Nat) (uri : String) (trail scope : Trail) (n : Nat) : Tree → Portion
  | leaf _ => .empty
  | node k cs =>
    match Fold.declares k, Fold.locate uri (node k cs) with
    | none, _ => portionOf document uri trail scope n 0 cs
    | some _, .error _ => .empty
    | some .value, .ok (name, location) =>
      ⟨[⟨name, .value, some location, none⟩], []⟩ ++ portionOf document uri trail scope n 0 cs
    | some .parameter, .ok (name, location) => ⟨[⟨name, .parameter, some location, none⟩], []⟩
    | some .routine, .ok (name, location) =>
      ⟨[⟨name, .routine, some location, some (n :: scope)⟩],
        [(Scope.mk (some ⟨document, trail, k⟩) [] []).absorb
          (portionOf document uri trail (n :: scope) 0 0 cs)]⟩

def portionOf (document : Nat) (uri : String) (trail scope : Trail) (n index : Nat) :
    List Tree → Portion
  | [] => .empty
  | t :: ts =>
    portion document uri (index :: trail) scope n t ++
      portionOf document uri trail scope
        (n + (portion document uri (index :: trail) scope n t).inner.length) (index + 1) ts

end

end Tree

namespace SymbolTable

/-- The table with a portion added to one scope. -/
def addAt (table : SymbolTable) (scope : Trail) (x : Scope.Portion) : SymbolTable :=
  { table with root := table.root.modifyAt scope (·.absorb x) }

@[simp] theorem visits_addAt (table : SymbolTable) (scope : Trail) (x : Scope.Portion) :
    (table.addAt scope x).visits = table.visits := rfl

theorem addAt_empty (table : SymbolTable) (scope : Trail) : table.addAt scope .empty = table := by
  have h : (fun s : Scope => s.absorb .empty) = id := funext Scope.absorb_empty
  simp [addAt, h, Scope.modifyAt_id]

theorem addAt_addAt (table : SymbolTable) (scope : Trail) (x y : Scope.Portion) :
    (table.addAt scope x).addAt scope y = table.addAt scope (x ++ y) := by
  have h : (fun s : Scope => s.absorb y) ∘ (fun s : Scope => s.absorb x) =
      fun s => s.absorb (x ++ y) := funext fun s => Scope.absorb_absorb s x y
  simp [addAt, Scope.modifyAt_modifyAt, h]

theorem at?_addAt (table : SymbolTable) (scope : Trail) (x : Scope.Portion) :
    (table.addAt scope x).root.at? scope = (table.root.at? scope).map (·.absorb x) :=
  Scope.at?_modifyAt _ scope table.root

/-- The scope that is opened last is found behind those that were there. -/
theorem at?_opened {table : SymbolTable} {scope : Trail} {s u : Scope} {ss : List Symbol}
    (hs : table.root.at? scope = some s) :
    (table.addAt scope ⟨ss, [u]⟩).root.at? (s.inner.length :: scope) = some u := by
  rw [Scope.at?_cons, at?_addAt, hs]
  simp

/-- What is added to a scope that was opened last could have been there when it was opened. -/
theorem addAt_opened {table : SymbolTable} {scope : Trail} {s u : Scope} {ss : List Symbol}
    {x : Scope.Portion} (hs : table.root.at? scope = some s) :
    (table.addAt scope ⟨ss, [u]⟩).addAt (s.inner.length :: scope) x =
      table.addAt scope ⟨ss, [u.absorb x]⟩ := by
  simp only [addAt, Scope.modifyAt_cons, Scope.modifyAt_modifyAt, SymbolTable.mk.injEq, and_true]
  refine Scope.modifyAt_congr hs ?_
  simp [Scope.modifyInner, Scope.absorb, List.modify_eq_take_drop]

end SymbolTable

namespace Fold

theorem table_define (f : Fold) (scope : Trail) (x : Symbol) :
    (f.define scope x).table = f.table.addAt scope ⟨[x], []⟩ := by
  simp [define, SymbolTable.addAt, Scope.define_eq_absorb]

theorem table_openInner (f : Fold) (scope : Trail) (a : Anchor) :
    (f.openInner scope a).table = f.table.addAt scope ⟨[], [.mk (some a) [] []]⟩ := by
  simp [openInner, SymbolTable.addAt, Scope.openInner_eq_absorb]

theorem nextInner_eq {f : Fold} {scope : Trail} {s : Scope}
    (hs : f.table.root.at? scope = some s) : f.nextInner scope = s.inner.length :: scope := by
  simp [nextInner, hs]

section

variable {uri : String} {trail scope inner : Trail} {k : Kind} {cs ts : List Tree} {f f' : Fold}

theorem visitTree_of_enter_some
    (h : enter uri trail scope (.node k cs) f = .ok (some inner) f') :
    visitTree uri trail scope (.node k cs) f = visitAll uri trail inner 0 cs f' := by
  simp only [visitTree, bind, EStateM.bind, h]

theorem visitTree_of_enter_none (h : enter uri trail scope (.node k cs) f = .ok none f') :
    visitTree uri trail scope (.node k cs) f = .ok () f' := by
  simp only [visitTree, bind, EStateM.bind, h]
  rfl

theorem visitAll_of_visitTree {index : Nat}
    (h : visitTree uri (index :: trail) scope (.node k cs) f = .ok () f') :
    visitAll uri trail scope index (.node k cs :: ts) f =
      visitAll uri trail scope (index + 1) ts f' := by
  simp only [visitAll, bind, EStateM.bind, h]

end

mutual

/-- A visit adds the portion of the tree to the scope that it starts in. -/
theorem visitTree_eq (uri : String) (trail scope : Trail) (t : Tree) (ht : t.IsRanged) (f : Fold)
    (s : Scope) (hs : f.table.root.at? scope = some s) :
    ∃ f', visitTree uri trail scope t f = .ok () f' ∧
      f'.table =
        f.table.addAt scope (t.portion f.table.visits uri trail scope s.inner.length) := by
  cases t with
  | leaf x =>
    cases ht.conforms with
    | leaf hk =>
      refine ⟨f, ?_, ?_⟩
      · simp [visitTree, enter, Tree.kind, hk, declares, bind, EStateM.bind, pure, EStateM.pure]
      · rw [Tree.portion, SymbolTable.addAt_empty]
  | node k cs =>
    have below : ∀ c ∈ cs, c.IsRanged := by
      intro c hc
      exact ht.of_mem hc
    cases hk : declares k with
    | none =>
      have henter : enter uri trail scope (.node k cs) f = .ok (some scope) f := by
        simp [enter, Tree.kind, hk, pure, EStateM.pure]
      obtain ⟨f', hv, hf⟩ := visitAll_eq uri trail scope 0 cs below f s hs
      refine ⟨f', by rw [visitTree_of_enter_some henter, hv], ?_⟩
      rw [hf, Tree.portion, hk]
    | some kind =>
      obtain ⟨n, range, nameRange, -, -, -, -, hl⟩ := ht.exists_locate hk uri
      cases kind with
      | value =>
        let f₁ := f.define scope ⟨n.text, .value, some ⟨uri, range, nameRange⟩, none⟩
        have henter : enter uri trail scope (.node k cs) f = .ok (some scope) f₁ := by
          simp [enter, Tree.kind, hk, declare, hl, f₁]
        have hs₁ := SymbolTable.at?_addAt f.table scope
          ⟨[⟨n.text, .value, some ⟨uri, range, nameRange⟩, none⟩], []⟩
        rw [← table_define, hs] at hs₁
        obtain ⟨f', hv, hf⟩ := visitAll_eq uri trail scope 0 cs below f₁ _ hs₁
        refine ⟨f', by rw [visitTree_of_enter_some henter, hv], ?_⟩
        rw [hf, table_define, SymbolTable.addAt_addAt, Tree.portion, hk, hl]
        simp
      | parameter =>
        let f₁ := f.define scope ⟨n.text, .parameter, some ⟨uri, range, nameRange⟩, none⟩
        have henter : enter uri trail scope (.node k cs) f = .ok none f₁ := by
          simp [enter, Tree.kind, hk, declare, hl, f₁]
        refine ⟨f₁, visitTree_of_enter_none henter, ?_⟩
        rw [table_define, Tree.portion, hk, hl]
      | routine =>
        let inner := s.inner.length :: scope
        let x : Symbol := ⟨n.text, .routine, some ⟨uri, range, nameRange⟩, some inner⟩
        let u : Scope := .mk (some ⟨f.table.visits, trail, k⟩) [] []
        let f₁ := (f.define scope x).openInner scope ⟨f.table.visits, trail, k⟩
        have henter : enter uri trail scope (.node k cs) f = .ok (some inner) f₁ := by
          simp [enter, Tree.kind, hk, declare, hl, f₁, x, inner, nextInner_eq hs, define]
        have hf₁ : f₁.table = f.table.addAt scope ⟨[x], [u]⟩ := by
          rw [table_openInner, table_define, SymbolTable.addAt_addAt]
          rfl
        have hs₁ : f₁.table.root.at? inner = some u := by
          rw [hf₁]
          exact SymbolTable.at?_opened hs
        obtain ⟨f', hv, hf⟩ := visitAll_eq uri trail inner 0 cs below f₁ u hs₁
        refine ⟨f', by rw [visitTree_of_enter_some henter, hv], ?_⟩
        rw [hf, hf₁, SymbolTable.addAt_opened hs, Tree.portion, hk, hl]
        rfl

theorem visitAll_eq (uri : String) (trail scope : Trail) (index : Nat) (ts : List Tree)
    (ht : ∀ t ∈ ts, t.IsRanged) (f : Fold) (s : Scope)
    (hs : f.table.root.at? scope = some s) :
    ∃ f', visitAll uri trail scope index ts f = .ok () f' ∧
      f'.table = f.table.addAt scope
        (Tree.portionOf f.table.visits uri trail scope s.inner.length index ts) := by
  cases ts with
  | nil => exact ⟨f, rfl, by rw [Tree.portionOf, SymbolTable.addAt_empty]⟩
  | cons t ts =>
    simp only [List.mem_cons, forall_eq_or_imp] at ht
    cases t with
    | leaf x =>
      obtain ⟨f', hv, hf⟩ := visitAll_eq uri trail scope (index + 1) ts ht.2 f s hs
      exact ⟨f', hv, by rw [hf, Tree.portionOf, Tree.portion]; rfl⟩
    | node k cs =>
      obtain ⟨f₁, hv₁, hf₁⟩ := visitTree_eq uri (index :: trail) scope (.node k cs) ht.1 f s hs
      have hs₁ := SymbolTable.at?_addAt f.table scope
        (Tree.portion f.table.visits uri (index :: trail) scope s.inner.length (.node k cs))
      rw [← hf₁, hs] at hs₁
      obtain ⟨f', hv, hf⟩ := visitAll_eq uri trail scope (index + 1) ts ht.2 f₁ _ hs₁
      refine ⟨f', by rw [visitAll_of_visitTree hv₁, hv], ?_⟩
      rw [hf, hf₁, SymbolTable.addAt_addAt, Tree.portionOf]
      simp

end

end Fold

namespace Fold

section

variable {uri : String} {trail scope : Trail} {f f' : Fold}

theorem exists_of_enter_eq_ok {t : Tree} {inner : Option Trail}
    (h : enter uri trail scope t f = .ok inner f') (hk : declares t.kind ≠ none) :
    ∃ name range nameRange, t.child? (.rule .simpleIdentifier) = some name ∧
      t.range = .ok range ∧ name.range = .ok nameRange := by
  obtain ⟨kind, hk⟩ := Option.ne_none_iff_exists'.1 hk
  simp only [enter, hk, declare] at h
  split at h
  · cases h
  · next hl => exact exists_of_locate_eq_ok hl

/-- Only below a parameter nothing is visited. -/
theorem declares_of_enter_eq_none {t : Tree} (h : enter uri trail scope t f = .ok none f') :
    declares t.kind = some .parameter := by
  cases hk : declares t.kind with
  | none => simp [enter, hk, pure, EStateM.pure] at h
  | some kind =>
    simp only [enter, hk, declare] at h
    split at h
    · cases h
    · cases kind with
      | value | routine => cases h
      | parameter => rfl

/-- A parameter has a name and a type below it. -/
theorem isRanged_of_mem_parameter {k : Kind} {cs : List Tree} {c : Tree}
    (h : (Tree.node k cs).Conforms) (hk : declares k = some .parameter) (hc : c ∈ cs) :
    c.IsRanged := by
  cases h with
  | @node r _ hd hcs =>
    obtain rfl : r = .functionValueParameter := by cases r <;> first | rfl | cases hk
    obtain ⟨n, colon, type, -, rfl⟩ := eq_of_derives_parameter hd
    have silent {r : Rule} {x : Token} (hr : declares (.rule r) = none)
        (hm : Tree.node (.rule r) [.leaf x] ∈ [Tree.ofName n, .leaf colon,
          .node (.rule .typeReference) [.leaf type]]) : (Tree.node (.rule r) [.leaf x]).IsRanged := by
      have hx := hcs _ hm
      refine .rule hx (absurd hr) ?_
      intro y hy
      obtain rfl := List.mem_singleton.1 hy
      cases hx with
      | node _ hx => exact .terminal (hx _ (by simp))
    simp only [List.mem_cons, List.not_mem_nil, or_false] at hc
    rcases hc with rfl | rfl | rfl
    · exact silent rfl (by simp [Tree.ofName])
    · exact .terminal (hcs _ (by simp))
    · exact silent rfl (by simp)

end

mutual

/-- A visit succeeds only if all declarations have a place. -/
theorem isRanged_of_visitTree (uri : String) (trail scope : Trail) (t : Tree) (ht : t.Conforms)
    {f f' : Fold} (h : visitTree uri trail scope t f = .ok () f') : t.IsRanged := by
  cases t with
  | leaf x => exact .terminal ht
  | node k cs =>
    have below : ∀ c ∈ cs, c.Conforms := by
      cases ht with
      | node _ hcs => exact hcs
    simp only [visitTree, bind, EStateM.bind] at h
    split at h
    · next inner f₁ he =>
      refine .rule ht (exists_of_enter_eq_ok he) ?_
      cases inner with
      | some inner => exact isRanged_of_visitAll uri trail inner 0 cs below h
      | none =>
        intro c hc
        exact isRanged_of_mem_parameter ht (declares_of_enter_eq_none he) hc
    · cases h

theorem isRanged_of_visitAll (uri : String) (trail scope : Trail) (index : Nat) (ts : List Tree)
    (ht : ∀ t ∈ ts, t.Conforms) {f f' : Fold}
    (h : visitAll uri trail scope index ts f = .ok () f') : ∀ t ∈ ts, t.IsRanged := by
  cases ts with
  | nil => simp
  | cons t ts =>
    simp only [List.mem_cons, forall_eq_or_imp] at ht ⊢
    cases t with
    | leaf x => exact ⟨.terminal ht.1, isRanged_of_visitAll uri trail scope (index + 1) ts ht.2 h⟩
    | node k cs =>
      simp only [visitAll, bind, EStateM.bind] at h
      split at h
      · next hv =>
        exact ⟨isRanged_of_visitTree uri (index :: trail) scope (.node k cs) ht.1 hv,
          isRanged_of_visitAll uri trail scope (index + 1) ts ht.2 h⟩
      · cases h

end

end Fold

namespace SymbolTable

/-- The table after the visit of one more tree. -/
def visited (table : SymbolTable) (uri : String) (t : Tree) : SymbolTable where
  root := table.root.absorb (t.portion table.visits uri [] [] table.root.inner.length)
  visits := table.visits + 1

/-- The visit of a tree of a short text succeeds. -/
theorem visit_eq_visited {t : Tree} (ht : t.IsRanged) (uri : String) (f : Fold) :
    ∃ f', Fold.visit uri t f = .ok () f' ∧ f'.table = f.table.visited uri t := by
  obtain ⟨f', hv, hf⟩ := Fold.visitTree_eq uri [] [] t ht f f.table.root (Scope.at?_nil _)
  refine ⟨⟨⟨f'.table.root, f'.table.visits + 1⟩, f'.events⟩, by simp only [Fold.visit, hv], ?_⟩
  simp [hf, visited, addAt]

theorem visited_of_visit_eq_ok {t : Tree} (ht : t.Conforms) {uri : String} {f f' : Fold}
    (h : Fold.visit uri t f = .ok () f') : t.IsRanged ∧ f'.table = f.table.visited uri t := by
  have hr : t.IsRanged := by
    unfold Fold.visit at h
    dsimp only at h
    split at h
    · next hv => exact Fold.isRanged_of_visitTree uri [] [] t ht hv
    · cases h
  obtain ⟨f'', hv, hf⟩ := visit_eq_visited hr uri f
  cases h.symm.trans hv
  exact ⟨hr, hf⟩

theorem ofTree_eq_visited {t : Tree} (ht : t.IsRanged) (uri : String) :
    ofTree uri t = .ok (empty.visited uri t) := by
  obtain ⟨f', hv, hf⟩ := visit_eq_visited ht uri .start
  simp only [ofTree, hv, hf]
  rfl

end SymbolTable

end Mykt
