import Mathlib.Data.List.Nodup
import Mykt.Definition
import Mykt.Proofs.Declaration.Content

/-!
Looking a name up in a table is lexical scoping. Main statements: the scopes around a place belong
to the routines around it, in the same order; a name that is looked up from a place of the tree
visited last leads to the declaration that it means in that tree, and to what was in the table
before if it means none; in the table of one tree, a name leads to what it means and to nothing else.
-/

namespace Mykt

open Scope

/-- Of symbols and the declarations that they stand for, the last ones of a name correspond. -/
theorem Symbol.rel_last {uri : String} {xs : List Symbol} {ds : List (Trail × Tree)} (name : String)
    (h : List.Forall₂ (fun x d => x.StandsFor uri d.2) xs ds) :
    Option.Rel (fun x d => x.StandsFor uri d.2) (xs.reverse.find? (·.name = name))
      ((ds.filter fun d => d.2.declaredName = some name).getLast?) := by
  rw [← List.head?_reverse, ← List.filter_reverse, List.head?_filter]
  have hr := List.rel_reverse h
  generalize xs.reverse = ys, ds.reverse = es at hr
  induction hr with
  | nil => exact .none
  | @cons y e ys es hye _ ih =>
    by_cases hn : y.name = name
    · simp [hn, hye.declaredName, hye]
    · simpa [hn, hye.declaredName] using ih

/-- A symbol that stands for a declaration has a location. -/
theorem Symbol.filter_or_of_rel {uri : String} {found old : Option Symbol}
    {d : Option (Trail × Tree)} (h : Option.Rel (fun x d => x.StandsFor uri d.2) found d) :
    (found.or old).filter (·.location.isSome) =
      found.or (old.filter (·.location.isSome)) := by
  cases h with
  | some hx => simp [hx.isSome_location]
  | none => rfl

/-- The scope belongs to a node of a tree. -/
def Scope.BelongsTo (s : Scope) (document : Nat) (place : Trail) : Prop :=
  ∃ a, s.anchor = some a ∧ a.document = document ∧ a.trail = place

namespace SymbolTable

section

variable {table : SymbolTable} {document : Nat} {place scope : Trail}

theorem scopeFor?_eq (table : SymbolTable) (document : Nat) (place : Trail) :
    table.scopeFor? document place =
      (table.scopes.find? fun x =>
        x.2.anchor.any fun a => a.document = document && a.trail = place).map (·.1) := by
  unfold scopeFor?
  congr 2
  funext ⟨_, s⟩
  cases h : s.anchor <;> simp [h]

theorem scopeFor?_eq_none_iff :
    table.scopeFor? document place = none ↔
      ∀ x ∈ table.scopes, ¬ x.2.BelongsTo document place := by
  simp [scopeFor?_eq, Scope.BelongsTo, Option.any_eq_true]

theorem exists_of_scopeFor?_eq_some (h : table.scopeFor? document place = some scope) :
    ∃ s, (scope, s) ∈ table.scopes ∧ s.BelongsTo document place := by
  rw [scopeFor?_eq] at h
  obtain ⟨⟨scope, s⟩, hf, rfl⟩ := Option.map_eq_some_iff.1 h
  refine ⟨s, List.mem_of_find?_eq_some hf, ?_⟩
  simpa [Scope.BelongsTo, Option.any_eq_true] using List.find?_some hf

end

/-- Every scope belongs to a tree that has been visited. -/
def Numbered (table : SymbolTable) : Prop :=
  ∀ x ∈ table.scopes, ∀ a, x.2.anchor = some a → a.document < table.visits

theorem numbered_empty : empty.Numbered := by
  intro x hx a ha
  obtain rfl : x = ([], .root) := by simpa [scopes, empty, Scope.root, outline, outlineOf] using hx
  cases ha

section

variable {table : SymbolTable} {uri : String} {t : Tree}

/-- The scopes that the visit of a tree opens. -/
def opened (table : SymbolTable) (uri : String) (t : Tree) : List (Trail × Scope) :=
  outlineOf [] table.root.inner.length
    (t.portion table.visits uri [] [] table.root.inner.length).inner

theorem scopes_eq (table : SymbolTable) :
    table.scopes = ([], table.root) :: outlineOf [] 0 table.root.inner := by
  rw [scopes]
  cases table.root
  rw [outline]
  rfl

theorem scopes_visited (table : SymbolTable) (uri : String) (t : Tree) :
    (table.visited uri t).scopes =
      ([], (table.visited uri t).root) ::
        (outlineOf [] 0 table.root.inner ++ table.opened uri t) := by
  rw [scopes, visited, outline_absorb, outlineOf_append, Nat.zero_add]
  rfl

theorem anchors_opened (ht : t.IsRanged) :
    (table.opened uri t).map (·.2.anchor) = Tree.anchorsAmong table.visits (t.places []) :=
  Tree.anchors_portion _ _ _ _ _ t ht _ _

/-- An opened scope belongs to a routine of the tree. -/
theorem exists_of_mem_opened (ht : t.IsRanged) {x : Trail × Scope}
    (hx : x ∈ table.opened uri t) :
    ∃ place, t.isRoutineAt place = true ∧
      x.2.anchor = some (Tree.anchorOf table.visits place) := by
  have hm : x.2.anchor ∈ Tree.anchorsAmong table.visits (t.places []) := by
    rw [← anchors_opened ht]
    exact List.mem_map_of_mem hx
  obtain ⟨⟨place, u⟩, hu, he⟩ := List.mem_map.1 hm
  obtain ⟨hp, hr⟩ := List.mem_filter.1 hu
  exact ⟨place, (Tree.isRoutineAt_of_at? (Tree.mem_places_nil.1 hp)).trans hr, he.symm⟩

/-- A scope that belongs to an earlier tree was there before. -/
theorem Numbered.lt_of_notMem (h : table.Numbered) {x : Trail × Scope} {a : Anchor}
    (hx : x ∈ (table.visited uri t).scopes) (hn : x ∉ table.opened uri t)
    (ha : x.2.anchor = some a) : a.document < table.visits := by
  rw [scopes_visited, List.mem_cons, List.mem_append] at hx
  have old (s : Scope) (is : List (Trail × Scope))
      (hs : table.scopes = ([], s) :: is) (ha : s.anchor = some a) : a.document < table.visits := by
    have hm : ([], s) ∈ table.scopes := by simp [hs]
    exact h ([], s) hm a ha
  rcases hx with rfl | hx | hx
  · exact old _ _ table.scopes_eq ha
  · exact h x (by simp [scopes_eq, hx]) a ha
  · exact absurd hx hn

theorem Numbered.visited (h : table.Numbered) (ht : t.IsRanged) (uri : String) :
    (table.visited uri t).Numbered := by
  intro x hx a ha
  refine Nat.lt_succ_of_le ?_
  by_cases hn : x ∈ table.opened uri t
  · obtain ⟨place, -, he⟩ := exists_of_mem_opened ht hn
    obtain rfl : Tree.anchorOf table.visits place = a := Option.some.inj (he.symm.trans ha)
    exact Nat.le_refl _
  · exact Nat.le_of_lt (h.lt_of_notMem hx hn ha)

/-- A scope of the tree visited last was opened by that visit, for a routine. -/
theorem Numbered.opened_of_belongsTo (h : table.Numbered) (ht : t.IsRanged) {x : Trail × Scope}
    {place : Trail} (hx : x ∈ (table.visited uri t).scopes)
    (hb : x.2.BelongsTo table.visits place) :
    x ∈ table.opened uri t ∧ t.isRoutineAt place = true ∧
      x.2.anchor = some (Tree.anchorOf table.visits place) := by
  obtain ⟨a, ha, hd, rfl⟩ := hb
  have hm : x ∈ table.opened uri t := by
    by_contra hn
    exact absurd (h.lt_of_notMem hx hn ha) (by omega)
  obtain ⟨place, hr, he⟩ := exists_of_mem_opened ht hm
  obtain rfl : Tree.anchorOf table.visits place = a := Option.some.inj (he.symm.trans ha)
  exact ⟨hm, hr, ha⟩

/-- The scope of a routine of the tree visited last is found by the place of the routine. -/
theorem Numbered.scopeFor?_eq_some (h : table.Numbered) (ht : t.IsRanged) {scope place : Trail}
    {s : Scope} (hs : (table.visited uri t).root.at? scope = some s)
    (hb : s.BelongsTo table.visits place) :
    (table.visited uri t).scopeFor? table.visits place = some scope := by
  have hmem : (scope, s) ∈ (table.visited uri t).scopes := mem_outline_nil.2 hs
  cases hf : (table.visited uri t).scopeFor? table.visits place with
  | none => exact absurd hb (scopeFor?_eq_none_iff.1 hf _ hmem)
  | some scope' =>
    obtain ⟨s', hmem', hb'⟩ := exists_of_scopeFor?_eq_some hf
    obtain ⟨ho, -, ha⟩ := h.opened_of_belongsTo ht hmem hb
    obtain ⟨ho', -, ha'⟩ := h.opened_of_belongsTo ht hmem' hb'
    have nodup : ((table.opened uri t).map (·.2.anchor)).Nodup := by
      rw [anchors_opened ht]
      exact Tree.nodup_anchorsAmong _ (Tree.nodup_places t [])
    have same : (scope', s') = (scope, s) :=
      List.inj_on_of_nodup_map nodup ho' ho (ha'.trans ha.symm)
    exact congrArg (fun x => some x.1) same

theorem Numbered.scopeFor?_eq_none (h : table.Numbered) (ht : t.IsRanged) {place : Trail}
    (hp : t.isRoutineAt place = false) :
    (table.visited uri t).scopeFor? table.visits place = none := by
  apply scopeFor?_eq_none_iff.2
  intro x hx hb
  obtain ⟨-, hr, -⟩ := h.opened_of_belongsTo ht hx hb
  rw [hp] at hr
  cases hr

end

end SymbolTable

namespace Tree

/-- Routines of a tree, the innermost first, and the scope that they lead to. -/
inductive Nests (root : Scope) (document : Nat) (uri : String) (t : Tree) :
    List Trail → Trail → Prop where
  | file : Nests root document uri t [] []
  | routine {places : List Trail} {place scope : Trail} {i : Nat} {cs : List Tree}
      (h : Nests root document uri t places scope)
      (hp : t.at? place = some (node (.rule .functionDeclaration) cs))
      (hs : root.at? (i :: scope) =
        some ((Scope.mk (some (anchorOf document place)) [] []).absorb
          (portionOf document uri place (i :: scope) 0 0 cs))) :
      Nests root document uri t (place :: places) (i :: scope)

/-- What a list of trees opens, one of them opens a part of. -/
theorem exists_portion_isPrefix {document : Nat} {uri : String} {trail scope : Trail}
    {cs : List Tree} {xs : List Scope} {c : Tree} {n index j : Nat}
    (h : (portionOf document uri trail scope n index cs).inner <+: xs.drop n)
    (hc : cs[j]? = some c) :
    ∃ m, (portion document uri ((index + j) :: trail) scope m c).inner <+: xs.drop m := by
  induction cs generalizing n index j with
  | nil => simp at hc
  | cons u us ih =>
    rw [portionOf, Portion.inner_append] at h
    cases j with
    | zero =>
      obtain rfl : u = c := by simpa using hc
      exact ⟨n, (List.prefix_append _ _).trans h⟩
    | succ j =>
      have hus : us[j]? = some c := by simpa using hc
      have rest : (portionOf document uri trail scope
          (n + (portion document uri (index :: trail) scope n u).inner.length) (index + 1) us).inner
            <+: xs.drop (n + (portion document uri (index :: trail) scope n u).inner.length) := by
        obtain ⟨zs, hz⟩ := h
        rw [← List.drop_drop, ← hz, List.append_assoc, List.drop_left]
        exact List.prefix_append _ _
      rw [show index + (j + 1) = index + 1 + j by omega]
      exact ih rest hus

section

variable {root : Scope} {document : Nat} {uri : String} {t : Tree}

theorem IsRanged.of_at? {t u : Tree} {trail : Trail} (h : t.IsRanged)
    (hu : t.at? trail = some u) : u.IsRanged := by
  induction trail generalizing u with
  | nil =>
    obtain rfl : t = u := by simpa using hu
    exact h
  | cons i above ih =>
    rw [at?_cons] at hu
    obtain ⟨v, hv, hc⟩ := Option.bind_eq_some_iff.1 hu
    cases v with
    | leaf x => simp [children] at hc
    | node k cs => exact (ih hv).of_mem (List.mem_of_getElem? hc)

/-- The scopes around a place belong to the routines around it, and the innermost of them holds what
the children of the place open. -/
theorem exists_nests {k : Kind} {cs : List Tree} (ht : (node k cs).IsRanged)
    (hk : Fold.declares k = none) {n : Nat}
    (hroot : (portionOf document uri [] [] n 0 cs).inner <+: root.inner.drop n)
    (trail : Trail) {l : Kind} {us : List Tree} (hu : (node k cs).at? trail = some (node l us)) :
    ∃ scope m s, Nests root document uri (node k cs) ((node k cs).routinesAround trail) scope ∧
      root.at? scope = some s ∧
      (portionOf document uri trail scope m 0 us).inner <+: s.inner.drop m := by
  induction trail generalizing l us with
  | nil =>
    obtain ⟨rfl, rfl⟩ : k = l ∧ cs = us := by simpa using hu
    refine ⟨[], n, root, ?_, Scope.at?_nil root, hroot⟩
    rw [routinesAround_nil (isRoutine_of_declares_eq_none hk)]
    exact .file
  | cons i above ih =>
    have hc := hu
    rw [at?_cons] at hc
    obtain ⟨v, hv, hc⟩ := Option.bind_eq_some_iff.1 hc
    cases v with
    | leaf x => simp [children] at hc
    | node k' vs =>
      obtain ⟨scope, m, s, hn, hs, hp⟩ := ih hv
      obtain ⟨m', hm⟩ := exists_portion_isPrefix hp hc
      have hur := ht.of_at? hu
      rw [Nat.zero_add] at hm
      rw [routinesAround_cons, isRoutineAt_of_at? hu, isRoutine_node]
      cases hl : Fold.declares l with
      | none =>
        rw [portion_of_declares_eq_none document uri _ scope m' hl] at hm
        exact ⟨scope, m', s, by simpa [hl] using hn, hs, hm⟩
      | some kind =>
        cases kind with
        | value =>
          obtain ⟨x, -, he⟩ := hur.portion_value document uri (i :: above) scope m' hl
          rw [he] at hm
          exact ⟨scope, m', s, by simpa [hl] using hn, hs, hm⟩
        | parameter =>
          have hi := (hur.children_parameter document uri (i :: above) scope m' hl).2.2
          refine ⟨scope, m', s, by simpa [hl] using hn, hs, ?_⟩
          rw [hi]
          exact List.nil_prefix
        | routine =>
          obtain ⟨x, -, he⟩ := hur.portion_routine document uri (i :: above) scope m' hl
          obtain rfl := eq_functionDeclaration hl
          rw [he] at hm
          -- the scope of the routine is the next one where its portion stands
          have hat : root.at? (m' :: scope) = some ((Scope.mk (some (anchorOf document (i :: above)))
              [] []).absorb (portionOf document uri (i :: above) (m' :: scope) 0 0 us)) := by
            obtain ⟨zs, hz⟩ := hm
            rw [Scope.at?_cons, hs]
            have : (s.inner.drop m')[0]? = s.inner[m']? := by simp
            rw [Option.bind_some, ← this, ← hz]
            rfl
          refine ⟨m' :: scope, 0, _, ?_, hat, by simp⟩
          simpa [hl] using Nests.routine hn hu hat

end

end Tree

namespace SymbolTable

section

variable {table : SymbolTable} {uri : String} {t : Tree} {k : Kind} {cs : List Tree}
  {trail scope : Trail} {places : List Trail}

theorem leavesSilent_of_isRanged (ht : t.IsRanged) : t.LeavesSilent := by
  intro x hx
  obtain ⟨k, hk⟩ := ht.conforms.exists_terminal hx
  rw [hk]
  rfl

/-- What the global scope gives for a name, after the visit of one more tree. -/
theorem lookup?_visited (ht : (Tree.node k cs).IsRanged) (hk : Fold.declares k = none)
    (table : SymbolTable) (uri name : String) :
    ∃ found : Option Symbol,
      (table.visited uri (.node k cs)).root.lookup? name =
        found.or (table.root.lookup? name) ∧
      Option.Rel (fun x d => x.StandsFor uri d.2) found ((Tree.node k cs).lastOwned name none) := by
  refine ⟨_, lookup?_absorb _ _ _, ?_⟩
  rw [Tree.lastOwned, Tree.owned_none (leavesSilent_of_isRanged ht) hk,
    Tree.portion_of_declares_eq_none _ _ _ _ _ hk]
  have below : ∀ c ∈ cs, c.IsRanged := by
    intro c hc
    exact ht.of_mem hc
  exact Symbol.rel_last name (Tree.symbols_portionOf _ _ _ _ _ _ cs below)

theorem find?_cons (table : SymbolTable) (i : Nat) (scope : Trail) (name : String) :
    table.find? (i :: scope) name =
      (((table.root.at? (i :: scope)).bind (·.lookup? name)).filter (·.location.isSome)).or
        (table.find? scope name) := by
  simp only [find?, Trail.upward, List.findSome?_cons]
  cases ((table.root.at? (i :: scope)).bind (·.lookup? name)).filter (·.location.isSome) <;> rfl

/-- From a scope outwards a name leads to the last declaration in the innermost routine that has
one, then to the last one of the file, then to what was in the table before. -/
theorem find?_of_nests (ht : (Tree.node k cs).IsRanged) (hk : Fold.declares k = none)
    (h : Tree.Nests (table.visited uri (.node k cs)).root table.visits uri (.node k cs)
      places scope) (name : String) :
    ∃ found : Option Symbol,
      (table.visited uri (.node k cs)).find? scope name =
        found.or ((table.root.lookup? name).filter (·.location.isSome)) ∧
      Option.Rel (fun x d => x.StandsFor uri d.2) found
        ((places.map some ++ [none]).findSome? ((Tree.node k cs).lastOwned name)) := by
  induction h with
  | file =>
    obtain ⟨found, hf, hr⟩ := lookup?_visited ht hk table uri name
    refine ⟨found, ?_, by simpa using hr⟩
    simp [find?, Trail.upward, hf, Symbol.filter_or_of_rel hr]
  | @routine places place scope i us h hp hs ih =>
    obtain ⟨found, hf, hr⟩ := ih
    have hup := ht.of_at? hp
    have below : ∀ c ∈ us, c.IsRanged := by
      intro c hc
      exact hup.of_mem hc
    have last := Symbol.rel_last name
      (Tree.symbols_portionOf table.visits uri place (i :: scope) 0 0 us below)
    rw [← Tree.owned_some (leavesSilent_of_isRanged ht) hp rfl] at last
    have here := lookup?_absorb (.mk (some (Tree.anchorOf table.visits place)) [] [])
      (Tree.portionOf table.visits uri place (i :: scope) 0 0 us) name
    rw [lookup?_mk_nil, Option.or_none] at here
    change Option.Rel _ _ ((Tree.node k cs).lastOwned name (some place)) at last
    have look := find?_cons (table.visited uri (.node k cs)) i scope name
    rw [hs, Option.bind_some, here, hf] at look
    rw [look, List.map_cons, List.cons_append, List.findSome?_cons]
    generalize List.find? _ _ = inner, (Tree.node k cs).lastOwned name (some place) = d at last
    cases last with
    | some hx => exact ⟨_, by simp [hx.isSome_location], .some hx⟩
    | none => exact ⟨found, rfl, hr⟩

/-- The innermost scope around a place is the one that the routines around it lead to. -/
theorem Numbered.enclosing_eq (h : table.Numbered) (ht : t.IsRanged)
    (hn : Tree.Nests (table.visited uri t).root table.visits uri t (t.routinesAround trail) scope) :
    (table.visited uri t).enclosing table.visits trail = scope := by
  have skip (xs : List Trail) : xs.findSome? ((table.visited uri t).scopeFor? table.visits) =
      (xs.filter t.isRoutineAt).findSome? ((table.visited uri t).scopeFor? table.visits) := by
    induction xs with
    | nil => rfl
    | cons x xs ih =>
      cases hx : t.isRoutineAt x with
      | true => rw [List.filter_cons_of_pos hx, List.findSome?_cons, List.findSome?_cons, ih]
      | false => simp [hx, h.scopeFor?_eq_none ht hx, ih]
  rw [enclosing, skip]
  change ((t.routinesAround trail).findSome? _).getD [] = scope
  generalize t.routinesAround trail = places at hn
  cases hn with
  | file => rfl
  | @routine places place _ _ _ _ _ hs =>
    have hb : (table.visited uri t).scopeFor? table.visits place = some _ :=
      h.scopeFor?_eq_some ht hs ⟨Tree.anchorOf table.visits place, rfl, rfl, rfl⟩
    rw [List.findSome?_cons, hb]
    rfl

theorem exists_nests_node {l : Kind} {us : List Tree} (ht : t.IsRanged) (hk : t.kind = .rule .file)
    (hat : t.at? trail = some (.node l us)) (table : SymbolTable) (uri : String) :
    ∃ scope, Tree.Nests (table.visited uri t).root table.visits uri t
      (t.routinesAround trail) scope := by
  obtain ⟨cs, rfl⟩ := ht.conforms.exists_children hk
  have hroot : (Tree.portionOf table.visits uri [] [] table.root.inner.length 0 cs).inner <+:
      (table.visited uri (.node (.rule .file) cs)).root.inner.drop table.root.inner.length := by
    simp [visited, Tree.portion_of_declares_eq_none table.visits uri [] [] _
      (show Fold.declares (.rule .file) = none from rfl)]
  obtain ⟨scope, -, -, hn, -⟩ := Tree.exists_nests ht rfl hroot trail hat
  exact ⟨scope, hn⟩

theorem exists_nests_leaf {x : Token} (ht : t.IsRanged) (hk : t.kind = .rule .file)
    (hx : t.at? trail = some (.leaf x)) (table : SymbolTable) (uri : String) :
    ∃ scope, Tree.Nests (table.visited uri t).root table.visits uri t
      (t.routinesAround trail) scope := by
  cases trail with
  | nil =>
    obtain ⟨cs, rfl⟩ := ht.conforms.exists_children hk
    cases hx
  | cons i above =>
    rw [Tree.routinesAround_cons, Tree.isRoutineAt_of_at? hx,
      Tree.isRoutine_leaf (ht.of_at? hx).conforms]
    rw [Tree.at?_cons] at hx
    obtain ⟨v, hv, hc⟩ := Option.bind_eq_some_iff.1 hx
    cases v with
    | leaf y => simp [Tree.children] at hc
    | node l us => exact exists_nests_node ht hk hv table uri

/-- A name at a place of the tree visited last leads to the declaration that it means there, or else
to what was in the table before. -/
theorem Numbered.find?_enclosing {x : Token} (h : table.Numbered) (ht : t.IsRanged)
    (hk : t.kind = .rule .file) (hx : t.at? trail = some (.leaf x)) (uri name : String) :
    ∃ found : Option Symbol,
      (table.visited uri t).find? ((table.visited uri t).enclosing table.visits trail) name =
        found.or ((table.root.lookup? name).filter (·.location.isSome)) ∧
      Option.Rel (fun x d => x.StandsFor uri d.2) found (t.meaning trail name) := by
  obtain ⟨scope, hn⟩ := exists_nests_leaf ht hk hx table uri
  rw [h.enclosing_eq ht hn]
  obtain ⟨cs, rfl⟩ := ht.conforms.exists_children hk
  exact find?_of_nests ht rfl hn name

/-- In the table of one tree a name leads to the declaration that it means, and to none if it means
none. -/
theorem locate_eq_meaning {source : String} {t : Tree} (h : parse source = .ok t)
    (hs : source.length ≤ Position.limit) (uri : String) {trail : Trail} {n : Token}
    (hn : (trail, n) ∈ t.leaves []) :
    ∃ table origin, ofTree uri t = .ok table ∧ (Tree.leaf n).range = .ok origin ∧
      match t.meaning trail n.text with
      | none => table.locate 0 trail (.leaf n) = .ok none
      | some (_, declaration) => ∃ symbol name range nameRange,
          table.locate 0 trail (.leaf n) =
            .ok (some ⟨symbol, ⟨uri, range, nameRange⟩, origin⟩) ∧
          symbol.name = n.text ∧ symbol.location = some ⟨uri, range, nameRange⟩ ∧
          Fold.declares declaration.kind = some symbol.kind ∧
          declaration.child? (.rule .simpleIdentifier) = some name ∧
          declaration.range = .ok range ∧ name.range = .ok nameRange := by
  have hspans := Tree.hasSpans_of_parse h hs
  have ht := hspans.isRanged (conforms_of_parse h).1
  have hat := Tree.mem_leaves_nil.1 hn
  have hmem : n ∈ t.tokens := Tree.mem_tokens_of_mem_leaves hn
  obtain ⟨origin, ho⟩ := (hspans.mono (u := .leaf n) (by simpa [Tree.tokens])).exists_range
    (x := n) (by simp [Tree.tokens])
  refine ⟨_, origin, ofTree_eq_visited ht uri, ho, ?_⟩
  obtain ⟨found, hf, hr⟩ :=
    numbered_empty.find?_enclosing ht (conforms_of_parse h).2.1 hat uri n.text
  have named (d : Trail × Tree) (hd : t.meaning trail n.text = some d) :
      d.2.declaredName = some n.text := Tree.declaredName_of_meaning hd
  rw [show (Option.filter _ (empty.root.lookup? n.text)) = none from rfl, Option.or_none] at hf
  change find? _ (enclosing _ 0 trail) _ = _ at hf
  generalize t.meaning trail n.text = d at hr named
  cases hr with
  | none => simp [locate, hf]
  | some hx =>
    obtain ⟨name, range, nameRange, hc, hname, hr, hnr, hl⟩ := hx.located
    refine ⟨_, name, range, nameRange, ?_, ?_, hl, hx.kind, hc, hr, hnr⟩
    · simp [locate, hf, hl, ho, Except.map]
    · exact Option.some.inj (hx.declaredName.symm.trans (named _ rfl))

/-- In a routine, its parameter hides the variable of the file. -/
theorem locate_eq_meaning_shadowed :
    ∃ t table symbol location origin, parse "val a = 1 fun f(a: Int) = a" = .ok t ∧
      ofTree "file:///m" t = .ok table ∧
      table.locate 0 [0, 1, 3, 0, 2] (.leaf ⟨.terminal .name, "a", 1, 26⟩) =
        .ok (some ⟨symbol, location, origin⟩) ∧ symbol.kind = .parameter := by
  let trail : Trail := [0, 1, 3, 0, 2]
  let a : Token := ⟨.terminal .name, "a", 1, 26⟩
  obtain ⟨t, ht, hl, hm⟩ : ∃ t, parse "val a = 1 fun f(a: Int) = a" = .ok t ∧
      (trail, a) ∈ t.leaves [] ∧
      (t.meaning trail a.text).map (fun d => (d.1, d.2.kind)) =
        some ([1, 2, 0, 2], .rule .functionValueParameter) := by
    refine ⟨_, rfl, ?_, ?_⟩
    · decide +kernel
    · decide +kernel
  obtain ⟨table, origin, htable, -, hd⟩ := locate_eq_meaning ht (by decide) "file:///m" hl
  obtain ⟨⟨place, d⟩, hmean, he⟩ := Option.map_eq_some_iff.1 hm
  obtain ⟨-, hdk⟩ : place = [1, 2, 0, 2] ∧ d.kind = .rule .functionValueParameter := by
    simpa using he
  rw [hmean] at hd
  obtain ⟨symbol, name, range, nameRange, hloc, -, -, hk, -⟩ := hd
  rw [hdk] at hk
  exact ⟨t, table, symbol, _, origin, ht, htable, hloc, (Option.some.inj hk).symm⟩

end

end SymbolTable

end Mykt
