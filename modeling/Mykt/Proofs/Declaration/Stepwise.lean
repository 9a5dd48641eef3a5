import Mykt.Proofs.Scope.Anchors

/-!
The visit of a tree step by step. Main statements: what a visit does with one node; nodes that are
declared one by one are declared up to the first that fails; a visit declares the nodes that it
meets, in document order, each in the scope of the nearest routine above it.
-/

namespace Mykt

namespace Tree

mutual

/-- The declarations that a visit meets, in document order: none is a leaf, and none stands below a
parameter. -/
def met (trail : Trail) : Tree → List (Trail × Tree)
  | leaf _ => []
  | node k cs =>
    (if (Fold.declares k).isSome then [(trail, node k cs)] else []) ++
      if k = .rule .functionValueParameter then [] else metOf trail 0 cs

def metOf (trail : Trail) (index : Nat) : List Tree → List (Trail × Tree)
  | [] => []
  | t :: ts => t.met (index :: trail) ++ metOf trail (index + 1) ts

end

mutual

theorem met_subset_places (t : Tree) (trail : Trail) : t.met trail ⊆ t.places trail := by
  cases t with
  | leaf x => exact List.nil_subset _
  | node k cs =>
    have below := metOf_subset_placesOf cs trail 0
    intro x hx
    rw [met, List.mem_append] at hx
    rcases hx with hx | hx
    · split at hx
      · rw [List.mem_singleton.1 hx]
        exact List.mem_cons_self
      · cases hx
    · split at hx
      · cases hx
      · exact List.mem_cons_of_mem _ (below hx)

theorem metOf_subset_placesOf (ts : List Tree) (trail : Trail) (index : Nat) :
    metOf trail index ts ⊆ placesOf trail index ts := by
  cases ts with
  | nil => exact List.nil_subset _
  | cons t ts =>
    have first := met_subset_places t (index :: trail)
    have rest := metOf_subset_placesOf ts trail (index + 1)
    rw [metOf, placesOf]
    exact List.append_subset.2 ⟨List.subset_append_of_subset_left _ first,
      List.subset_append_of_subset_right _ rest⟩

end

section

variable {t : Tree} {ts : List Tree} {trail place : Trail} {index : Nat} {x : Trail × Tree}

theorem length_le_of_mem_met (h : x ∈ t.met trail) : trail.length ≤ x.1.length := by
  obtain ⟨down, hx, -⟩ := (mem_places t).1 (met_subset_places t trail h)
  rw [hx, List.length_append]
  omega

theorem length_lt_of_mem_metOf (h : x ∈ metOf trail index ts) : trail.length < x.1.length := by
  obtain ⟨j, down, hx, -⟩ := (mem_placesOf ts).1 (metOf_subset_placesOf ts trail index h)
  rw [hx, List.length_append, List.length_cons]
  omega

/-- What is met below a child is not met below the next ones. -/
theorem notMem_met_of_mem_metOf (h : x ∈ metOf trail (index + 1) ts) :
    x.1 ∉ (t.met (index :: trail)).map (·.1) := by
  intro hx
  obtain ⟨y, hy, he⟩ := List.mem_map.1 hx
  obtain ⟨down, hplace, -⟩ := (mem_places t).1 (met_subset_places t _ hy)
  obtain ⟨j, down', hplace', -⟩ := (mem_placesOf ts).1 (metOf_subset_placesOf ts trail _ h)
  have hindex := index_eq_of_append_eq (hplace.symm.trans (he.trans hplace'))
  omega

theorem head?_routinesAround_eq_owner (h : t.isRoutineAt trail = false) :
    (t.routinesAround trail).head? = t.owner trail := by
  cases trail with
  | nil => simp [routinesAround, Trail.upward, owner, h]
  | cons i above =>
    rw [routinesAround_cons, if_neg (by simp [h])]
    rfl

theorem length_le_of_routinesAround (h : (t.routinesAround trail).head? = some place) :
    place.length ≤ trail.length := by
  have hm : place ∈ Trail.upward trail := List.mem_of_mem_filter (List.mem_of_head? h)
  exact (isSuffix_of_mem_upward hm).length_le

end

end Tree

namespace Fold

/-- What a visit does with a node at a trail in a scope. -/
inductive Enters (uri : String) (trail scope : Trail) (s : Scope) (t : Tree) (f : Fold) :
    EStateM.Result DeclarationError Fold (Option Trail) → Prop where
  | silent (hk : declares t.kind = none) : Enters uri trail scope s t f (.ok (some scope) f)
  | flawed {kind : SymbolKind} {e : DeclarationError} (hk : declares t.kind = some kind)
      (hl : locate uri t = .error e) : Enters uri trail scope s t f (.error e f)
  | value {name : String} {location : Location} {f' : Fold} (hk : declares t.kind = some .value)
      (hl : locate uri t = .ok (name, location))
      (hf : f'.table = f.table.addAt scope ⟨[⟨name, .value, some location, none⟩], []⟩) :
      Enters uri trail scope s t f (.ok (some scope) f')
  | parameter {name : String} {location : Location} {f' : Fold}
      (hk : declares t.kind = some .parameter) (hl : locate uri t = .ok (name, location))
      (hf : f'.table = f.table.addAt scope ⟨[⟨name, .parameter, some location, none⟩], []⟩) :
      Enters uri trail scope s t f (.ok none f')
  | routine {name : String} {location : Location} {f' : Fold}
      (hk : declares t.kind = some .routine) (hl : locate uri t = .ok (name, location))
      (hf : f'.table = f.table.addAt scope
        ⟨[⟨name, .routine, some location, some (s.inner.length :: scope)⟩],
          [.mk (some ⟨f.table.visits, trail, t.kind⟩) [] []]⟩) :
      Enters uri trail scope s t f (.ok (some (s.inner.length :: scope)) f')

theorem enters_enter {f : Fold} {scope : Trail} {s : Scope}
    (hs : f.table.root.at? scope = some s) (uri : String) (trail : Trail) (t : Tree) :
    Enters uri trail scope s t f (enter uri trail scope t f) := by
  unfold enter
  cases hk : declares t.kind with
  | none => exact .silent hk
  | some kind =>
    simp only [declare]
    cases hl : locate uri t with
    | error e => exact .flawed hk hl
    | ok found =>
      cases kind with
      | value => exact .value hk hl (table_define _ _ _)
      | parameter => exact .parameter hk hl (table_define _ _ _)
      | routine =>
        simp only [nextInner_eq hs]
        refine .routine hk hl ?_
        rw [table_openInner, table_define, SymbolTable.addAt_addAt]
        rfl

theorem Enters.grows {uri : String} {trail scope : Trail} {s : Scope} {t : Tree} {f f' : Fold}
    {inner : Option Trail} (h : Enters uri trail scope s t f (.ok inner f'))
    (hs : f.table.root.at? scope = some s) : f.table.Grows f'.table [trail] := by
  cases h with
  | silent => exact .refl _ _
  | value _ _ hf | parameter _ _ hf =>
    rw [hf]
    exact SymbolTable.grows_symbols hs _ _
  | routine _ _ hf =>
    rw [hf]
    exact SymbolTable.grows_scope hs _ _ _

/-- Declares a node of a tree in the scope of the nearest routine above it. -/
def declareAt (uri : String) (t : Tree) (x : Trail × Tree) : Step Unit := fun f =>
  let scope := (f.table.scopeOf? f.table.visits (t.owner x.1)).getD []
  match enter uri x.1 scope x.2 f with
  | .ok _ f' => .ok () f'
  | .error e f' => .error e f'

/-- Declares nodes of a tree one by one, up to the first that fails. -/
def declareEach (uri : String) (t : Tree) (xs : List (Trail × Tree)) : Step Unit :=
  forM xs (declareAt uri t)

section

variable {uri : String} {t : Tree} {x : Trail × Tree} {xs ys : List (Trail × Tree)}
  {f f' : Fold} {e : DeclarationError}

theorem declareEach_cons_of_ok (h : declareAt uri t x f = .ok () f') :
    declareEach uri t (x :: xs) f = declareEach uri t xs f' := by
  simp only [declareEach, List.forM_cons, bind, EStateM.bind, h]

theorem declareEach_cons_of_error (h : declareAt uri t x f = .error e f') :
    declareEach uri t (x :: xs) f = .error e f' := by
  simp only [declareEach, List.forM_cons, bind, EStateM.bind, h]

theorem declareEach_append_of_ok (h : declareEach uri t xs f = .ok () f') :
    declareEach uri t (xs ++ ys) f = declareEach uri t ys f' := by
  induction xs generalizing f with
  | nil =>
    cases h
    rfl
  | cons x xs ih =>
    rw [List.cons_append]
    cases hx : declareAt uri t x f with
    | error e f₁ =>
      rw [declareEach_cons_of_error hx] at h
      cases h
    | ok u f₁ =>
      rw [declareEach_cons_of_ok hx] at h ⊢
      exact ih h

theorem declareEach_append_of_error (h : declareEach uri t xs f = .error e f') :
    declareEach uri t (xs ++ ys) f = .error e f' := by
  induction xs generalizing f with
  | nil => cases h
  | cons x xs ih =>
    rw [List.cons_append]
    cases hx : declareAt uri t x f with
    | error e₁ f₁ =>
      rw [declareEach_cons_of_error hx] at h ⊢
      exact h
    | ok u f₁ =>
      rw [declareEach_cons_of_ok hx] at h ⊢
      exact ih h

theorem declareAt_of_error {f₁ : Fold}
    (h : enter uri x.1 ((f.table.scopeOf? f.table.visits (t.owner x.1)).getD []) x.2 f =
      .error e f₁) : declareAt uri t x f = .error e f₁ := by
  simp only [declareAt, h]

theorem declareAt_of_ok {inner : Option Trail}
    (h : enter uri x.1 ((f.table.scopeOf? f.table.visits (t.owner x.1)).getD []) x.2 f =
      .ok inner f') : declareAt uri t x f = .ok () f' := by
  simp only [declareAt, h]

/-- A node is declared, or the table is left as it is. -/
theorem declareAt_cases (uri : String) (t : Tree) (x : Trail × Tree) (f : Fold) :
    (∃ f', declareAt uri t x f = .ok () f' ∧ f.table.Grows f'.table [x.1] ∧
      (declares x.2.kind ≠ none → ∃ found, locate uri x.2 = .ok found)) ∨
    ∃ e, declareAt uri t x f = .error e f ∧ locate uri x.2 = .error e := by
  obtain ⟨s, hs⟩ := f.table.exists_at?_getD (t.owner x.1)
  have henters := enters_enter hs uri x.1 x.2
  cases hresult : enter uri x.1 ((f.table.scopeOf? f.table.visits (t.owner x.1)).getD []) x.2 f with
  | ok inner f' =>
    rw [hresult] at henters
    refine .inl ⟨f', declareAt_of_ok hresult, henters.grows hs, ?_⟩
    intro hk
    cases henters with
    | silent hnone => exact absurd hnone hk
    | value _ hl | parameter _ hl | routine _ hl => exact ⟨_, hl⟩
  | error e f' =>
    rw [hresult] at henters
    cases henters with
    | flawed _ hl => exact .inr ⟨e, declareAt_of_error hresult, hl⟩

/-- Nodes are declared up to the first that fails, which leaves the table as it is. -/
theorem declareEach_cases (uri : String) (t : Tree) (xs : List (Trail × Tree)) (f : Fold) :
    (∃ f', declareEach uri t xs f = .ok () f' ∧ f.table.Grows f'.table (xs.map (·.1)) ∧
      ∀ x ∈ xs, declares x.2.kind ≠ none → ∃ found, locate uri x.2 = .ok found) ∨
    ∃ before x behind e f', xs = before ++ x :: behind ∧ locate uri x.2 = .error e ∧
      declareEach uri t xs f = .error e f' ∧ f.table.Grows f'.table (before.map (·.1)) := by
  induction xs generalizing f with
  | nil => exact .inl ⟨f, rfl, .refl _ _, by simp⟩
  | cons x xs ih =>
    rcases declareAt_cases uri t x f with ⟨f₁, hx, hgrows, hfound⟩ | ⟨e, hx, hl⟩
    · rw [declareEach_cons_of_ok hx]
      rcases ih f₁ with
        ⟨f', hok, hgrows', hall⟩ | ⟨before, y, behind, e, f', rfl, hl, herror, hgrows'⟩
      · exact .inl ⟨f', hok, hgrows.trans hgrows', List.forall_mem_cons.2 ⟨hfound, hall⟩⟩
      · exact .inr ⟨x :: before, y, behind, e, f', rfl, hl, herror, hgrows.trans hgrows'⟩
    · exact .inr ⟨[], x, xs, e, f, rfl, hl, declareEach_cons_of_error hx, .refl _ _⟩

theorem grows_of_declareEach (h : declareEach uri t xs f = .ok () f') :
    f.table.Grows f'.table (xs.map (·.1)) := by
  rcases declareEach_cases uri t xs f with ⟨f₁, hok, hgrows, -⟩ | ⟨_, _, _, e, f₁, -, -, herror, -⟩
  · cases h.symm.trans hok
    exact hgrows
  · cases h.symm.trans herror

theorem exists_declareEach (h : ∀ x ∈ xs, ∃ found, locate uri x.2 = .ok found) (t : Tree)
    (f : Fold) : ∃ f', declareEach uri t xs f = .ok () f' := by
  rcases declareEach_cases uri t xs f with ⟨f', hok, -⟩ | ⟨before, x, behind, e, f', rfl, hl, -⟩
  · exact ⟨f', hok⟩
  · obtain ⟨found, hfound⟩ := h x (by simp)
    rw [hfound] at hl
    cases hl

/-- The first node that fails ends it all. -/
theorem declareEach_of_error (hx : declareEach uri t xs f = .ok () f')
    (hk : declares x.2.kind ≠ none) (hl : locate uri x.2 = .error e) :
    declareEach uri t (xs ++ x :: ys) f = .error e f' := by
  rw [declareEach_append_of_ok hx]
  rcases declareAt_cases uri t x f' with ⟨f₁, -, -, hfound⟩ | ⟨e', herror, hl'⟩
  · obtain ⟨found, hfound⟩ := hfound hk
    rw [hfound] at hl
    cases hl
  · cases hl.symm.trans hl'
    exact declareEach_cons_of_error herror

end

section

variable {uri : String} {t : Tree} {trail scope : Trail} {k : Kind} {cs : List Tree} {f : Fold}

theorem met_of_declares {kind : SymbolKind} (trail : Trail)
    (hk : declares (Tree.node k cs).kind = some kind) :
    (Tree.node k cs).met trail = (trail, .node k cs) ::
      if kind = .parameter then [] else Tree.metOf trail 0 cs := by
  have hk : declares k = some kind := hk
  have hparameter : k = .rule .functionValueParameter ↔ kind = .parameter := by
    constructor
    · rintro rfl
      cases hk
      rfl
    · rintro rfl
      exact Tree.eq_functionValueParameter hk
  simp [Tree.met, hk, hparameter]

theorem met_of_declares_eq_none (trail : Trail) (hk : declares (Tree.node k cs).kind = none) :
    (Tree.node k cs).met trail = Tree.metOf trail 0 cs := by
  have hk : declares k = none := hk
  have hparameter : k ≠ .rule .functionValueParameter := by
    rintro rfl
    cases hk
  simp [Tree.met, hk, hparameter]

/-- A scope for a node is none for the nodes below it. -/
theorem fresh_below {table table' : SymbolTable} {index : Nat}
    (hgrows : table.Grows table' [trail])
    (hfresh : ∀ x ∈ Tree.metOf trail index cs, table.scopeFor? table.visits x.1 = none) :
    ∀ x ∈ Tree.metOf trail index cs, table'.scopeFor? table'.visits x.1 = none := by
  intro x hx
  have hlength := Tree.length_lt_of_mem_metOf hx
  have hne : x.1 ∉ [trail] := by
    rw [List.mem_singleton]
    intro he
    rw [he] at hlength
    omega
  rw [hgrows.visits_eq, hgrows.kept x.1 hne]
  exact hfresh x hx

/-- Below a node that is no routine, the nearest routine is the one above the node. -/
theorem scopeOf?_around {table table' : SymbolTable} (ht : t.isRoutineAt trail = false)
    (hgrows : table.Grows table' [])
    (hscope : table.scopeOf? table.visits (t.owner trail) = some scope) :
    table'.scopeOf? table'.visits (t.routinesAround trail).head? = some scope := by
  rw [Tree.head?_routinesAround_eq_owner ht, hgrows.scopeOf?_eq (by simp), hscope]

/-- The visit of a node is that of its children, or there is nothing to visit below it, or it fails;
its declaration goes to the scope of the nearest routine above it, and its children are visited in
the scope of the nearest routine above them. -/
theorem enter_node (hat : t.at? trail = some (.node k cs))
    (hscope : f.table.scopeOf? f.table.visits (t.owner trail) = some scope)
    (hfresh : ∀ x ∈ (Tree.node k cs).met trail,
      f.table.scopeFor? f.table.visits x.1 = none) :
    (∃ e, enter uri trail scope (.node k cs) f = .error e f ∧
      declareEach uri t ((Tree.node k cs).met trail) f = .error e f) ∨
    (∃ f', enter uri trail scope (.node k cs) f = .ok none f' ∧
      declareEach uri t ((Tree.node k cs).met trail) f = .ok () f') ∨
    ∃ inner f', enter uri trail scope (.node k cs) f = .ok (some inner) f' ∧
      declareEach uri t ((Tree.node k cs).met trail) f =
        declareEach uri t (Tree.metOf trail 0 cs) f' ∧
      f'.table.scopeOf? f'.table.visits (t.routinesAround trail).head? = some inner ∧
      ∀ x ∈ Tree.metOf trail 0 cs, f'.table.scopeFor? f'.table.visits x.1 = none := by
  obtain ⟨s, hs⟩ := SymbolTable.exists_at?_of_scopeOf? hscope
  have hgetD : (f.table.scopeOf? f.table.visits (t.owner trail)).getD [] = scope := by
    rw [hscope, Option.getD_some]
  have hroutine : t.isRoutineAt trail = decide (declares k = some .routine) :=
    (Tree.isRoutineAt_of_at? hat).trans (Tree.isRoutine_node k cs)
  have henters := enters_enter hs uri trail (.node k cs)
  generalize hresult : enter uri trail scope (.node k cs) f = result at henters
  have hresult' : enter uri trail ((f.table.scopeOf? f.table.visits (t.owner trail)).getD [])
      (.node k cs) f = result := by
    rw [hgetD, hresult]
  cases henters with
  | @flawed _ e hk _ =>
    refine .inl ⟨e, rfl, ?_⟩
    rw [met_of_declares trail hk]
    exact declareEach_cons_of_error (declareAt_of_error hresult')
  | @parameter _ _ f' hk _ _ =>
    refine .inr (.inl ⟨f', rfl, ?_⟩)
    rw [met_of_declares trail hk]
    exact declareEach_cons_of_ok (declareAt_of_ok hresult')
  | silent hk =>
    have hmet := @met_of_declares_eq_none k cs trail hk
    have hnone : t.isRoutineAt trail = false := by
      rw [hroutine, show declares k = none from hk]
      rfl
    rw [hmet] at hfresh ⊢
    exact .inr (.inr ⟨scope, f, rfl, rfl, scopeOf?_around hnone (.refl _ _) hscope, hfresh⟩)
  | @value _ _ f' hk _ hf =>
    have hmet := @met_of_declares k cs _ trail hk
    have hne : t.isRoutineAt trail = false := by
      rw [hroutine, show declares k = some .value from hk]
      rfl
    have hgrows (places : List Trail) : f.table.Grows f'.table places := by
      rw [hf]
      exact SymbolTable.grows_symbols hs _ _
    rw [hmet] at hfresh ⊢
    refine .inr (.inr ⟨scope, f', rfl, ?_, scopeOf?_around hne (hgrows []) hscope, ?_⟩)
    · exact declareEach_cons_of_ok (declareAt_of_ok hresult')
    · exact fresh_below (hgrows _) (List.forall_mem_cons.1 hfresh).2
  | @routine _ _ f' hk _ hf =>
    have hmet := @met_of_declares k cs _ trail hk
    have hgrows : f.table.Grows f'.table [trail] := by
      rw [hf]
      exact SymbolTable.grows_scope hs _ _ _
    have hhere : t.isRoutineAt trail = true := by
      rw [hroutine, show declares k = some .routine from hk]
      rfl
    rw [hmet] at hfresh ⊢
    obtain ⟨hnone, hbelow⟩ := List.forall_mem_cons.1 hfresh
    refine .inr (.inr ⟨s.inner.length :: scope, f', rfl, ?_, ?_, fresh_below hgrows hbelow⟩)
    · exact declareEach_cons_of_ok (declareAt_of_ok hresult')
    · rw [Tree.head?_routinesAround hhere, hgrows.visits_eq, hf]
      exact SymbolTable.scopeFor?_scope hs _ _ hnone

end

mutual

/-- A visit declares what it meets, one by one. -/
theorem visitTree_eq_declareEach (uri : String) (t : Tree) (trail scope : Trail) (u : Tree)
    (f : Fold) (hu : u.isLeaf = false) (hat : t.at? trail = some u)
    (hscope : f.table.scopeOf? f.table.visits (t.owner trail) = some scope)
    (hfresh : ∀ x ∈ u.met trail, f.table.scopeFor? f.table.visits x.1 = none) :
    visitTree uri trail scope u f = declareEach uri t (u.met trail) f := by
  cases u with
  | leaf x => cases hu
  | node k cs =>
    rcases enter_node hat hscope hfresh with
      ⟨e, henter, hdeclare⟩ | ⟨f', henter, hdeclare⟩ |
      ⟨inner, f', henter, hdeclare, hscope', hfresh'⟩
    · rw [hdeclare]
      simp only [visitTree, bind, EStateM.bind, henter]
    · rw [hdeclare, visitTree_of_enter_none henter]
    · rw [hdeclare, visitTree_of_enter_some henter]
      exact visitAll_eq_declareEach uri t trail inner 0 cs f' k cs hat rfl hscope' hfresh'

theorem visitAll_eq_declareEach (uri : String) (t : Tree) (trail scope : Trail) (index : Nat)
    (ts : List Tree) (f : Fold) (k : Kind) (cs : List Tree) (hat : t.at? trail = some (.node k cs))
    (hts : cs.drop index = ts)
    (hscope : f.table.scopeOf? f.table.visits (t.routinesAround trail).head? = some scope)
    (hfresh : ∀ x ∈ Tree.metOf trail index ts, f.table.scopeFor? f.table.visits x.1 = none) :
    visitAll uri trail scope index ts f = declareEach uri t (Tree.metOf trail index ts) f := by
  cases ts with
  | nil => rfl
  | cons u us =>
    obtain ⟨hchild, hrest⟩ := Tree.at?_child hat hts
    rw [Tree.metOf, List.forall_mem_append] at hfresh
    rw [Tree.metOf]
    cases u with
    | leaf x =>
      exact visitAll_eq_declareEach uri t trail scope (index + 1) us f k cs hat hrest hscope
        hfresh.2
    | node l ds =>
      have hfirst := visitTree_eq_declareEach uri t (index :: trail) scope (.node l ds) f rfl hchild
        hscope hfresh.1
      cases hdeclared : declareEach uri t ((Tree.node l ds).met (index :: trail)) f with
      | error e f' =>
        rw [declareEach_append_of_error hdeclared]
        simp only [visitAll, bind, EStateM.bind, hfirst, hdeclared]
      | ok u f' =>
        have hgrows := grows_of_declareEach hdeclared
        rw [declareEach_append_of_ok hdeclared, visitAll_of_visitTree (hfirst.trans hdeclared)]
        apply visitAll_eq_declareEach uri t trail scope (index + 1) us f' k cs hat hrest
        · rw [hgrows.scopeOf?_eq, hscope]
          intro place hplace hmet
          obtain ⟨x, hx, rfl⟩ := List.mem_map.1 hmet
          have habove := Tree.length_le_of_routinesAround hplace
          have hlength := Tree.length_le_of_mem_met hx
          rw [List.length_cons] at hlength
          omega
        · intro x hx
          rw [hgrows.visits_eq, hgrows.kept x.1 (Tree.notMem_met_of_mem_metOf hx)]
          exact hfresh.2 x hx

end

end Fold

end Mykt
