import Mykt.Proofs.Declaration.Flaw
import Mykt.Proofs.Declaration.Stepwise

/-!
Visits of trees made by hand, which may fail. Main statements: a visit depends on the table alone;
it fails exactly if it meets a flawed node, with the error of the first one; the table then holds
what was declared before that node, its scopes lead up to the global one, and later visits go on
from it.
-/

namespace Mykt

namespace Fold

/-- What a result tells, apart from events. -/
def told {α : Type} : EStateM.Result DeclarationError Fold α →
    Except DeclarationError α × SymbolTable
  | .ok a f => (.ok a, f.table)
  | .error e f => (.error e, f.table)

section

variable {α β : Type} {f g : Fold}

theorem told_bind {x : Step α} {k : α → Step β} (hx : told (x f) = told (x g))
    (hk : ∀ a f' g', f'.table = g'.table → told (k a f') = told (k a g')) :
    told ((x >>= k) f) = told ((x >>= k) g) := by
  simp only [bind, EStateM.bind]
  cases hf : x f with
  | ok a f' =>
    cases hg : x g with
    | ok b g' =>
      obtain ⟨rfl, htable⟩ : a = b ∧ f'.table = g'.table := by simpa [told, hf, hg] using hx
      exact hk a f' g' htable
    | error e g' => simp [told, hf, hg] at hx
  | error e f' =>
    cases hg : x g with
    | ok b g' => simp [told, hf, hg] at hx
    | error e' g' => simpa [told, hf, hg] using hx

theorem told_enter (h : f.table = g.table) (uri : String) (trail scope : Trail) (t : Tree) :
    told (enter uri trail scope t f) = told (enter uri trail scope t g) := by
  unfold enter
  cases declares t.kind with
  | none => exact congrArg (Prod.mk (Except.ok (some scope))) h
  | some kind =>
    simp only [declare]
    cases locate uri t with
    | error e => exact congrArg (Prod.mk (Except.error e)) h
    | ok found =>
      cases kind <;> simp [told, table_define, table_openInner, nextInner, h]

end

mutual

/-- A visit depends on the table alone. -/
theorem told_visitTree (uri : String) (trail scope : Trail) (t : Tree) {f g : Fold}
    (h : f.table = g.table) :
    told (visitTree uri trail scope t f) = told (visitTree uri trail scope t g) := by
  cases t with
  | leaf x =>
    rw [visitTree]
    apply told_bind (told_enter h uri trail scope (.leaf x))
    intro inner f' g' h'
    exact congrArg (Prod.mk (Except.ok ())) h'
  | node k cs =>
    rw [visitTree]
    apply told_bind (told_enter h uri trail scope (.node k cs))
    intro inner f' g' h'
    cases inner with
    | none => exact congrArg (Prod.mk (Except.ok ())) h'
    | some inner => exact told_visitAll uri trail inner 0 cs h'

theorem told_visitAll (uri : String) (trail scope : Trail) (index : Nat) (ts : List Tree)
    {f g : Fold} (h : f.table = g.table) :
    told (visitAll uri trail scope index ts f) = told (visitAll uri trail scope index ts g) := by
  cases ts with
  | nil => exact congrArg (Prod.mk (Except.ok ())) h
  | cons t ts =>
    cases t with
    | leaf x => exact told_visitAll uri trail scope (index + 1) ts h
    | node k cs =>
      rw [visitAll]
      apply told_bind (told_visitTree uri (index :: trail) scope (.node k cs) h)
      intro _ f' g' h'
      exact told_visitAll uri trail scope (index + 1) ts h'

end

/-- One more visit is counted. -/
def counted (f : Fold) : Fold := { f with table := { f.table with visits := f.table.visits + 1 } }

/-- Tries to visit a tree: what went wrong, if anything, and what there is after it. -/
def attempt (uri : String) (t : Tree) (f : Fold) : Option DeclarationError × Fold :=
  match visit uri t f with
  | .ok () f' => (none, f')
  | .error e f' => (some e, f')

/-- Tries to visit trees in order, each under the address of its document. -/
def attemptEach : List (String × Tree) → Fold → List (Option DeclarationError) × Fold
  | [], f => ([], f)
  | x :: xs, f =>
    let first := attempt x.1 x.2 f
    let rest := attemptEach xs first.2
    (first.1 :: rest.1, rest.2)

theorem visit_eq (uri : String) (t : Tree) (f : Fold) :
    visit uri t f =
      match visitTree uri [] [] t f with
      | .ok () f' => .ok () f'.counted
      | .error e f' => .error e f'.counted := rfl

theorem attempt_congr {f g : Fold} (h : f.table = g.table) (uri : String) (t : Tree) :
    (attempt uri t f).1 = (attempt uri t g).1 ∧
      (attempt uri t f).2.table = (attempt uri t g).2.table := by
  have htold := told_visitTree uri [] [] t h
  unfold attempt
  rw [visit_eq, visit_eq]
  cases hf : visitTree uri [] [] t f with
  | ok u f' =>
    cases hg : visitTree uri [] [] t g with
    | ok v g' =>
      have htable : f'.table = g'.table := by simpa [told, hf, hg] using htold
      simp [counted, htable]
    | error e g' => simp [told, hf, hg] at htold
  | error e f' =>
    cases hg : visitTree uri [] [] t g with
    | ok v g' => simp [told, hf, hg] at htold
    | error e' g' =>
      obtain ⟨rfl, htable⟩ : e = e' ∧ f'.table = g'.table := by simpa [told, hf, hg] using htold
      simp [counted, htable]

/-- Visits depend on the table alone. -/
theorem attemptEach_congr {f g : Fold} (h : f.table = g.table) (xs : List (String × Tree)) :
    (attemptEach xs f).1 = (attemptEach xs g).1 ∧
      (attemptEach xs f).2.table = (attemptEach xs g).2.table := by
  induction xs generalizing f g with
  | nil => exact ⟨rfl, h⟩
  | cons x xs ih =>
    obtain ⟨hfirst, htable⟩ := attempt_congr h x.1 x.2
    obtain ⟨hrest, hlast⟩ := ih htable
    exact ⟨congrArg₂ List.cons hfirst hrest, hlast⟩

end Fold

namespace SymbolTable

/-- Every scope belongs to a tree visited before, and only the global one to none. -/
structure Settled (table : SymbolTable) : Prop where
  numbered : ∀ x ∈ table.anchors, ∀ a, x.2 = some a → a.document < table.visits
  rooted : ∀ x ∈ table.anchors, x.2 = none ↔ x.1 = []

theorem settled_empty : empty.Settled where
  numbered := by decide
  rooted := by decide

section

variable {table table' : SymbolTable} {places : List Trail}

/-- No node of the next tree has a scope yet. -/
theorem Settled.scopeFor?_eq_none (h : table.Settled) (place : Trail) :
    table.scopeFor? table.visits place = none := by
  rw [scopeFor?_eq_find?, Option.map_eq_none_iff, List.find?_eq_none]
  intro x hx hanchor
  obtain ⟨a, ha, hsame⟩ := (Option.any_eq_true _ _).1 hanchor
  have hbefore := h.numbered x hx a ha
  simp only [Bool.and_eq_true, decide_eq_true_eq] at hsame
  omega

theorem Settled.grows (h : table.Settled) (hg : table.Grows table' places) :
    ({ table' with visits := table'.visits + 1 } : SymbolTable).Settled where
  numbered := by
    intro x hx a ha
    have hvisits := hg.visits_eq
    rcases hg.opened x hx with hold | ⟨i, scope, place, kind, rfl⟩
    · have hbefore := h.numbered x hold a ha
      simp only
      omega
    · cases ha
      simp only
      omega
  rooted := by
    intro x hx
    rcases hg.opened x hx with hold | ⟨i, scope, place, kind, rfl⟩
    · exact h.rooted x hold
    · simp

theorem exists_at?_of_mem_upward {place around : Trail} {s : Scope}
    (hs : table.root.at? place = some s) (ha : around ∈ Trail.upward place) :
    ∃ u, table.root.at? around = some u := by
  induction place generalizing s with
  | nil =>
    rw [List.mem_singleton.1 ha]
    exact ⟨s, hs⟩
  | cons i above ih =>
    rcases List.mem_cons.1 ha with rfl | ha
    · exact ⟨s, hs⟩
    · rw [Scope.at?_cons] at hs
      obtain ⟨v, hv, -⟩ := Option.bind_eq_some_iff.1 hs
      exact ih hv ha

/-- The scopes around a scope are there, and the last of them is the global one. -/
theorem Settled.upward (h : table.Settled) {place : Trail} {s : Scope}
    (hs : (place, s) ∈ table.scopes) :
    (Trail.upward place).getLast? = some [] ∧ ∀ around ∈ Trail.upward place,
      ∃ u, table.root.at? around = some u ∧ (u.anchor = none ↔ around = []) := by
  refine ⟨Trail.getLast?_upward place, ?_⟩
  intro around ha
  obtain ⟨u, hu⟩ := exists_at?_of_mem_upward (Scope.mem_outline_nil.1 hs) ha
  have hanchor : (around, u.anchor) ∈ table.anchors :=
    List.mem_map_of_mem (Scope.mem_outline_nil.2 hu)
  exact ⟨u, hu, h.rooted _ hanchor⟩

end

end SymbolTable

namespace Fold

section

variable {f g : Fold}

theorem settled_counted (h : f.table.Settled) {places : List Trail}
    (hg : f.table.Grows g.table places) : g.counted.table.Settled :=
  h.grows hg

theorem visit_node (h : f.table.Settled) (uri : String) (k : Kind) (cs : List Tree) :
    visit uri (.node k cs) f =
      match declareEach uri (.node k cs) ((Tree.node k cs).met []) f with
      | .ok () g => .ok () g.counted
      | .error e g => .error e g.counted := by
  have hvisit : visitTree uri [] [] (.node k cs) f =
      declareEach uri (.node k cs) ((Tree.node k cs).met []) f := by
    apply visitTree_eq_declareEach uri (.node k cs) [] [] (.node k cs) f rfl rfl rfl
    intro x _
    exact h.scopeFor?_eq_none x.1
  rw [visit_eq, hvisit]

theorem settled_attempt (h : f.table.Settled) (uri : String) (t : Tree) :
    (attempt uri t f).2.table.Settled := by
  cases t with
  | leaf x =>
    have hkept : f.counted.table.Settled := settled_counted h (.refl _ [])
    -- a leaf has no name, so it is not declared
    have hvisit : visitTree uri [] [] (.leaf x) f = .ok () f ∨
        ∃ e, visitTree uri [] [] (.leaf x) f = .error e f := by
      obtain ⟨s, hs⟩ : ∃ s, f.table.root.at? [] = some s := ⟨_, rfl⟩
      have hnone : locate uri (.leaf x) = .error (.unnamed x.kind) := rfl
      have henters := enters_enter hs uri [] (.leaf x)
      generalize hresult : enter uri [] [] (.leaf x) f = result at henters
      cases henters with
      | silent =>
        refine .inl ?_
        simp only [visitTree, bind, EStateM.bind, hresult]
        rfl
      | @flawed _ e =>
        refine .inr ⟨e, ?_⟩
        simp only [visitTree, bind, EStateM.bind, hresult]
      | value _ hl | parameter _ hl | routine _ hl =>
        rw [hnone] at hl
        cases hl
    unfold attempt
    rw [visit_eq]
    rcases hvisit with hvisit | ⟨e, hvisit⟩
    · simpa only [hvisit] using hkept
    · simpa only [hvisit] using hkept
  | node k cs =>
    unfold attempt
    rw [visit_node h]
    rcases declareEach_cases uri (.node k cs) ((Tree.node k cs).met []) f with
      ⟨g, hok, hgrows, -⟩ | ⟨_, _, _, e, g, -, -, herror, hgrows⟩
    · simpa only [hok] using settled_counted h hgrows
    · simpa only [herror] using settled_counted h hgrows

theorem settled_attemptEach (h : f.table.Settled) (xs : List (String × Tree)) :
    (attemptEach xs f).2.table.Settled := by
  induction xs generalizing f with
  | nil => exact h
  | cons x xs ih => exact ih (settled_attempt h x.1 x.2)

theorem exists_locate_of_not_flawed {t : Tree} (uri : String)
    (h : ∀ label message, ¬ t.Flawed label message) : ∃ found, locate uri t = .ok found := by
  cases hl : locate uri t with
  | ok found => exact ⟨found, rfl⟩
  | error e => exact absurd ((Tree.flawed_iff uri).2 ⟨e, hl, rfl, rfl⟩) (h _ _)

end

end Fold

namespace Tree

mutual

theorem declares_of_mem_met (t : Tree) (trail : Trail) {x : Trail × Tree} (h : x ∈ t.met trail) :
    Fold.declares x.2.kind ≠ none := by
  cases t with
  | leaf y => cases h
  | node k cs =>
    rw [met, List.mem_append] at h
    rcases h with h | h
    · split at h
      · next hk =>
        rw [List.mem_singleton.1 h]
        exact Option.isSome_iff_ne_none.1 hk
      · cases h
    · split at h
      · cases h
      · exact declares_of_mem_metOf cs trail 0 h

theorem declares_of_mem_metOf (ts : List Tree) (trail : Trail) (index : Nat) {x : Trail × Tree}
    (h : x ∈ metOf trail index ts) : Fold.declares x.2.kind ≠ none := by
  cases ts with
  | nil => cases h
  | cons t ts =>
    rw [metOf, List.mem_append] at h
    rcases h with h | h
    · exact declares_of_mem_met t _ h
    · exact declares_of_mem_metOf ts trail (index + 1) h

end

end Tree

namespace Fold

section

variable {f : Fold} {k : Kind} {cs : List Tree}

theorem visit_fails_iff (h : f.table.Settled) (uri : String) (k : Kind) (cs : List Tree) :
    (∃ e g, visit uri (.node k cs) f = .error e g) ↔
      ∃ x ∈ (Tree.node k cs).met [], ∃ label message, x.2.Flawed label message := by
  have hvisit := visit_node h uri k cs
  rcases declareEach_cases uri (.node k cs) ((Tree.node k cs).met []) f with
    ⟨g, hok, -, hall⟩ | ⟨before, x, behind, e, g, hmet, hl, herror, -⟩
  · rw [hok] at hvisit
    constructor
    · rintro ⟨e, g', he⟩
      cases hvisit.symm.trans he
    · rintro ⟨x, hx, label, message, hflawed⟩
      obtain ⟨found, hfound⟩ := hall x hx (Tree.declares_of_mem_met _ [] hx)
      obtain ⟨e, he, -⟩ := (Tree.flawed_iff uri).1 hflawed
      cases hfound.symm.trans he
  · rw [herror] at hvisit
    have hflawed := (Tree.flawed_iff uri).2 ⟨e, hl, rfl, rfl⟩
    exact iff_of_true ⟨e, g.counted, hvisit⟩ ⟨x, by simp [hmet], _, _, hflawed⟩

/-- A visit that meets no flawed node declares all that it meets. -/
theorem visit_of_not_flawed (h : f.table.Settled) (uri : String)
    (hall : ∀ x ∈ (Tree.node k cs).met [], ∀ label message, ¬ x.2.Flawed label message) :
    ∃ g, declareEach uri (.node k cs) ((Tree.node k cs).met []) f = .ok () g ∧
      visit uri (.node k cs) f = .ok () g.counted := by
  have hfound : ∀ x ∈ (Tree.node k cs).met [], ∃ found, locate uri x.2 = .ok found := by
    intro x hx
    exact exists_locate_of_not_flawed uri (hall x hx)
  obtain ⟨g, hg⟩ := exists_declareEach hfound (.node k cs) f
  refine ⟨g, hg, ?_⟩
  rw [visit_node h, hg]

/-- A visit stops at the first flawed node, with what was declared before. -/
theorem visit_of_flawed (h : f.table.Settled) (uri : String)
    {before behind : List (Trail × Tree)} {x : Trail × Tree} {label message : String}
    (hmet : (Tree.node k cs).met [] = before ++ x :: behind)
    (hbefore : ∀ y ∈ before, ∀ label message, ¬ y.2.Flawed label message)
    (hflawed : x.2.Flawed label message) :
    ∃ e g, declareEach uri (.node k cs) before f = .ok () g ∧
      visit uri (.node k cs) f = .error e g.counted ∧
      (Failure.declaration e).name = label ∧ (Failure.declaration e).message = message := by
  obtain ⟨e, hl, hname, hmessage⟩ := (Tree.flawed_iff uri).1 hflawed
  have hfound : ∀ y ∈ before, ∃ found, locate uri y.2 = .ok found := by
    intro y hy
    exact exists_locate_of_not_flawed uri (hbefore y hy)
  obtain ⟨g, hg⟩ := exists_declareEach hfound (.node k cs) f
  have hx : x ∈ (Tree.node k cs).met [] := by simp [hmet]
  refine ⟨e, g, hg, ?_, hname, hmessage⟩
  rw [visit_node h, hmet, declareEach_of_error hg (Tree.declares_of_mem_met _ [] hx) hl]

end

/-- A visit of a tree made by hand fails exactly if it meets a flawed node, with the error of the
first one. What it met before is declared and nothing else is; scopes lead up to the global one; and
later visits depend on that table alone. -/
theorem visit_keeps_declared (earlier : List (String × Tree)) (uri : String) (k : Kind)
    (cs : List Tree) :
    let f := (attemptEach earlier .start).2
    let t := Tree.node k cs
    let after := (attempt uri t f).2
    ((∃ e g, visit uri t f = .error e g) ↔
      ∃ x ∈ t.met [], ∃ label message, x.2.Flawed label message) ∧
    (∀ before x behind label message, t.met [] = before ++ x :: behind →
      (∀ y ∈ before, ∀ label message, ¬ y.2.Flawed label message) →
      x.2.Flawed label message →
      ∃ e g, declareEach uri t before f = .ok () g ∧ visit uri t f = .error e g.counted ∧
        (Failure.declaration e).name = label ∧ (Failure.declaration e).message = message) ∧
    ((∀ x ∈ t.met [], ∀ label message, ¬ x.2.Flawed label message) →
      ∃ g, declareEach uri t (t.met []) f = .ok () g ∧ visit uri t f = .ok () g.counted) ∧
    (∀ place s, (place, s) ∈ after.table.scopes →
      (Trail.upward place).getLast? = some [] ∧ ∀ around ∈ Trail.upward place,
        ∃ u, after.table.root.at? around = some u ∧ (u.anchor = none ↔ around = [])) ∧
    ∀ g later, g.table = after.table →
      (attemptEach later g).1 = (attemptEach later after).1 ∧
      (attemptEach later g).2.table = (attemptEach later after).2.table := by
  intro f t after
  have hsettled : f.table.Settled := settled_attemptEach SymbolTable.settled_empty earlier
  refine ⟨visit_fails_iff hsettled uri k cs, ?_, visit_of_not_flawed hsettled uri, ?_, ?_⟩
  · intro before x behind label message hmet hbefore hflawed
    exact visit_of_flawed hsettled uri hmet hbefore hflawed
  · intro place s hs
    exact (settled_attempt hsettled uri t).upward hs
  · intro g later hg
    exact attemptEach_congr hg later

/-- A routine and its variable are kept when a parameter behind them has no name. -/
theorem visit_keeps_declared_parameter :
    let word (text : String) (column : Int) : Tree :=
      .node (.rule .simpleIdentifier) [.leaf ⟨.terminal .name, text, 1, column⟩]
    let value := Tree.node (.rule .variableDeclaration) [word "x" 4]
    let parameter := Tree.node (.rule .functionValueParameter) []
    let routine := Tree.node (.rule .functionDeclaration) [word "f" 0, value, parameter]
    let t := Tree.node (.other "made") [routine, value]
    ∃ e g, t.met [] = [([0], routine), ([1, 0], value), ([2, 0], parameter), ([1], value)] ∧
      declareEach "file:///m" t [([0], routine), ([1, 0], value)] .start = .ok () g ∧
      visit "file:///m" t .start = .error e g.counted ∧
      (Failure.declaration e).message = "function_value_parameter without a name" ∧
      g.table.scopes.map (·.2.names) = [["f"], ["x"]] := by
  intro word value parameter routine t
  have hfound : ∀ x ∈ [(([0] : Trail), routine), ([1, 0], value)],
      ∀ label message, ¬ x.2.Flawed label message := by
    intro x hx label message hflawed
    obtain ⟨e, he, -⟩ := (Tree.flawed_iff "").1 hflawed
    simp only [List.mem_cons, List.not_mem_nil, or_false] at hx
    rcases hx with rfl | rfl
    · cases he
    · cases he
  have hflawed : parameter.Flawed "ValueError" "function_value_parameter without a name" :=
    .unnamed (fun _ hc => absurd hc List.not_mem_nil)
  have hmet : t.met [] =
      [([0], routine), ([1, 0], value)] ++ ([2, 0], parameter) :: [([1], value)] := rfl
  obtain ⟨-, hfails, -⟩ := visit_keeps_declared [] "file:///m" (.other "made") [routine, value]
  obtain ⟨e, g, hg, hvisit, -, hmessage⟩ := hfails _ _ _ _ _ hmet hfound hflawed
  have hnames : ((attempt "file:///m" t .start).2.table.scopes.map (·.2.names)) =
      [["f"], ["x"]] := by
    decide +kernel
  simp only [attempt] at hnames
  refine ⟨e, g, hmet, hg, hvisit, hmessage, ?_⟩
  have hstart : visit "file:///m" t .start = .error e g.counted := hvisit
  rw [hstart] at hnames
  exact hnames

end Fold

end Mykt
