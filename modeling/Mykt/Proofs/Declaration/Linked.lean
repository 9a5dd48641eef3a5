import Mykt.Proofs.Declaration.Attempt
import Mykt.Proofs.Scope.Linked

/-!
Visits that fill linked scopes. Main statements: the steps of a visit change linked scopes as they
change scopes that hold each other; so a visit with a stack ends as the recursive one does, with its
failures and messages, and leaves the same table.
-/

namespace Mykt

theorem Scope.insert_insert {x y : Symbol} (h : x.name = y.name) (ss : List Symbol) :
    insert x (insert y ss) = insert x ss := by
  induction ss with
  | nil => simp [insert, h]
  | cons z ss ih =>
    by_cases hz : z.name = y.name
    · simp [insert, h, hz]
    · simp [insert, h, hz, ih]

theorem Fold.events_define {f : Fold} {scope : Trail} {s : Scope} {x : Symbol}
    (h : f.table.root.at? scope = some s) : (f.define scope x).events =
      f.events ++ if s.names.contains x.name then [redeclaration x.name s] else [] := by
  simp only [define, h]
  split <;> simp

namespace Registry

variable {g : Registry} {uri : String} {trail : Trail} {scope n : Nat} {t : Tree} {x : Entry}
  {a : Anchor}

theorem names_nested (g : Registry) (n : Nat) : (g.nested n).names = (g.frame n).names := by
  rw [nested_eq, Frame.scope, Scope.names, Scope.symbols, List.map_map]
  rfl

/-- A scope is told from its node and its names. -/
theorem redeclaration_nested (g : Registry) (n : Nat) (name : String) :
    Fold.redeclaration name (g.nested n) =
      Fold.redeclaration name ((g.frame n).scope (fun _ => []) []) := by
  have hnames : ((g.frame n).scope (fun _ => []) []).names = (g.frame n).names := by
    rw [Frame.scope, Scope.names, Scope.symbols, List.map_map]
    rfl
  rw [Fold.redeclaration, Fold.redeclaration, Scope.describe, Scope.describe, names_nested, hnames,
    nested_eq]
  rfl

theorem Sound.fold_define (h : g.Sound) (hs : scope < g.frames.size) :
    (g.define scope x).fold = g.fold.define (g.frames.trail scope) (x.symbol g.frames.trail) := by
  have htable : (⟨(g.record scope x).nested 0, g.visits⟩ : SymbolTable) =
      (g.fold.define (g.frames.trail scope) (x.symbol g.frames.trail)).table := by
    rw [h.nested_record hs]
    rfl
  have hevents : (g.define scope x).events =
      (g.fold.define (g.frames.trail scope) (x.symbol g.frames.trail)).events := by
    rw [Fold.events_define (h.at?_nested hs), names_nested, redeclaration_nested, Registry.define]
    rfl
  exact congrArg₂ Fold.mk htable hevents

theorem Sound.nextInner_fold (h : g.Sound) (hs : scope < g.frames.size) :
    g.fold.nextInner (g.frames.trail scope) =
      (g.frames.below scope).length :: g.frames.trail scope := by
  rw [Fold.nextInner]
  change ((((g.nested 0).at? (g.frames.trail scope)).map (·.inner.length)).getD 0) :: _ = _
  rw [h.at?_nested hs, nested_eq]
  simp [Frame.scope]

/-- A sound registry in which scopes of an earlier one keep their trails. -/
structure Extends (g g' : Registry) : Prop where
  sound : g'.Sound
  size_le : g.frames.size ≤ g'.frames.size
  trail_eq : ∀ n < g.frames.size, g'.frames.trail n = g.frames.trail n

theorem Extends.refl (h : g.Sound) : g.Extends g := ⟨h, Nat.le_refl _, fun _ _ => rfl⟩

theorem Extends.trans {g' g'' : Registry} (h : g.Extends g') (h' : g'.Extends g'') :
    g.Extends g'' where
  sound := h'.sound
  size_le := Nat.le_trans h.size_le h'.size_le
  trail_eq := fun n hn =>
    (h'.trail_eq n (Nat.lt_of_lt_of_le hn h.size_le)).trans (h.trail_eq n hn)

theorem Sound.extends_define (h : g.Sound) (hs : scope < g.frames.size) (hx : x.opens = none) :
    g.Extends (g.define scope x) where
  sound := h.define hs (by simp [hx])
  size_le := Nat.le_of_eq size_define.symm
  trail_eq := fun n _ => by rw [trail_define]

theorem Sound.nextInner_define (h : g.Sound) (hs : scope < g.frames.size) (hx : x.opens = none) :
    (g.define scope x).fold.nextInner (g.frames.trail scope) =
      g.fold.nextInner (g.frames.trail scope) := by
  have hdefine := h.extends_define hs hx
  rw [h.nextInner_fold hs, ← hdefine.trail_eq scope hs,
    hdefine.sound.nextInner_fold (by simpa using hs), below_define]

section

variable (h : g.Sound) (hs : scope < g.frames.size) (a : Anchor) (x : Entry)

include hs

theorem size_openFor : (g.openFor scope a x).frames.size = g.frames.size + 1 := by
  rw [openFor, size_record, size_openScope hs]

include h

theorem Sound.extends_openFor : g.Extends (g.openFor scope a x) := by
  have hsize := size_openScope (a := a) hs
  refine ⟨?_, by rw [size_openFor hs]; omega, ?_⟩
  · refine (h.openScope hs).record (by omega) ?_
    intro k hk
    obtain rfl : g.frames.size = k := by simpa using hk
    omega
  · intro n hn
    rw [openFor, trail_record, h.trail_openScope hs hn]

theorem Sound.trail_openFor : (g.openFor scope a x).frames.trail g.frames.size =
    g.fold.nextInner (g.frames.trail scope) := by
  rw [openFor, trail_record, h.trail_openScope_size hs, h.nextInner_fold hs]

theorem Sound.nested_openFor : (g.openFor scope a x).nested 0 =
    (g.nested 0).modifyAt (g.frames.trail scope) fun s => (s.openInner a).define
      ⟨x.name, x.kind, x.location, some (g.fold.nextInner (g.frames.trail scope))⟩ := by
  have hs' : scope < (g.openScope scope a).frames.size := by
    rw [size_openScope hs]
    omega
  have hnew := h.trail_openFor hs a x
  rw [openFor, trail_record] at hnew
  rw [openFor, (h.openScope hs).nested_record hs', h.nested_openScope hs, h.trail_openScope hs hs,
    Scope.modifyAt_modifyAt, Entry.symbol, Option.map_some, hnew]
  rfl

end

/-- A routine is declared first and opens its scope then; both may be said at once. -/
theorem Sound.fold_routine (h : g.Sound) (hs : scope < g.frames.size) (name : String)
    (location : Option Location) (a : Anchor) :
    ((g.define scope ⟨name, .routine, location, none⟩).openFor scope a
        ⟨name, .routine, location, none⟩).fold =
      (g.fold.define (g.frames.trail scope) ⟨name, .routine, location,
        some (g.fold.nextInner (g.frames.trail scope))⟩).openInner (g.frames.trail scope) a := by
  have hdefine := h.extends_define (x := ⟨name, .routine, location, none⟩) hs rfl
  have hfold := h.fold_define (x := ⟨name, .routine, location, none⟩) hs
  have hs' : scope < (g.define scope ⟨name, .routine, location, none⟩).frames.size := by
    simpa using hs
  rw [fold, Fold.openInner, Fold.mk.injEq]
  refine ⟨?_, congrArg Fold.events hfold⟩
  rw [hdefine.sound.nested_openFor hs', trail_define, h.nextInner_define hs rfl]
  change (⟨((g.record scope _).nested 0).modifyAt _ _, g.visits⟩ : SymbolTable) =
    ⟨((g.nested 0).modifyAt _ _).modifyAt _ _, g.visits⟩
  rw [h.nested_record hs, Scope.modifyAt_modifyAt, Scope.modifyAt_modifyAt]
  congr 2
  funext s
  obtain ⟨anchor, ss, is⟩ := s
  change Scope.mk anchor _ _ = Scope.mk anchor _ _
  rw [Scope.mk.injEq]
  refine ⟨rfl, ?_, rfl⟩
  apply Scope.insert_insert
  rfl

/-! Visits -/

/-- Visits nodes in order, each at its trail and in its scope. -/
def visitNodes (uri : String) : List (Trail × Trail × Tree) → Fold.Step Unit
  | [] => pure ()
  | x :: xs => do
    Fold.visitTree uri x.1 x.2.1 x.2.2
    visitNodes uri xs

/-- Results of a visit with a stack and of a recursive one that tell the same. -/
inductive Agrees (g : Registry) {α β : Type} (R : Registry → α → β → Prop) :
    EStateM.Result DeclarationError Registry α → EStateM.Result DeclarationError Fold β → Prop where
  | ok {x : α} {y : β} {g' : Registry} (hg : g.Extends g') (hr : R g' x y) :
      Agrees g R (.ok x g') (.ok y g'.fold)
  | error {e : DeclarationError} {g' : Registry} (hg : g.Extends g') :
      Agrees g R (.error e g') (.error e g'.fold)

/-- A scope that there is, and its trail. -/
def Names (g : Registry) (inner : Option Nat) (place : Option Trail) : Prop :=
  place = inner.map g.frames.trail ∧ ∀ n, inner = some n → n < g.frames.size

theorem Names.of_lt (hs : scope < g.frames.size) :
    Names g (some scope) (some (g.frames.trail scope)) := by
  refine ⟨rfl, ?_⟩
  intro n hn
  have he : scope = n := Option.some.inj hn
  omega

theorem agrees_enter (uri : String) (trail : Trail) (t : Tree) (h : g.Sound)
    (hs : scope < g.frames.size) :
    Agrees g Names (enter uri trail scope t g)
      (Fold.enter uri trail (g.frames.trail scope) t g.fold) := by
  unfold enter Fold.enter
  cases Fold.declares t.kind with
  | none => exact Agrees.ok (.refl h) (.of_lt hs)
  | some kind =>
    simp only [declare, Fold.declare]
    cases Fold.locate uri t with
    | error e => exact Agrees.error (.refl h)
    | ok found =>
      obtain ⟨name, location⟩ := found
      let x : Entry := ⟨name, kind, some location, none⟩
      have hdefine : g.Extends (g.define scope x) := h.extends_define hs rfl
      have hs' : scope < (g.define scope x).frames.size := by simpa using hs
      have hfold : (g.define scope x).fold =
          g.fold.define (g.frames.trail scope) ⟨name, kind, some location, none⟩ := h.fold_define hs
      cases kind with
      | value =>
        have hnames : Names (g.define scope x) (some scope) (some (g.frames.trail scope)) := by
          have hplace := Names.of_lt hs'
          rwa [trail_define] at hplace
        simp only [← hfold]
        exact .ok hdefine hnames
      | parameter =>
        simp only [← hfold]
        exact .ok hdefine ⟨rfl, by simp⟩
      | routine =>
        have hopen := hdefine.sound.extends_openFor hs' ⟨g.visits, trail, t.kind⟩ x
        have hsize := size_openFor hs' ⟨g.visits, trail, t.kind⟩ x
        have hplace := hdefine.sound.trail_openFor hs' ⟨g.visits, trail, t.kind⟩ x
        rw [trail_define, h.nextInner_define hs rfl] at hplace
        have hnames : Names ((g.define scope x).openFor scope ⟨g.visits, trail, t.kind⟩ x)
            (some (g.define scope x).frames.size)
            (some (g.fold.nextInner (g.frames.trail scope))) := by
          rw [← hplace]
          exact .of_lt (by omega)
        change Agrees g Names _ (.ok _ (Fold.openInner _ _ ⟨g.visits, trail, t.kind⟩))
        rw [← h.fold_routine hs name (some location)]
        exact .ok (hdefine.trans hopen) hnames

theorem visitAll_eq (uri : String) (trail place : Trail) (index : Nat) (ts : List Tree) :
    Fold.visitAll uri trail place index ts =
      visitNodes uri (((ts.zipIdx index).filter fun x => !x.1.isLeaf).map fun x =>
        (x.2 :: trail, place, x.1)) := by
  induction ts generalizing index with
  | nil => rfl
  | cons t ts ih =>
    rw [List.zipIdx_cons, List.filter_cons]
    cases t with
    | leaf x => exact ih (index + 1)
    | node k cs =>
      rw [Fold.visitAll, ih]
      rfl

/-- A recursive visit enters a node and then visits what a visit with a stack would put there. -/
theorem visitTree_eq (uri : String) (trail place : Trail) (t : Tree) (f : Fold) :
    Fold.visitTree uri trail place t f =
      match Fold.enter uri trail place t f with
      | .error e f => .error e f
      | .ok none f => .ok () f
      | .ok (some inner) f => visitNodes uri (pending trail inner t) f := by
  cases t with
  | leaf x =>
    rw [Fold.visitTree]
    simp only [bind, EStateM.bind]
    cases Fold.enter uri trail place (.leaf x) f with
    | error e f => rfl
    | ok inner f => cases inner <;> rfl
  | node k cs =>
    rw [Fold.visitTree]
    simp only [bind, EStateM.bind]
    cases Fold.enter uri trail place (.node k cs) f with
    | error e f => rfl
    | ok inner f =>
      cases inner with
      | none => rfl
      | some inner => exact congrFun (visitAll_eq uri trail inner 0 cs) f

theorem visitNodes_append (uri : String) (xs ys : List (Trail × Trail × Tree)) (f : Fold) :
    visitNodes uri (xs ++ ys) f =
      match visitNodes uri xs f with
      | .error e f => .error e f
      | .ok () f => visitNodes uri ys f := by
  induction xs generalizing f with
  | nil => rfl
  | cons x xs ih =>
    rw [List.cons_append, visitNodes, visitNodes]
    simp only [bind, EStateM.bind]
    cases Fold.visitTree uri x.1 x.2.1 x.2.2 f with
    | error e f => rfl
    | ok u f => exact ih f

/-- Recursive visits of nodes in order go on as a visit with a stack does. -/
theorem visitNodes_cons (uri : String) (trail place : Trail) (t : Tree)
    (xs : List (Trail × Trail × Tree)) (f : Fold) :
    visitNodes uri ((trail, place, t) :: xs) f =
      match Fold.enter uri trail place t f with
      | .error e f => .error e f
      | .ok none f => visitNodes uri xs f
      | .ok (some inner) f => visitNodes uri (pending trail inner t ++ xs) f := by
  rw [visitNodes]
  simp only [bind, EStateM.bind, visitTree_eq]
  cases Fold.enter uri trail place t f with
  | error e f => rfl
  | ok inner f =>
    cases inner with
    | none => rfl
    | some inner =>
      simp only [visitNodes_append]
      cases visitNodes uri (pending trail inner t) f <;> rfl

theorem Agrees.of_extends {α β : Type} {R : Registry → α → β → Prop} {g' : Registry}
    {r : EStateM.Result DeclarationError Registry α} {s : EStateM.Result DeclarationError Fold β}
    (hg : g.Extends g') (h : Agrees g' R r s) : Agrees g R r s := by
  cases h with
  | ok hg' hr => exact .ok (hg.trans hg') hr
  | error hg' => exact .error (hg.trans hg')

/-- Nodes with the trails of their scopes. -/
def placed (g : Registry) (stack : List (Trail × Nat × Tree)) : List (Trail × Trail × Tree) :=
  stack.map fun x => (x.1, g.frames.trail x.2.1, x.2.2)

theorem placed_pending (g : Registry) (trail : Trail) (inner : Nat) (t : Tree) :
    g.placed (pending trail inner t) = pending trail (g.frames.trail inner) t := by
  simp [placed, pending, Function.comp_def]

theorem Extends.placed_eq {g' : Registry} (hg : g.Extends g') {stack : List (Trail × Nat × Tree)}
    (hs : ∀ x ∈ stack, x.2.1 < g.frames.size) : g'.placed stack = g.placed stack := by
  apply List.map_congr_left
  intro x hx
  rw [hg.trail_eq _ (hs x hx)]

theorem placed_append (g : Registry) (xs ys : List (Trail × Nat × Tree)) :
    g.placed (xs ++ ys) = g.placed xs ++ g.placed ys :=
  List.map_append

/-- A visit with a stack does what recursive visits of the nodes on the stack do. -/
theorem agrees_run (uri : String) (stack : List (Trail × Nat × Tree)) {g : Registry} (h : g.Sound)
    (hs : ∀ x ∈ stack, x.2.1 < g.frames.size) :
    Agrees g (fun _ _ _ => True) (run uri stack g) (visitNodes uri (g.placed stack) g.fold) := by
  match stack with
  | [] =>
    rw [run]
    exact .ok (.refl h) trivial
  | (trail, scope, t) :: stack =>
    have henter := agrees_enter uri trail t h (hs _ List.mem_cons_self)
    have hstack : ∀ x ∈ stack, x.2.1 < g.frames.size := fun x hx => hs x (List.mem_cons_of_mem _ hx)
    rw [run, placed, List.map_cons, visitNodes_cons]
    generalize enter uri trail scope t g = r, Fold.enter uri trail _ t g.fold = s at henter
    cases henter with
    | error hg => exact .error hg
    | @ok inner place g' hg hr =>
      obtain ⟨rfl, hinner⟩ := hr
      have hstack' : ∀ x ∈ stack, x.2.1 < g'.frames.size :=
        fun x hx => Nat.lt_of_lt_of_le (hstack x hx) hg.size_le
      have hplaced : g'.placed stack = g.placed stack := hg.placed_eq hstack
      cases inner with
      | none =>
        have hrest := agrees_run uri stack hg.sound hstack'
        rw [hplaced] at hrest
        exact hrest.of_extends hg
      | some inner =>
        have hpending : ∀ x ∈ pending trail inner t ++ stack, x.2.1 < g'.frames.size := by
          intro x hx
          rcases List.mem_append.1 hx with hx | hx
          · obtain ⟨y, -, rfl⟩ := List.mem_map.1 hx
            exact hinner inner rfl
          · exact hstack' x hx
        have hrest := agrees_run uri (pending trail inner t ++ stack) hg.sound hpending
        rw [placed_append, placed_pending, hplaced] at hrest
        exact hrest.of_extends hg
termination_by stackWeight (fun x => sizeOf x.2.2) stack
decreasing_by
  · have hlt := stackWeight_pending_lt trail scope t
    simp only [stackWeight]
    omega
  · have hlt := stackWeight_pending_lt trail inner t
    simp only [stackWeight_append, stackWeight]
    omega

theorem Sound.counted (h : g.Sound) : { g with visits := g.visits + 1 }.Sound :=
  ⟨h.tidy, h.root, h.size_pos, h.reached, h.opens, h.indexed⟩

theorem Sound.visit (h : g.Sound) (uri : String) (t : Tree) :
    (g.visit uri t).2.Sound ∧
      Fold.attempt uri t g.fold = ((g.visit uri t).1, (g.visit uri t).2.fold) := by
  have hrun := agrees_run uri [([], 0, t)] h (by simpa using h.size_pos)
  have hnodes : visitNodes uri (g.placed [([], 0, t)]) g.fold =
      Fold.visitTree uri [] [] t g.fold := by
    rw [placed, List.map_singleton, Linked.trail_of_root h.root, visitNodes]
    simp only [bind, EStateM.bind]
    cases Fold.visitTree uri [] [] t g.fold <;> rfl
  rw [hnodes] at hrun
  rw [Registry.visit, Fold.attempt, Fold.visit_eq]
  generalize run uri [([], 0, t)] g = r, Fold.visitTree uri [] [] t g.fold = s at hrun
  cases hrun with
  | ok hg _ => exact ⟨hg.sound.counted, rfl⟩
  | error hg => exact ⟨hg.sound.counted, rfl⟩

theorem Sound.visitEach (h : g.Sound) (xs : List (String × Tree)) :
    (g.visitEach xs).2.Sound ∧
      Fold.attemptEach xs g.fold = ((g.visitEach xs).1, (g.visitEach xs).2.fold) := by
  induction xs generalizing g with
  | nil => exact ⟨h, rfl⟩
  | cons x xs ih =>
    obtain ⟨hfirst, hattempt⟩ := h.visit x.1 x.2
    obtain ⟨hrest, heach⟩ := ih hfirst
    refine ⟨hrest, ?_⟩
    rw [Fold.attemptEach, hattempt, heach]
    rfl

theorem fold_start : start.fold = Fold.start := by
  have hnested : start.nested 0 = Scope.root := by
    rw [nested_eq]
    rfl
  rw [fold, hnested]
  rfl

/-- Visits that fill linked scopes end as recursive ones do, and leave the same table. -/
theorem attemptEach_start (xs : List (String × Tree)) :
    Fold.attemptEach xs .start = ((start.visitEach xs).1, (start.visitEach xs).2.fold) := by
  rw [← fold_start]
  exact (sound_start.visitEach xs).2

end Registry

end Mykt
