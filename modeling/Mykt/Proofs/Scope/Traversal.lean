import Mykt.Proofs.Declaration.Linked

/-!
Traversals of linked scopes. Main statements: linked scopes are printed, listed and searched as the
scopes that hold each other are; after any visits the list of scopes is the printed table made flat,
and the chain of every scope leads back to the root.
-/

namespace Mykt

namespace Json

/-- A printed scope without those within it, and how deep it stands. -/
structure ScopeRow where
  depth : Nat
  anchor : Json
  symbols : List Json

mutual

/-- The scopes of a printed scope, each before those within it. -/
def scopeRows (depth : Nat) : Json → List ScopeRow
  | .object [("anchor", a), ("symbols", .array ss), ("scopes", .array is)] =>
    ⟨depth, a, ss⟩ :: scopeRowsOf (depth + 1) is
  | _ => []

def scopeRowsOf (depth : Nat) : List Json → List ScopeRow
  | [] => []
  | j :: js => j.scopeRows depth ++ scopeRowsOf depth js

end

theorem scopeRowsOf_eq (depth : Nat) (js : List Json) :
    scopeRowsOf depth js = js.flatMap (scopeRows depth) := by
  induction js with
  | nil => rfl
  | cons j js ih => rw [scopeRowsOf, ih, List.flatMap_cons]

end Json

theorem forall₂_flatMap {α β γ : Type} {R : β → γ → Prop} {f : α → List β} {g : α → List γ}
    {xs : List α} (h : ∀ x ∈ xs, List.Forall₂ R (f x) (g x)) :
    List.Forall₂ R (xs.flatMap f) (xs.flatMap g) := by
  induction xs with
  | nil => exact .nil
  | cons x xs ih =>
    rw [List.flatMap_cons, List.flatMap_cons]
    exact List.rel_append (h x List.mem_cons_self) (ih fun y hy => h y (List.mem_cons_of_mem _ hy))

namespace Registry

variable {g : Registry} {n : Nat}

theorem dumpAt_eq (g : Registry) (n : Nat) : g.dumpAt n =
    .object [("anchor", Anchor.toJson (g.frame n).anchor),
      ("symbols", .array ((g.frame n).entries.map Entry.toJson)),
      ("scopes", .array ((g.frames.below n).map g.dumpAt))] := by
  rw [dumpAt, Linked.fold_eq]
  rfl

/-- Linked scopes are printed as scopes that hold each other are. -/
theorem dumpAt_eq_toJson (g : Registry) (n : Nat) : g.dumpAt n = (g.nested n).toJson := by
  have hjson (ss : List Scope) : Scope.toJsonOf ss = ss.map Scope.toJson := by
    induction ss with
    | nil => rfl
    | cons s ss ih => rw [Scope.toJsonOf, ih, List.map_cons]
  induction n using Linked.below_induction (a := g.frames) with
  | h n ih =>
    rw [dumpAt_eq, nested_eq, Frame.scope, Scope.toJson, hjson, List.map_map, List.map_map,
      List.map_congr_left ih]
    rfl

theorem dump_fold (g : Registry) : g.fold.table.dump = g.dump := (g.dumpAt_eq_toJson 0).symm

theorem Sound.outline_nested (h : g.Sound) (hn : g.frames.Reaches 0 n) :
    (g.nested n).outline (g.frames.trail n) =
      (g.frames.preorder n).map fun m => (g.frames.trail m, g.nested m) := by
  induction n using Linked.below_induction (a := g.frames) with
  | h n ih =>
    -- the scopes within a part of the list, which begins at an index
    have hof (first rest : List Nat) (hlist : g.frames.below n = first ++ rest) :
        Scope.outlineOf (g.frames.trail n) first.length (rest.map g.nested) =
          (rest.flatMap g.frames.preorder).map fun m => (g.frames.trail m, g.nested m) := by
      induction rest generalizing first with
      | nil => rfl
      | cons c rest ih' =>
        have hc : c ∈ g.frames.below n := by simp [hlist]
        have hnot : c ∉ first := by
          have hnodup := h.tidy.nodup_below n (Nat.zero_le n)
          rw [hlist, List.nodup_append] at hnodup
          exact fun hm => hnodup.2.2 c hm c List.mem_cons_self rfl
        have htrail : g.frames.trail c = first.length :: g.frames.trail n := by
          rw [Linked.trail_of_above (h.tidy.above?_of_mem n c (Nat.zero_le n) hc), hlist,
            List.idxOf_append_of_notMem hnot, List.idxOf_cons_self, Nat.add_zero]
        have hrest := ih' (first ++ [c]) (by simp [hlist])
        rw [List.length_append, List.length_singleton] at hrest
        rw [List.map_cons, Scope.outlineOf, ← htrail, ih c hc (.tail hn hc), hrest,
          List.flatMap_cons, List.map_append]
    rw [Linked.preorder_eq, List.map_cons, ← hof [] (g.frames.below n) rfl, nested_eq, Frame.scope,
      Scope.outline]
    rfl

/-- Linked scopes are listed as scopes that hold each other are. -/
theorem Sound.scopes_fold (h : g.Sound) :
    g.fold.table.scopes = g.scopes.map fun n => (g.frames.trail n, g.nested n) := by
  have houtline := h.outline_nested (n := 0) .refl
  rw [Linked.trail_of_root h.root] at houtline
  rw [scopes, Linked.walk_eq_preorder]
  exact houtline

theorem lookup?_nested (g : Registry) (n : Nat) (name : String) :
    (g.nested n).lookup? name = ((g.frame n).lookup? name).map (·.symbol g.frames.trail) := by
  rw [nested_eq, Frame.scope, Scope.lookup?, Scope.symbols, List.find?_map]
  rfl

theorem Sound.upward_trail (h : g.Sound) (hn : g.frames.Reaches 0 n) :
    Trail.upward (g.frames.trail n) = (g.chain n).map g.frames.trail := by
  rw [chain]
  induction hn with
  | refl =>
    rw [Linked.chain_of_root h.root, List.map_singleton, Linked.trail_of_root h.root]
    rfl
  | tail _ hc ih =>
    have habove := h.tidy.above?_of_mem _ _ (Nat.zero_le _) hc
    rw [Linked.chain_of_above habove, List.map_cons, ← ih, Linked.trail_of_above habove]
    rfl

/-- Names are found in linked scopes as in scopes that hold each other. -/
theorem Sound.find?_fold (h : g.Sound) (hn : n < g.frames.size) (name : String) :
    g.fold.table.find? (g.frames.trail n) name =
      (g.find? n name).map (·.symbol g.frames.trail) := by
  have hhere (m : Nat) (hm : m < g.frames.size) :
      ((g.fold.table.root.at? (g.frames.trail m)).bind (·.lookup? name)).filter
          (·.location.isSome) =
        (((g.frame m).lookup? name).filter (·.location.isSome)).map (·.symbol g.frames.trail) := by
    have hat : g.fold.table.root.at? (g.frames.trail m) = some (g.nested m) := h.at?_nested hm
    rw [hat, Option.bind_some, lookup?_nested, Option.filter_map]
    rfl
  have hlt : ∀ m ∈ g.chain n, m < g.frames.size :=
    fun m hm => Nat.lt_of_le_of_lt (Linked.le_of_mem_chain hm) hn
  rw [SymbolTable.find?, h.upward_trail (h.reached n hn), find?, List.findSome?_map]
  generalize g.chain n = ms at hlt
  induction ms with
  | nil => rfl
  | cons m ms ih =>
    rw [List.findSome?_cons, List.findSome?_cons, ih fun m hm => hlt m (List.mem_cons_of_mem _ hm),
      Function.comp_apply, hhere m (hlt m List.mem_cons_self)]
    cases ((g.frame m).lookup? name).filter (·.location.isSome) <;> rfl

theorem scopeRows_dumpAt (g : Registry) (n depth : Nat) :
    (g.dumpAt n).scopeRows depth =
      ⟨depth, Anchor.toJson (g.frame n).anchor, (g.frame n).entries.map Entry.toJson⟩ ::
        (g.frames.below n).flatMap fun c => (g.dumpAt c).scopeRows (depth + 1) := by
  rw [dumpAt_eq, Json.scopeRows, Json.scopeRowsOf_eq, List.flatMap_map]

/-- A printed scope is told from a scope, and stands as deep as its chain is long. -/
def Shows (g : Registry) (row : Json.ScopeRow) (n : Nat) : Prop :=
  row.anchor = Anchor.toJson (g.frame n).anchor ∧
    row.symbols = (g.frame n).entries.map Entry.toJson ∧ (g.chain n).length = row.depth + 1

theorem forall₂_shows {depth : Nat} (h : g.frames.Tidy 0) (hn : (g.chain n).length = depth + 1) :
    List.Forall₂ g.Shows ((g.dumpAt n).scopeRows depth) (g.frames.preorder n) := by
  induction n using Linked.below_induction (a := g.frames) generalizing depth with
  | h n ih =>
    rw [scopeRows_dumpAt, Linked.preorder_eq]
    refine .cons ⟨rfl, rfl, hn⟩ (forall₂_flatMap fun c hc => ih c hc ?_)
    rw [chain, Linked.chain_of_above (h.above?_of_mem n c (Nat.zero_le n) hc), List.length_cons]
    exact congrArg (· + 1) hn

theorem map_entries_of_shows {rows : List Json.ScopeRow} {ns : List Nat}
    (h : List.Forall₂ g.Shows rows ns) :
    (ns.flatMap fun n => (g.frame n).entries).map Entry.toJson = rows.flatMap (·.symbols) := by
  induction h with
  | nil => rfl
  | cons hrow _ ih => rw [List.flatMap_cons, List.flatMap_cons, List.map_append, ih, hrow.2.1]

/-- After any visits, whether or not they succeed, the list of scopes begins with the root and has
each scope that is reached from it once; row by row it is the printed table made flat, whose symbols
are those of the table; every chain leads to the root and is one longer than the scope is deep; and
a scope is listed once where it stands. -/
theorem scopes_eq_flat_dump (xs : List (String × Tree)) :
    let g := (start.visitEach xs).2
    let rows := g.dump.scopeRows 0
    (g.scopes.Nodup ∧ g.scopes.head? = some 0 ∧ ∀ n, n ∈ g.scopes ↔ g.frames.Reaches 0 n) ∧
    List.Forall₂ (fun row n => row.anchor = Anchor.toJson (g.frame n).anchor ∧
      row.symbols = (g.frame n).entries.map Entry.toJson ∧
      (g.chain n).length = row.depth + 1) rows g.scopes ∧
    g.entries.map Entry.toJson = rows.flatMap (·.symbols) ∧
    (∀ n ∈ g.scopes, (g.chain n).Nodup ∧ (g.chain n).getLast? = some 0) ∧
    ∀ n ∈ g.scopes, n ≠ 0 →
      ∃ p ∈ g.scopes, g.frames.above? n = some p ∧ (g.frames.below p).count n = 1 := by
  intro g rows
  have hsound : g.Sound := (sound_start.visitEach xs).1
  have hscopes : g.scopes = g.frames.preorder 0 := Linked.walk_eq_preorder _ _
  have hmem (n : Nat) : n ∈ g.scopes ↔ g.frames.Reaches 0 n := by
    rw [hscopes, Linked.mem_preorder_iff]
  have hrows : List.Forall₂ g.Shows rows g.scopes := by
    rw [hscopes]
    apply forall₂_shows hsound.tidy
    rw [chain, Linked.chain_of_root hsound.root]
    rfl
  refine ⟨⟨?_, ?_, hmem⟩, hrows, ?_, ?_, ?_⟩
  · rw [hscopes]
    exact hsound.tidy.nodup_preorder (Nat.le_refl 0)
  · rw [hscopes, Linked.preorder_eq]
    rfl
  · exact map_entries_of_shows hrows
  · intro n hn
    exact ⟨g.frames.nodup_chain n, hsound.tidy.getLast?_chain hsound.root ((hmem n).1 hn)⟩
  · intro n hn hne
    obtain ⟨p, hp, habove, hbelow⟩ := hsound.tidy.exists_above ((hmem n).1 hn) hne
    exact ⟨p, (hmem p).2 hp, habove, hsound.tidy.count_below (Nat.zero_le p) hbelow⟩

end Registry

end Mykt
