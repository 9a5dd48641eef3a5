import Mathlib.Data.List.Induction
import Mykt.Proofs.Scope.Lexical

/-!
The table of a list of trees, told from the trees alone. Main statements: a scope keeps the last
symbol of each name, in the place of the first; the visit of one more tree leaves the scopes of
earlier trees as they are; after any visits the scopes belong to the routines, in the order of
visits and of the documents, each in the scope of the routine around it, and hold what the routines
own.
-/

namespace Mykt

namespace Scope

/-- The last symbol of each name, in the order of the first ones. -/
def latest (xs : List Symbol) : List Symbol :=
  (xs.map (·.name)).eraseDups.filterMap fun name => xs.reverse.find? (·.name = name)

theorem names_foldl_insert (xs : List Symbol) :
    (xs.foldl (fun ss x => insert x ss) []).map (·.name) = (xs.map (·.name)).eraseDups ∧
      (xs.map (·.name)).eraseDups.Nodup := by
  induction xs using List.reverseRecOn with
  | nil => exact ⟨rfl, .nil⟩
  | append_singleton xs x ih =>
    obtain ⟨hnames, hnodup⟩ := ih
    have hmem : x.name ∈ (xs.map (·.name)).eraseDups ↔ x.name ∈ xs.map (·.name) :=
      List.mem_eraseDups
    rw [List.foldl_concat, map_name_insert, hnames, List.map_append, List.eraseDups_append]
    by_cases h : x.name ∈ xs.map (·.name)
    · rw [if_pos (hmem.2 h), show [x].map (·.name) = [x.name] from rfl,
        show [x.name].removeAll (xs.map (·.name)) = [] by simpa [List.removeAll] using h]
      simpa using hnodup
    · rw [if_neg (mt hmem.1 h), show [x].map (·.name) = [x.name] from rfl,
        show [x.name].removeAll (xs.map (·.name)) = [x.name] by simpa [List.removeAll] using h,
        show [x.name].eraseDups = [x.name] by simp [List.eraseDups_cons]]
      refine ⟨rfl, List.nodup_append.2 ⟨hnodup, List.nodup_singleton _, ?_⟩⟩
      intro a ha b hb hab
      rw [List.mem_singleton.1 hb] at hab
      exact h (hmem.1 (hab ▸ ha))

/-- Symbols of different names are those found by their names. -/
theorem filterMap_find?_name {ss : List Symbol} (h : (ss.map (·.name)).Nodup) :
    (ss.map (·.name)).filterMap (fun name => ss.find? (·.name = name)) = ss := by
  induction ss with
  | nil => rfl
  | cons y ys ih =>
    simp only [List.map_cons, List.nodup_cons] at h
    have hothers : (ys.map (·.name)).filterMap (fun name => (y :: ys).find? (·.name = name)) =
        (ys.map (·.name)).filterMap (fun name => ys.find? (·.name = name)) := by
      apply List.filterMap_congr
      intro name hname
      have hne : y.name ≠ name := by
        intro he
        exact h.1 (he ▸ hname)
      simp [hne]
    rw [List.map_cons, List.filterMap_cons, hothers, ih h.2]
    simp

theorem foldl_insert_eq_latest (xs : List Symbol) :
    xs.foldl (fun ss x => insert x ss) [] = latest xs := by
  obtain ⟨hnames, hnodup⟩ := names_foldl_insert xs
  have hfind (name : String) : (xs.foldl (fun ss x => insert x ss) []).find? (·.name = name) =
      xs.reverse.find? (·.name = name) := by
    have hlookup := lookup?_absorb (.mk none [] []) ⟨xs, []⟩ name
    rw [lookup?_mk_nil, Option.or_none] at hlookup
    exact hlookup
  have hself := filterMap_find?_name (hnames ▸ hnodup)
  rw [← hself, hnames]
  simp only [hfind]
  rfl

/-- What is added to a scope leaves the scopes in it as they are. -/
theorem at?_absorb {s u : Scope} {i : Nat} {trail : Trail} (h : s.at? (i :: trail) = some u)
    (x : Portion) : (s.absorb x).at? (i :: trail) = some u := by
  obtain ⟨j, js, hdown⟩ := List.exists_cons_of_ne_nil
    (List.reverse_ne_nil_iff.2 (List.cons_ne_nil i trail))
  unfold at? at h ⊢
  rw [hdown, descend] at h ⊢
  obtain ⟨v, hv, hrest⟩ := Option.bind_eq_some_iff.1 h
  have hkept : (s.absorb x).inner[j]? = some v := by
    rw [inner_absorb, List.getElem?_append_left (List.getElem?_eq_some_iff.1 hv).1]
    exact hv
  rw [hkept]
  exact hrest

end Scope

open Scope

namespace Symbol

/-- A symbol of a routine opens the scope of the routine, which is among those that stand behind the
first `n` of a scope. -/
def OpensAmong (document n : Nat) (scope : Trail) (inner : List Scope) (x : Symbol)
    (d : Trail × Tree) : Prop :=
  if d.2.isRoutine = true then
    ∃ m s, x.opens = some ((n + m) :: scope) ∧ inner[m]? = some s ∧
      s.anchor = some (Tree.anchorOf document d.1)
  else x.opens = none

section

variable {document n : Nat} {scope : Trail} {xs ys : List Scope} {x : Symbol} {d : Trail × Tree}

theorem OpensAmong.append_right (h : x.OpensAmong document n scope xs d) :
    x.OpensAmong document n scope (xs ++ ys) d := by
  unfold OpensAmong at h ⊢
  split at h
  · next hr =>
    obtain ⟨m, s, ho, hs, ha⟩ := h
    rw [if_pos hr]
    refine ⟨m, s, ho, ?_, ha⟩
    rw [List.getElem?_append_left (List.getElem?_eq_some_iff.1 hs).1]
    exact hs
  · next hr =>
    rw [if_neg hr]
    exact h

theorem OpensAmong.append_left (h : x.OpensAmong document (n + xs.length) scope ys d) :
    x.OpensAmong document n scope (xs ++ ys) d := by
  unfold OpensAmong at h ⊢
  split at h
  · next hr =>
    obtain ⟨m, s, ho, hs, ha⟩ := h
    rw [if_pos hr]
    refine ⟨xs.length + m, s, ?_, ?_, ha⟩
    · rw [ho, Nat.add_assoc]
    · rw [List.getElem?_append_right (Nat.le_add_right _ _), Nat.add_sub_cancel_left]
      exact hs
  · next hr =>
    rw [if_neg hr]
    exact h

end

end Symbol

namespace Tree

mutual

/-- A portion's symbols of routines open its scopes, and its other symbols open none. -/
theorem opens_portion (document : Nat) (uri : String) (trail scope : Trail) (n : Nat) (t : Tree)
    (ht : t.IsRanged) :
    List.Forall₂ (Symbol.OpensAmong document n scope (t.portion document uri trail scope n).inner)
      (t.portion document uri trail scope n).symbols (t.owns trail) := by
  cases t with
  | leaf x => exact .nil
  | node k cs =>
    have below : ∀ c ∈ cs, c.IsRanged := by
      intro c hc
      exact ht.of_mem hc
    have children := opens_portionOf document uri trail scope n 0 cs below
    cases hk : Fold.declares k with
    | none =>
      rw [portion_of_declares_eq_none document uri trail scope n hk, owns, isRoutine_node]
      simpa [hk] using children
    | some kind =>
      obtain ⟨m, range, nameRange, -, -, -, -, hl⟩ := ht.exists_locate hk uri
      have hroutine := isRoutine_node k cs
      cases kind with
      | value =>
        have hnone : (node k cs).isRoutine = false := by simpa [hk] using hroutine
        simp only [portion, hk, hl, owns, hnone]
        exact .cons (by simp [Symbol.OpensAmong, hnone]) children
      | parameter =>
        have hnone : (node k cs).isRoutine = false := by simpa [hk] using hroutine
        simp only [portion, hk, hl, owns, hnone,
          (ht.children_parameter document uri trail scope n hk).1]
        exact .cons (by simp [Symbol.OpensAmong, hnone]) .nil
      | routine =>
        have hsome : (node k cs).isRoutine = true := by simpa [hk] using hroutine
        obtain rfl := eq_functionDeclaration hk
        simp only [portion, hk, hl, owns, hsome]
        refine .cons ?_ .nil
        rw [Symbol.OpensAmong, if_pos hsome]
        exact ⟨0, _, rfl, rfl, rfl⟩

theorem opens_portionOf (document : Nat) (uri : String) (trail scope : Trail) (n index : Nat)
    (ts : List Tree) (ht : ∀ t ∈ ts, t.IsRanged) :
    List.Forall₂ (Symbol.OpensAmong document n scope
        (portionOf document uri trail scope n index ts).inner)
      (portionOf document uri trail scope n index ts).symbols (ownsOf trail index ts) := by
  cases ts with
  | nil => exact .nil
  | cons t ts =>
    simp only [List.mem_cons, forall_eq_or_imp] at ht
    rw [portionOf, ownsOf, Portion.symbols_append, Portion.inner_append]
    have first := opens_portion document uri (index :: trail) scope n t ht.1
    have rest := opens_portionOf document uri trail scope
      (n + (portion document uri (index :: trail) scope n t).inner.length) (index + 1) ts ht.2
    exact List.rel_append (first.imp fun _ _ h => h.append_right)
      (rest.imp fun _ _ h => h.append_left)

end

/-- A declaration of the how-manieth tree, with the address of its document. -/
structure Declared where
  document : Nat
  uri : String
  place : Trail
  tree : Tree

/-- What a routine or the file owns, as declarations of the how-manieth tree. -/
def declaredBy (t : Tree) (document : Nat) (uri : String) (routine : Option Trail) :
    List Declared :=
  (t.owned routine).map fun d => ⟨document, uri, d.1, d.2⟩

theorem at?_of_mem_owned {t : Tree} {routine : Option Trail} {d : Trail × Tree}
    (h : d ∈ t.owned routine) : t.at? d.1 = some d.2 :=
  mem_places_nil.1 (List.mem_of_mem_filter (List.mem_of_mem_filter h))

end Tree

namespace SymbolTable

/-- The scope for what a routine or the file owns. -/
def scopeOf? (table : SymbolTable) (document : Nat) : Option Trail → Option Trail
  | none => some []
  | some routine => table.scopeFor? document routine

/-- A symbol stands for a declaration and opens the scope that belongs to it, if any. -/
structure Notes (table : SymbolTable) (x : Symbol) (d : Tree.Declared) : Prop where
  standsFor : x.StandsFor d.uri d.tree
  opens_eq : x.opens = table.scopeFor? d.document d.place

/-- A scope holds the last declaration of each name, in the place of the first. -/
def Holds (table : SymbolTable) (s : Scope) (ds : List Tree.Declared) : Prop :=
  ∃ symbols, s.symbols = latest symbols ∧ List.Forall₂ table.Notes symbols ds

/-- A table is that of trees, each with the address of its document, which were visited in order. -/
structure Records (table : SymbolTable) (xs : List (String × Tree)) : Prop where
  visits_eq : table.visits = xs.length
  /-- Behind the global scope stand those of the routines, in the order of the trees. -/
  anchors_eq : table.scopes.map (·.2.anchor) =
    none :: xs.zipIdx.flatMap fun x => Tree.anchorsAmong x.2 (x.1.2.places [])
  /-- The scope of a routine is found by its place, is within the scope of its owner, and holds what
  the routine owns. -/
  routine : ∀ document uri t place, xs[document]? = some (uri, t) →
    t.isRoutineAt place = true → ∃ n scope s,
      table.scopeFor? document place = some (n :: scope) ∧
      table.scopeOf? document (t.owner place) = some scope ∧
      table.root.at? (n :: scope) = some s ∧ s.anchor = some (Tree.anchorOf document place) ∧
      table.Holds s (t.declaredBy document uri (some place))
  other : ∀ document uri t place, xs[document]? = some (uri, t) →
    t.isRoutineAt place = false → table.scopeFor? document place = none
  globals : table.Holds table.root (xs.zipIdx.flatMap fun x => x.1.2.declaredBy x.2 x.1.1 none)

theorem records_empty : empty.Records [] where
  visits_eq := rfl
  anchors_eq := rfl
  routine := by simp
  other := by simp
  globals := ⟨[], rfl, .nil⟩

section

variable {table : SymbolTable} {uri : String} {t : Tree} {xs : List (String × Tree)}

/-- The scopes of earlier trees are found as before. -/
theorem scopeFor?_visited (ht : t.IsRanged) {document : Nat} (hd : document < table.visits)
    (place : Trail) :
    (table.visited uri t).scopeFor? document place = table.scopeFor? document place := by
  have hopened : (table.opened uri t).find? (fun x =>
      x.2.anchor.any fun a => a.document = document && a.trail = place) = none := by
    rw [List.find?_eq_none]
    intro x hx
    obtain ⟨p, -, ha⟩ := exists_of_mem_opened ht hx
    simp only [ha, Tree.anchorOf, Option.any_some, Bool.and_eq_true, decide_eq_true_eq, not_and]
    omega
  rw [scopeFor?_eq, scopeFor?_eq, scopes_visited, scopes_eq, List.find?_cons, List.find?_cons,
    List.find?_append, hopened, Option.or_none]
  have hanchor : (table.visited uri t).root.anchor = table.root.anchor := rfl
  simp only [hanchor]
  split <;> rfl

theorem scopeOf?_visited (ht : t.IsRanged) {document : Nat} (hd : document < table.visits)
    (routine : Option Trail) :
    (table.visited uri t).scopeOf? document routine = table.scopeOf? document routine := by
  cases routine with
  | none => rfl
  | some routine => exact scopeFor?_visited ht hd routine

/-- What is held of earlier trees is held as before. -/
theorem notes_visited (ht : t.IsRanged) {symbols : List Symbol} {ds : List Tree.Declared}
    (hd : ∀ d ∈ ds, d.document < table.visits) (h : List.Forall₂ table.Notes symbols ds) :
    List.Forall₂ (table.visited uri t).Notes symbols ds := by
  induction h with
  | nil => exact .nil
  | cons hx _ ih =>
    simp only [List.mem_cons, forall_eq_or_imp] at hd
    refine .cons ⟨hx.standsFor, ?_⟩ (ih hd.2)
    rw [hx.opens_eq, scopeFor?_visited ht hd.1]

/-- The symbols of a scope that was opened for the tree visited last note what they stand for. -/
theorem Numbered.notes_of_opens (h : table.Numbered) (ht : t.IsRanged) {s : Scope}
    {scope : Trail} {n : Nat} {inner : List Scope} {symbols : List Symbol}
    {ds : List (Trail × Tree)} (hat : ∀ d ∈ ds, t.at? d.1 = some d.2)
    (hs : (table.visited uri t).root.at? scope = some s) (hi : inner <+: s.inner.drop n)
    (hstands : List.Forall₂ (fun x d => x.StandsFor uri d.2) symbols ds)
    (hopens : List.Forall₂ (Symbol.OpensAmong table.visits n scope inner) symbols ds) :
    List.Forall₂ (table.visited uri t).Notes symbols
      (ds.map fun d => ⟨table.visits, uri, d.1, d.2⟩) := by
  induction hstands with
  | nil => exact .nil
  | @cons x d symbols ds hx _ ih =>
    simp only [List.mem_cons, forall_eq_or_imp] at hat
    obtain ⟨ho, hopens⟩ := List.forall₂_cons.1 hopens
    refine .cons ⟨hx, ?_⟩ (ih hat.2 hopens)
    have hroutine := Tree.isRoutineAt_of_at? hat.1
    unfold Symbol.OpensAmong at ho
    split at ho
    · obtain ⟨m, u, hopen, hu, ha⟩ := ho
      obtain ⟨rest, hrest⟩ := hi
      have hscope : (table.visited uri t).root.at? ((n + m) :: scope) = some u := by
        rw [Scope.at?_cons, hs, Option.bind_some, ← List.getElem?_drop, ← hrest,
          List.getElem?_append_left (List.getElem?_eq_some_iff.1 hu).1]
        exact hu
      rw [hopen]
      exact (h.scopeFor?_eq_some ht hscope ⟨_, ha, rfl, rfl⟩).symm
    · next hr =>
      rw [ho]
      exact (h.scopeFor?_eq_none ht (by rw [hroutine]; simpa using hr)).symm

/-- The scope of a routine of the tree visited last. -/
theorem Numbered.exists_routine (h : table.Numbered) (ht : t.IsRanged) (hk : t.kind = .rule .file)
    {place : Trail} (hp : t.isRoutineAt place = true) :
    ∃ n scope s, (table.visited uri t).scopeFor? table.visits place = some (n :: scope) ∧
      (table.visited uri t).scopeOf? table.visits (t.owner place) = some scope ∧
      (table.visited uri t).root.at? (n :: scope) = some s ∧
      s.anchor = some (Tree.anchorOf table.visits place) ∧
      (table.visited uri t).Holds s (t.declaredBy table.visits uri (some place)) := by
  obtain ⟨u, hat, hu⟩ := (Option.any_eq_true _ _).1 hp
  have hroot : t.isRoutine = false := by simp [Tree.isRoutine, hk]
  cases place with
  | nil =>
    cases hat
    simp [hroot] at hu
  | cons i above =>
    cases u with
    | leaf x =>
      rw [Tree.isRoutine_leaf (ht.of_at? hat).conforms] at hu
      cases hu
    | node k us =>
      obtain rfl : k = .rule .functionDeclaration := of_decide_eq_true hu
      obtain ⟨inner, hnests⟩ := exists_nests_node ht hk hat table uri
      rw [Tree.routinesAround_cons, if_pos hp] at hnests
      cases hnests with
      | @routine _ _ scope n cs hout hplace hs =>
        cases hat.symm.trans hplace
        have below : ∀ c ∈ us, c.IsRanged := by
          intro c hc
          exact (ht.of_at? hat).of_mem hc
        refine ⟨n, scope, _, h.scopeFor?_eq_some ht hs ⟨_, rfl, rfl, rfl⟩, ?_, hs, rfl, _,
          foldl_insert_eq_latest _, ?_⟩
        · change (table.visited uri t).scopeOf? table.visits (t.routinesAround above).head? = _
          generalize t.routinesAround above = places at hout
          cases hout with
          | file => rfl
          | routine _ _ hout => exact h.scopeFor?_eq_some ht hout ⟨_, rfl, rfl, rfl⟩
        · have howned := Tree.owned_some (leavesSilent_of_isRanged ht) hat rfl
          unfold Tree.declaredBy
          refine h.notes_of_opens ht (fun d => Tree.at?_of_mem_owned) hs ?_
            (howned ▸ Tree.symbols_portionOf _ _ _ _ _ _ us below)
            (howned ▸ Tree.opens_portionOf _ _ _ _ _ _ us below)
          exact List.prefix_refl _

/-- The visit of one more tree adds its routines and its declarations to the table. -/
theorem Records.visited (h : table.Records xs) (hn : table.Numbered) (ht : t.IsRanged)
    (hk : t.kind = .rule .file) (uri : String) :
    (table.visited uri t).Records (xs ++ [(uri, t)]) := by
  have hzip : (xs ++ [(uri, t)]).zipIdx = xs.zipIdx ++ [((uri, t), table.visits)] := by
    rw [List.zipIdx_append, h.visits_eq, Nat.zero_add]
    rfl
  have cases_of {document : Nat} {x : String × Tree}
      (hx : (xs ++ [(uri, t)])[document]? = some x) :
      (document < table.visits ∧ xs[document]? = some x) ∨
        document = table.visits ∧ (uri, t) = x := by
    rw [h.visits_eq]
    by_cases hlt : document < xs.length
    · rw [List.getElem?_append_left hlt] at hx
      exact .inl ⟨hlt, hx⟩
    · rw [List.getElem?_append_right (by omega), List.getElem?_singleton] at hx
      split at hx
      · exact .inr ⟨by omega, Option.some.inj hx⟩
      · cases hx
  constructor
  case visits_eq =>
    rw [List.length_append, ← h.visits_eq]
    rfl
  case anchors_eq =>
    have hold := h.anchors_eq
    rw [scopes_eq, List.map_cons] at hold
    obtain ⟨hroot, hinner⟩ := List.cons.inj hold
    rw [scopes_visited, List.map_cons, List.map_append, hinner, anchors_opened ht, hzip,
      List.flatMap_append, List.flatMap_singleton]
    exact congrArg (· :: _) hroot
  case routine =>
    intro document uri' t' place hx hp
    rcases cases_of hx with ⟨hd, hx⟩ | ⟨rfl, he⟩
    · obtain ⟨n, scope, s, hfor, hof, hs, ha, symbols, hlatest, hnotes⟩ :=
        h.routine document uri' t' place hx hp
      refine ⟨n, scope, s, ?_, ?_, at?_absorb hs _, ha, symbols, hlatest, ?_⟩
      · rw [scopeFor?_visited ht hd, hfor]
      · rw [scopeOf?_visited ht hd, hof]
      · refine notes_visited ht ?_ hnotes
        intro d hmem
        obtain ⟨_, -, rfl⟩ := List.mem_map.1 hmem
        exact hd
    · cases he
      exact hn.exists_routine ht hk hp
  case other =>
    intro document uri' t' place hx hp
    rcases cases_of hx with ⟨hd, hx⟩ | ⟨rfl, he⟩
    · rw [scopeFor?_visited ht hd]
      exact h.other document uri' t' place hx hp
    · cases he
      exact hn.scopeFor?_eq_none ht hp
  case globals =>
    obtain ⟨symbols, hlatest, hnotes⟩ := h.globals
    obtain ⟨cs, rfl⟩ := ht.conforms.exists_children hk
    have below : ∀ c ∈ cs, c.IsRanged := by
      intro c hc
      exact ht.of_mem hc
    have hsilent : Fold.declares (.rule .file) = none := rfl
    have howned := Tree.owned_none (leavesSilent_of_isRanged ht) hsilent
    have hportion : (Tree.node (.rule .file) cs).portion table.visits uri [] []
        table.root.inner.length =
          Tree.portionOf table.visits uri [] [] table.root.inner.length 0 cs :=
      Tree.portion_of_declares_eq_none _ _ _ _ _ hsilent
    refine ⟨symbols ++ (Tree.portionOf table.visits uri [] [] table.root.inner.length 0 cs).symbols,
      ?_, ?_⟩
    · rw [← foldl_insert_eq_latest, List.foldl_append, foldl_insert_eq_latest, ← hlatest,
        ← hportion]
      rfl
    · rw [hzip, List.flatMap_append, List.flatMap_singleton]
      refine List.rel_append (notes_visited ht ?_ hnotes) ?_
      · intro d hmem
        obtain ⟨x, hx, hd⟩ := List.mem_flatMap.1 hmem
        obtain ⟨_, -, rfl⟩ := List.mem_map.1 hd
        rw [h.visits_eq]
        exact List.snd_lt_of_mem_zipIdx hx
      · unfold Tree.declaredBy
        refine hn.notes_of_opens ht (fun d => Tree.at?_of_mem_owned) (Scope.at?_nil _) ?_
          (howned ▸ Tree.symbols_portionOf _ _ _ _ _ _ cs below)
          (howned ▸ Tree.opens_portionOf _ _ _ _ _ _ cs below)
        simp [visited, hportion]

end

end SymbolTable

namespace Fold

/-- Visits trees in order, each under the address of its document. -/
def visitEach (xs : List (String × Tree)) : Step Unit := forM xs fun x => visit x.1 x.2

theorem exists_visitEach {f : Fold} {done xs : List (String × Tree)} (h : f.table.Records done)
    (hn : f.table.Numbered) (hx : ∀ x ∈ xs, x.2.IsRanged ∧ x.2.kind = .rule .file) :
    ∃ f', visitEach xs f = .ok () f' ∧ f'.table.Records (done ++ xs) := by
  induction xs generalizing f done with
  | nil => exact ⟨f, rfl, by simpa using h⟩
  | cons x xs ih =>
    simp only [List.mem_cons, forall_eq_or_imp] at hx
    obtain ⟨⟨hranged, hkind⟩, hxs⟩ := hx
    obtain ⟨f₁, hvisit, htable⟩ := SymbolTable.visit_eq_visited hranged x.1 f
    have hrecords := h.visited hn hranged hkind x.1
    have hnumbered := hn.visited hranged x.1
    rw [← htable] at hrecords hnumbered
    obtain ⟨f', heach, hf'⟩ := ih hrecords hnumbered hxs
    refine ⟨f', ?_, by simpa using hf'⟩
    simp only [visitEach, List.forM_cons, bind, EStateM.bind, hvisit]
    exact heach

/-- Visits of short texts that are read succeed, and give the table of their trees. -/
theorem visitEach_records (files : List (String × String × Tree))
    (hf : ∀ x ∈ files, parse x.2.1 = .ok x.2.2 ∧ x.2.1.length ≤ Position.limit) :
    ∃ f, visitEach (files.map fun x => (x.1, x.2.2)) .start = .ok () f ∧
      f.table.Records (files.map fun x => (x.1, x.2.2)) := by
  refine @exists_visitEach .start [] _ SymbolTable.records_empty SymbolTable.numbered_empty ?_
  intro x hx
  obtain ⟨⟨uri, source, t⟩, hmem, rfl⟩ := List.mem_map.1 hx
  obtain ⟨hparse, hshort⟩ := hf _ hmem
  exact ⟨Tree.isRanged_of_parse hparse hshort, (conforms_of_parse hparse).2.1⟩

/-- A routine that a variable replaces keeps its scope. -/
theorem visitEach_records_replaced :
    ∃ t u f, parse "fun f(a: Int) { fun g() {} } val f = 1" = .ok t ∧ parse "fun f() {}" = .ok u ∧
      visitEach [("file:///m", t), ("file:///n", u)] .start = .ok () f ∧
      f.table.Records [("file:///m", t), ("file:///n", u)] ∧
      t.isRoutineAt [0, 1] = true ∧ (f.table.scopeFor? 0 [0, 1]).isSome = true := by
  obtain ⟨t, ht, hroutine⟩ : ∃ t, parse "fun f(a: Int) { fun g() {} } val f = 1" = .ok t ∧
      t.isRoutineAt [0, 1] = true := ⟨_, rfl, by decide +kernel⟩
  obtain ⟨u, hu⟩ : ∃ u, parse "fun f() {}" = .ok u := ⟨_, rfl⟩
  obtain ⟨f, hvisits, hrecords⟩ := visitEach_records
    [("file:///m", "fun f(a: Int) { fun g() {} } val f = 1", t), ("file:///n", "fun f() {}", u)]
    (by simp only [List.mem_cons, List.not_mem_nil, or_false, forall_eq_or_imp, forall_eq, ht, hu]
        decide)
  obtain ⟨n, scope, s, hfor, -⟩ := hrecords.routine 0 "file:///m" t [0, 1] rfl hroutine
  exact ⟨t, u, f, ht, hu, hvisits, hrecords, hroutine, by simp [hfor]⟩

end Fold

end Mykt
