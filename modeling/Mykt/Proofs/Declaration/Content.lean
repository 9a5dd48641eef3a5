import Mathlib.Data.List.Forall2
import Mykt.Proofs.Declaration.Portion
import Mykt.Proofs.Scope.Ownership

/-!
What the portion of a tree holds. Main statements: its symbols stand for the declarations outside of
inner routines, in document order; its scopes belong to the routines of the tree, in document order.
-/

namespace Mykt

/-- A symbol that stands for a declaration of a document. -/
structure Symbol.StandsFor (x : Symbol) (uri : String) (d : Tree) : Prop where
  kind : Fold.declares d.kind = some x.kind
  located : ∃ name range nameRange, d.child? (.rule .simpleIdentifier) = some name ∧
    name.text = x.name ∧ d.range = .ok range ∧ name.range = .ok nameRange ∧
    x.location = some ⟨uri, range, nameRange⟩

theorem Symbol.StandsFor.declaredName {x : Symbol} {uri : String} {d : Tree}
    (h : x.StandsFor uri d) : d.declaredName = some x.name := by
  obtain ⟨name, -, -, hc, ht, -⟩ := h.located
  simp [Tree.declaredName, hc, ht]

theorem Symbol.StandsFor.isSome_location {x : Symbol} {uri : String} {d : Tree}
    (h : x.StandsFor uri d) : x.location.isSome = true := by
  obtain ⟨name, range, nameRange, -, -, -, -, hl⟩ := h.located
  simp [hl]

namespace Tree

open Scope

section

variable {k : Kind} {cs : List Tree} (document : Nat) (uri : String) (trail scope : Trail) (n : Nat)

theorem portion_of_declares_eq_none (hk : Fold.declares k = none) :
    portion document uri trail scope n (node k cs) =
      portionOf document uri trail scope n 0 cs := by
  simp only [portion, hk]

theorem IsRanged.portion_value (h : (node k cs).IsRanged)
    (hk : Fold.declares k = some .value) :
    ∃ x : Symbol, x.StandsFor uri (node k cs) ∧
      portion document uri trail scope n (node k cs) =
        ⟨[x], []⟩ ++ portionOf document uri trail scope n 0 cs := by
  obtain ⟨m, range, nameRange, -, hc, hr, hn, hl⟩ := h.exists_locate hk uri
  refine ⟨⟨m.text, .value, some ⟨uri, range, nameRange⟩, none⟩,
    ⟨hk, _, range, nameRange, hc, text_ofName m, hr, hn, rfl⟩, ?_⟩
  simp only [portion, hk, hl]

theorem IsRanged.portion_parameter (h : (node k cs).IsRanged)
    (hk : Fold.declares k = some .parameter) :
    ∃ x : Symbol, x.StandsFor uri (node k cs) ∧
      portion document uri trail scope n (node k cs) = ⟨[x], []⟩ := by
  obtain ⟨m, range, nameRange, -, hc, hr, hn, hl⟩ := h.exists_locate hk uri
  refine ⟨⟨m.text, .parameter, some ⟨uri, range, nameRange⟩, none⟩,
    ⟨hk, _, range, nameRange, hc, text_ofName m, hr, hn, rfl⟩, ?_⟩
  simp only [portion, hk, hl]

theorem IsRanged.portion_routine (h : (node k cs).IsRanged)
    (hk : Fold.declares k = some .routine) :
    ∃ x : Symbol, x.StandsFor uri (node k cs) ∧
      portion document uri trail scope n (node k cs) =
        ⟨[x], [(Scope.mk (some ⟨document, trail, k⟩) [] []).absorb
          (portionOf document uri trail (n :: scope) 0 0 cs)]⟩ := by
  obtain ⟨m, range, nameRange, -, hc, hr, hn, hl⟩ := h.exists_locate hk uri
  refine ⟨⟨m.text, .routine, some ⟨uri, range, nameRange⟩, some (n :: scope)⟩,
    ⟨hk, _, range, nameRange, hc, text_ofName m, hr, hn, rfl⟩, ?_⟩
  simp only [portion, hk, hl]

theorem eq_functionDeclaration (hk : Fold.declares k = some .routine) :
    k = .rule .functionDeclaration := by
  cases k with
  | terminal | other => cases hk
  | rule r => cases r <;> first | rfl | cases hk

theorem eq_functionValueParameter (hk : Fold.declares k = some .parameter) :
    k = .rule .functionValueParameter := by
  cases k with
  | terminal | other => cases hk
  | rule r => cases r <;> first | rfl | cases hk

/-- Routines are the nodes that declare one. -/
theorem isRoutine_node (k : Kind) (cs : List Tree) :
    (node k cs).isRoutine = decide (Fold.declares k = some .routine) := by
  refine decide_eq_decide.2 ⟨?_, eq_functionDeclaration⟩
  intro (hsame : k = _)
  subst hsame
  rfl

theorem isRoutine_leaf {x : Token} (h : (leaf x).Conforms) : (leaf x).isRoutine = false := by
  cases h with
  | leaf hk => simp [isRoutine, kind, hk]

/-- Nothing is declared below a parameter. -/
theorem IsRanged.children_parameter (h : (node k cs).IsRanged)
    (hk : Fold.declares k = some .parameter) :
    ownsOf trail 0 cs = [] ∧ (placesOf trail 0 cs).filter (·.2.isRoutine) = [] ∧
      (portionOf document uri trail scope n 0 cs).inner = [] := by
  obtain rfl := eq_functionValueParameter hk
  cases h.conforms with
  | node hd hcs =>
    obtain ⟨m, colon, type, hm, rfl⟩ := eq_of_derives_parameter hd
    refine ⟨rfl, ?_, rfl⟩
    have hcolon : (leaf colon).isRoutine = false := isRoutine_leaf (hcs _ (by simp))
    have hname : (leaf m).isRoutine = false := by
      simp [isRoutine, kind, Token.isName_iff.1 hm]
    have htype : (leaf type).isRoutine = false := by
      have := hcs (node (.rule .typeReference) [leaf type]) (by simp)
      cases this with
      | node _ htype => exact isRoutine_leaf (htype _ (by simp))
    have hrule {r : Rule} (hr : r ≠ .functionDeclaration) (us : List Tree) :
        (node (.rule r) us).isRoutine = false := decide_eq_false fun h => hr (by cases h; rfl)
    simp [placesOf, places, ofName, hcolon, hname, htype, hrule]

end

mutual

/-- The symbols of a portion stand for what the tree declares outside of its routines. -/
theorem symbols_portion (document : Nat) (uri : String) (trail scope : Trail) (n : Nat) (t : Tree)
    (ht : t.IsRanged) :
    List.Forall₂ (fun x d => x.StandsFor uri d.2)
      (t.portion document uri trail scope n).symbols (t.owns trail) := by
  cases t with
  | leaf x => exact .nil
  | node k cs =>
    have below : ∀ c ∈ cs, c.IsRanged := by
      intro c hc
      exact ht.of_mem hc
    have children := symbols_portionOf document uri trail scope n 0 cs below
    cases hk : Fold.declares k with
    | none =>
      rw [portion_of_declares_eq_none document uri trail scope n hk, owns, isRoutine_node]
      simpa [hk] using children
    | some kind =>
      cases kind with
      | value =>
        obtain ⟨x, hx, he⟩ := ht.portion_value document uri trail scope n hk
        rw [he, owns, isRoutine_node]
        simpa [hk, hx] using children
      | parameter =>
        obtain ⟨x, hx, he⟩ := ht.portion_parameter document uri trail scope n hk
        rw [he, owns, isRoutine_node, (ht.children_parameter document uri trail scope n hk).1]
        simp [hk, hx]
      | routine =>
        obtain ⟨x, hx, he⟩ := ht.portion_routine document uri trail scope n hk
        rw [he, owns, isRoutine_node]
        simp [hk, hx]

theorem symbols_portionOf (document : Nat) (uri : String) (trail scope : Trail) (n index : Nat)
    (ts : List Tree) (ht : ∀ t ∈ ts, t.IsRanged) :
    List.Forall₂ (fun x d => x.StandsFor uri d.2)
      (portionOf document uri trail scope n index ts).symbols (ownsOf trail index ts) := by
  cases ts with
  | nil => exact .nil
  | cons t ts =>
    simp only [List.mem_cons, forall_eq_or_imp] at ht
    rw [portionOf, ownsOf, Portion.symbols_append]
    exact List.rel_append (symbols_portion _ _ _ _ _ t ht.1) (symbols_portionOf _ _ _ _ _ _ ts ht.2)

end

/-- The anchor of the scope of a routine. -/
def anchorOf (document : Nat) (place : Trail) : Anchor :=
  ⟨document, place, .rule .functionDeclaration⟩

/-- The anchors of the routines among places. -/
def anchorsAmong (document : Nat) (xs : List (Trail × Tree)) : List (Option Anchor) :=
  (xs.filter (·.2.isRoutine)).map fun x => some (anchorOf document x.1)

theorem nodup_anchorsAmong (document : Nat) {xs : List (Trail × Tree)}
    (h : (xs.map (·.1)).Nodup) : (anchorsAmong document xs).Nodup := by
  have hf : ((xs.filter (·.2.isRoutine)).map (·.1)).Nodup :=
    h.sublist (List.filter_sublist.map _)
  have he : anchorsAmong document xs =
      ((xs.filter (·.2.isRoutine)).map (·.1)).map fun place => some (anchorOf document place) := by
    simp [anchorsAmong, List.map_map]
  rw [he]
  refine hf.map ?_
  intro p q hpq
  simpa [anchorOf] using hpq

mutual

/-- The scopes of a portion belong to the routines of the tree. -/
theorem anchors_portion (document : Nat) (uri : String) (trail scope : Trail) (n : Nat) (t : Tree)
    (ht : t.IsRanged) (place : Trail) (m : Nat) :
    (Scope.outlineOf place m (t.portion document uri trail scope n).inner).map (·.2.anchor) =
      anchorsAmong document (t.places trail) := by
  cases t with
  | leaf x => simp [portion, Portion.empty, Scope.outlineOf, anchorsAmong, places, isRoutine_leaf ht.conforms]
  | node k cs =>
    have below : ∀ c ∈ cs, c.IsRanged := by
      intro c hc
      exact ht.of_mem hc
    have children := anchors_portionOf document uri trail scope n 0 cs below place m
    simp only [anchorsAmong] at children ⊢
    rw [places, List.filter_cons, isRoutine_node]
    cases hk : Fold.declares k with
    | none => simpa [portion_of_declares_eq_none document uri trail scope n hk] using children
    | some kind =>
      cases kind with
      | value =>
        obtain ⟨x, -, he⟩ := ht.portion_value document uri trail scope n hk
        simpa [he] using children
      | parameter =>
        obtain ⟨x, -, he⟩ := ht.portion_parameter document uri trail scope n hk
        have hc := (ht.children_parameter document uri trail scope n hk).2.1
        simp [he, Scope.outlineOf, hc]
      | routine =>
        obtain ⟨x, -, he⟩ := ht.portion_routine document uri trail scope n hk
        obtain rfl := eq_functionDeclaration hk
        have inner := anchors_portionOf document uri trail (n :: scope) 0 0 cs below (m :: place) 0
        rw [he]
        simpa [Scope.outlineOf, outline_absorb, anchorOf, anchorsAmong] using inner

theorem anchors_portionOf (document : Nat) (uri : String) (trail scope : Trail) (n index : Nat)
    (ts : List Tree) (ht : ∀ t ∈ ts, t.IsRanged) (place : Trail) (m : Nat) :
    (Scope.outlineOf place m (portionOf document uri trail scope n index ts).inner).map (·.2.anchor) =
      anchorsAmong document (placesOf trail index ts) := by
  cases ts with
  | nil => rfl
  | cons t ts =>
    simp only [List.mem_cons, forall_eq_or_imp] at ht
    have first := anchors_portion document uri (index :: trail) scope n t ht.1 place m
    have rest (n' m' : Nat) := anchors_portionOf document uri trail scope n' (index + 1) ts ht.2 place m'
    rw [portionOf, placesOf, Portion.inner_append, outlineOf_append, List.map_append, first, rest]
    simp [anchorsAmong]

end

end Tree

end Mykt
