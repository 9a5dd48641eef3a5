import Mykt.Proofs.Declaration.Portion
import Mykt.Proofs.Token.Partition
import Mykt.Proofs.Tree.Places

/-!
How the ranges of a tree lie whose tokens stand one behind the other. Main statements: a range
begins before it ends, is within that of the part around it, and ends before that of the next part
begins.
-/

namespace Mykt

namespace Position

instance : LT Position where
  lt p q := p.line < q.line ∨ p.line = q.line ∧ p.character < q.character

instance : LE Position where
  le p q := p.line < q.line ∨ p.line = q.line ∧ p.character ≤ q.character

theorem lt_def {p q : Position} :
    p < q ↔ p.line < q.line ∨ p.line = q.line ∧ p.character < q.character := .rfl

theorem le_def {p q : Position} :
    p ≤ q ↔ p.line < q.line ∨ p.line = q.line ∧ p.character ≤ q.character := .rfl

/-- Numbers that are in bounds are kept. -/
theorem coordinates_of_ofInts {line character : Int} {p : Position}
    (h : ofInts line character = .ok p) : p.line = line ∧ p.character = character := by
  unfold ofInts at h
  split at h
  · cases h
  split at h
  · cases h
  next hline hcharacter =>
    cases h
    simp only [inBounds, Bool.not_eq_true', Bool.not_eq_false, Bool.and_eq_true,
      decide_eq_true_eq] at hline hcharacter
    exact ⟨Int.toNat_of_nonneg hline.1, Int.toNat_of_nonneg hcharacter.1⟩

end Position

namespace Range

/-- A range that another one holds. -/
def Within (r outer : Range) : Prop := outer.start ≤ r.start ∧ r.stop ≤ outer.stop

/-- A range has the coordinates of its tokens. -/
theorem coordinates_of_ofTokens {first last : Token} {r : Range} (h : ofTokens first last = .ok r) :
    r.start.line = first.line - 1 ∧ r.start.character = first.column ∧
      r.stop.line = last.line - 1 ∧ r.stop.character = last.column + last.text.length := by
  unfold ofTokens ofInts at h
  cases hstart : Position.ofInts (first.line - 1) first.column with
  | error e => simp [hstart, bind, Except.bind] at h
  | ok start =>
    cases hstop : Position.ofInts (last.line - 1) (last.column + last.text.length) with
    | error e => simp [hstart, hstop, bind, Except.bind] at h
    | ok stop =>
      simp only [hstart, hstop, bind, Except.bind, pure, Except.pure, Except.ok.injEq] at h
      subst h
      have hfirst := Position.coordinates_of_ofInts hstart
      have hlast := Position.coordinates_of_ofInts hstop
      exact ⟨hfirst.1, hfirst.2, hlast.1, hlast.2⟩

end Range

namespace Tree

/-- Tokens that stand one behind the other. -/
structure IsLaid (t : Tree) : Prop where
  leads : t.tokens.Pairwise Token.Leads
  written : ∀ x ∈ t.tokens, 0 < x.text.length

theorem isLaid_of_parse {source : String} {t : Tree} (h : parse source = .ok t) : t.IsLaid := by
  obtain ⟨first, pieces, -, htokens, -, hlaid⟩ := Lexer.exists_laid_of_parse h
  constructor
  · rw [← htokens]
    exact hlaid.pairwise_leads
  · intro x hx
    rw [← htokens] at hx
    obtain ⟨_, _, -, hsits⟩ := hlaid.exists_sits hx
    exact hsits.length_pos

theorem tokens_sublist_of_mem {t : Tree} {ts : List Tree} (h : t ∈ ts) :
    t.tokens.Sublist (tokensOf ts) := by
  obtain ⟨before, behind, rfl⟩ := List.append_of_mem h
  rw [tokensOf_append, tokensOf]
  exact (List.sublist_append_left _ _).trans (List.sublist_append_right _ _)

theorem tokens_sublist_of_at? {t u : Tree} {trail : Trail} (h : t.at? trail = some u) :
    u.tokens.Sublist t.tokens := by
  induction trail generalizing u with
  | nil =>
    obtain rfl : t = u := by simpa using h
    exact List.Sublist.refl _
  | cons i above ih =>
    rw [at?_cons] at h
    obtain ⟨v, hv, hchild⟩ := Option.bind_eq_some_iff.1 h
    cases v with
    | leaf x => simp [children] at hchild
    | node k cs => exact (tokens_sublist_of_mem (List.mem_of_getElem? hchild)).trans (ih hv)

section

variable {t u : Tree} {r : Range}

/-- A range goes from the first token to the last. -/
theorem exists_of_range (h : t.range = .ok r) :
    ∃ first last, t.tokens.head? = some first ∧ t.tokens.getLast? = some last ∧
      Range.ofTokens first last = .ok r := by
  simp only [range, first?_eq, last?_eq] at h
  split at h
  · next first last hfirst hlast =>
    refine ⟨first, last, hfirst, hlast, ?_⟩
    cases hspan : Range.ofTokens first last with
    | error e => simp [hspan, Except.mapError] at h
    | ok span =>
      simp only [hspan, Except.mapError, Except.ok.injEq] at h
      rw [h]
  · cases h

theorem range_of_tokens_nil (h : t.tokens = []) : t.range = .error (.empty t.kind) := by
  simp [range, first?_eq, h]

theorem eq_or_rel_of_head? {R : Token → Token → Prop} {ts : List Token} {x y : Token}
    (h : ts.Pairwise R) (hx : ts.head? = some x) (hy : y ∈ ts) : x = y ∨ R x y := by
  obtain ⟨tail, rfl⟩ := List.head?_eq_some_iff.1 hx
  rcases List.mem_cons.1 hy with rfl | hy
  · exact .inl rfl
  · exact .inr (List.rel_of_pairwise_cons h hy)

theorem eq_or_rel_of_getLast? {R : Token → Token → Prop} {ts : List Token} {x y : Token}
    (h : ts.Pairwise R) (hy : ts.getLast? = some y) (hx : x ∈ ts) : x = y ∨ R x y := by
  obtain ⟨before, rfl⟩ := List.getLast?_eq_some_iff.1 hy
  rcases List.mem_append.1 hx with hx | hx
  · exact .inr ((List.pairwise_append.1 h).2.2 x hx y List.mem_cons_self)
  · exact .inl (List.mem_singleton.1 hx)

namespace IsLaid

theorem mono (h : t.IsLaid) (hu : u.tokens.Sublist t.tokens) : u.IsLaid :=
  ⟨h.leads.sublist hu, fun x hx => h.written x (hu.subset hx)⟩

theorem start_lt_stop (h : t.IsLaid) (hr : t.range = .ok r) : r.start < r.stop := by
  obtain ⟨first, last, hfirst, hlast, hspan⟩ := exists_of_range hr
  have hcoordinates := Range.coordinates_of_ofTokens hspan
  have hlength := h.written first (List.mem_of_head? hfirst)
  have horder := eq_or_rel_of_head? h.leads hfirst (List.mem_of_getLast? hlast)
  rw [Position.lt_def]
  rcases horder with rfl | hleads
  · omega
  · have hends := hleads.ends
    omega

theorem within {ru : Range} (h : t.IsLaid) (hu : u.tokens ⊆ t.tokens) (hr : t.range = .ok r)
    (hru : u.range = .ok ru) : ru.Within r := by
  obtain ⟨first, last, hfirst, hlast, hspan⟩ := exists_of_range hr
  obtain ⟨first', last', hfirst', hlast', hspan'⟩ := exists_of_range hru
  have houter := Range.coordinates_of_ofTokens hspan
  have hinner := Range.coordinates_of_ofTokens hspan'
  have hbegins := eq_or_rel_of_head? h.leads hfirst (hu (List.mem_of_head? hfirst'))
  have hends := eq_or_rel_of_getLast? h.leads hlast (hu (List.mem_of_getLast? hlast'))
  constructor
  · rw [Position.le_def]
    rcases hbegins with rfl | hleads
    · omega
    · have := hleads.ends
      omega
  · rw [Position.le_def]
    rcases hends with rfl | hleads
    · omega
    · have := hleads.ends
      omega

/-- A part ends before the next one begins. -/
theorem pairwise_stop_le_start {k : Kind} {cs : List Tree} (h : (node k cs).IsLaid) :
    cs.Pairwise fun c d =>
      ∀ rc rd, c.range = .ok rc → d.range = .ok rd → rc.stop ≤ rd.start := by
  have hleads := h.leads
  rw [tokens, tokensOf_eq_flatMap, List.pairwise_flatMap] at hleads
  refine hleads.2.imp ?_
  intro c d hcd rc rd hrc hrd
  obtain ⟨_, last, -, hlast, hspan⟩ := exists_of_range hrc
  obtain ⟨first, _, hfirst, -, hspan'⟩ := exists_of_range hrd
  have hbefore := Range.coordinates_of_ofTokens hspan
  have hbehind := Range.coordinates_of_ofTokens hspan'
  have hends := (hcd last (List.mem_of_getLast? hlast) first (List.mem_of_head? hfirst)).ends
  rw [Position.le_def]
  omega

end IsLaid

end

/-- How the ranges of a tree and of its children lie. -/
structure HasNestedRanges (t : Tree) : Prop where
  ranged : t.tokens ≠ [] → ∃ r, t.range = .ok r ∧ r.start < r.stop
  unranged : t.tokens = [] → t.range = .error (.empty t.kind)
  within : ∀ c ∈ t.children, ∀ rc, c.range = .ok rc → ∃ r, t.range = .ok r ∧ rc.Within r
  ordered : t.children.Pairwise fun c d =>
    ∀ rc rd, c.range = .ok rc → d.range = .ok rd → rc.stop ≤ rd.start

theorem HasSpans.hasNestedRanges {t : Tree} (h : t.HasSpans) (hl : t.IsLaid) :
    t.HasNestedRanges where
  ranged := by
    intro hne
    obtain ⟨x, hx⟩ := List.exists_mem_of_ne_nil _ hne
    obtain ⟨r, hr⟩ := h.exists_range hx
    exact ⟨r, hr, hl.start_lt_stop hr⟩
  unranged := range_of_tokens_nil
  within := by
    intro c hc rc hrc
    cases t with
    | leaf => cases hc
    | node k cs =>
      obtain ⟨first, _, hfirst, -, -⟩ := exists_of_range hrc
      have hsub : c.tokens ⊆ (node k cs).tokens := tokens_subset_of_mem hc
      obtain ⟨r, hr⟩ := h.exists_range (hsub (List.mem_of_head? hfirst))
      exact ⟨r, hr, hl.within hsub hr hrc⟩
  ordered := by
    cases t with
    | leaf => exact .nil
    | node k cs => exact hl.pairwise_stop_le_start

end Tree

end Mykt
