import Mathlib.Data.List.Basic
import Mykt.Failure

/-!
Why a node cannot be declared. Main statements: a tree has no range exactly if it has no token or
one of four coordinates is no number of an editor; a node is flawed exactly if its name and its
place cannot be told, and the flaw is the error that is reported.
-/

namespace Mykt

namespace PositionError

def value : PositionError → Int
  | line n => n
  | character n => n

/-- A coordinate that an editor does not count. -/
def isOutside (e : PositionError) : Bool := e.value < 0 || 2147483647 < e.value

theorem isOutside_eq (e : PositionError) : e.isOutside = !Position.inBounds e.value := by
  have hlimit : (Position.limit : Int) = 2147483647 := rfl
  rw [Bool.eq_iff_iff]
  simp only [isOutside, Position.inBounds, hlimit, Bool.or_eq_true, decide_eq_true_eq,
    Bool.not_eq_true', Bool.and_eq_false_iff, decide_eq_false_iff_not]
  omega

end PositionError

/-- Where one token starts and another ends, in the order in which it is checked. -/
def Range.coordinates (first last : Token) : List PositionError :=
  [.line (first.line - 1), .character first.column, .line (last.line - 1),
    .character (last.column + last.text.length)]

theorem Position.ofInts_eq (line character : Int) :
    ofInts line character =
      match [PositionError.line line, .character character].find? (·.isOutside) with
      | some e => .error e
      | none => .ok ⟨line.toNat, character.toNat⟩ := by
  have hline := PositionError.isOutside_eq (.line line)
  have hcharacter := PositionError.isOutside_eq (.character character)
  simp only [PositionError.value] at hline hcharacter
  unfold ofInts
  rw [← hline, ← hcharacter]
  by_cases hl : (PositionError.line line).isOutside
  · simp [hl]
  · by_cases hc : (PositionError.character character).isOutside <;> simp [hl, hc]

theorem Range.ofTokens_eq_error_iff {first last : Token} {e : PositionError} :
    ofTokens first last = .error e ↔
      (coordinates first last).find? (·.isOutside) = some e := by
  have hsplit : coordinates first last =
      [.line (first.line - 1), .character first.column] ++
        [.line (last.line - 1), .character (last.column + last.text.length)] := rfl
  rw [hsplit, List.find?_append, ofTokens, ofInts, Position.ofInts_eq, Position.ofInts_eq]
  cases hstart : [PositionError.line (first.line - 1), .character first.column].find?
      (·.isOutside) with
  | some x => simp [bind, Except.bind]
  | none =>
    cases hstop : [PositionError.line (last.line - 1),
        .character (last.column + last.text.length)].find? (·.isOutside) with
    | some x => simp [bind, Except.bind]
    | none => simp [bind, Except.bind, pure, Except.pure]

namespace Tree

/-- A tree whose range cannot be told, with the name and the text of the error. -/
inductive Misplaced (t : Tree) : String → String → Prop where
  | empty (h : t.tokens = []) :
      Misplaced t "MalformedNode" ("syntax node '" ++ t.kind.label ++ "' has no start/stop token")
  | outside {first last : Token} {e : PositionError} (hfirst : t.tokens.head? = some first)
      (hlast : t.tokens.getLast? = some last)
      (he : (Range.coordinates first last).find? (·.isOutside) = some e) :
      Misplaced t "ValueError" e.message

/-- A node that cannot be declared, with the name and the text of the error. -/
inductive Flawed (t : Tree) : String → String → Prop where
  | unnamed (h : ∀ c ∈ t.children, c.kind ≠ .rule .simpleIdentifier) :
      Flawed t "ValueError" (t.kind.label ++ " without a name")
  | node {name : Tree} {label message : String}
      (hname : t.child? (.rule .simpleIdentifier) = some name) (h : t.Misplaced label message) :
      Flawed t label message
  | name {name : Tree} {label message : String}
      (hname : t.child? (.rule .simpleIdentifier) = some name)
      (hnode : ∀ label message, ¬ t.Misplaced label message)
      (h : name.Misplaced label message) : Flawed t label message

/-- A tree is misplaced exactly if its range is an error, told by its name and text. -/
theorem misplaced_iff {t : Tree} {label message : String} :
    t.Misplaced label message ↔
      ∃ e, t.range = .error e ∧ Failure.rangeName e = label ∧ e.message = message := by
  constructor
  · intro h
    cases h with
    | empty h => exact ⟨.empty t.kind, by simp [range, first?_eq, h], rfl, rfl⟩
    | @outside first last e hfirst hlast he =>
      have hrange := Range.ofTokens_eq_error_iff.2 he
      refine ⟨.position e, ?_, rfl, rfl⟩
      simp [range, first?_eq, last?_eq, hfirst, hlast, hrange, Except.mapError]
  · rintro ⟨e, h, rfl, rfl⟩
    unfold range at h
    split at h
    · next first last hfirst hlast =>
      cases hrange : Range.ofTokens first last with
      | ok r => simp [hrange, Except.mapError] at h
      | error x =>
        obtain rfl : RangeError.position x = e := by simpa [hrange, Except.mapError] using h
        rw [first?_eq] at hfirst
        rw [last?_eq] at hlast
        exact .outside hfirst hlast (Range.ofTokens_eq_error_iff.1 hrange)
    · next hnone =>
      cases h
      apply Misplaced.empty
      apply Classical.byContradiction
      intro hne
      have hfirst : t.first? = some _ := t.first?_eq.trans (List.head?_eq_some_head hne)
      have hlast : t.last? = some _ := t.last?_eq.trans (List.getLast?_eq_some_getLast hne)
      exact hnone _ _ hfirst hlast

theorem not_misplaced_of_range {t : Tree} {r : Range} (h : t.range = .ok r)
    (label message : String) : ¬ t.Misplaced label message := by
  intro hm
  obtain ⟨e, he, -⟩ := misplaced_iff.1 hm
  rw [h] at he
  cases he

/-- A node is flawed exactly if its name and place are an error, told by its name and text. -/
theorem flawed_iff {t : Tree} {label message : String} (uri : String) :
    t.Flawed label message ↔
      ∃ e, Fold.locate uri t = .error e ∧ (Failure.declaration e).name = label ∧
        (Failure.declaration e).message = message := by
  constructor
  · intro h
    cases h with
    | unnamed h =>
      have hnone : t.child? (.rule .simpleIdentifier) = none := by
        simpa [child?, List.find?_eq_none] using h
      exact ⟨.unnamed t.kind, by simp [Fold.locate, hnone], rfl, rfl⟩
    | node hname h =>
      obtain ⟨e, he, rfl, rfl⟩ := misplaced_iff.1 h
      exact ⟨.range e, by simp [Fold.locate, hname, he], rfl, rfl⟩
    | name hname hnode h =>
      obtain ⟨e, he, rfl, rfl⟩ := misplaced_iff.1 h
      cases hrange : t.range with
      | error x => exact absurd (misplaced_iff.2 ⟨x, hrange, rfl, rfl⟩) (hnode _ _)
      | ok r => exact ⟨.range e, by simp [Fold.locate, hname, hrange, he], rfl, rfl⟩
  · rintro ⟨e, h, rfl, rfl⟩
    unfold Fold.locate at h
    split at h
    · next hnone =>
      cases h
      apply Flawed.unnamed
      simpa [child?, List.find?_eq_none] using hnone
    · next name hname =>
      split at h
      · next x hrange =>
        cases h
        exact .node hname (misplaced_iff.2 ⟨x, hrange, rfl, rfl⟩)
      · next r x hrange hnameRange =>
        cases h
        exact .name hname (not_misplaced_of_range hrange)
          (misplaced_iff.2 ⟨x, hnameRange, rfl, rfl⟩)
      · cases h

end Tree

end Mykt
