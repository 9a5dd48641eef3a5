import Mykt.Position
import Mykt.Token.Lexer

/-!
Cutting a range out of a text. Main statement: the range from where a part of a text begins to where
it ends cuts out that part.
-/

namespace Mykt

namespace Place

theorem step_newline (p : Place) : p.step '\n' = ⟨p.offset + 1, p.line + 1, 0⟩ := by
  simp [step]

theorem step_of_ne {p : Place} {c : Char} (h : c ≠ '\n') :
    p.step c = ⟨p.offset + 1, p.line, p.column + 1⟩ := by
  simp [step, h]

theorem advance_cons (p : Place) (c : Char) (cs : List Char) :
    p.advance (c :: cs) = (p.step c).advance cs := rfl

theorem advance_of_not_mem {p : Place} {cs : List Char} (h : '\n' ∉ cs) :
    p.advance cs = ⟨p.offset + cs.length, p.line, p.column + cs.length⟩ := by
  induction cs generalizing p with
  | nil => rfl
  | cons c cs ih =>
    simp only [List.mem_cons, not_or] at h
    rw [advance_cons, step_of_ne (Ne.symm h.1), ih h.2]
    simp only [List.length_cons, Place.mk.injEq, true_and]
    omega

/-- A text of `n` characters leads at most `n` lines down and `n` columns on. -/
theorem advance_le (p : Place) (cs : List Char) :
    (p.advance cs).line ≤ p.line + cs.length ∧
      (p.advance cs).column ≤ p.column + cs.length := by
  induction cs generalizing p with
  | nil => exact ⟨Nat.le_refl _, Nat.le_refl _⟩
  | cons c cs ih =>
    have h := ih (p.step c)
    rw [advance_cons, List.length_cons]
    by_cases hc : c = '\n'
    · subst hc
      rw [step_newline] at h ⊢
      simp only at h
      omega
    · rw [step_of_ne hc] at h ⊢
      simp only at h
      omega

/-- The position of an editor at a place. -/
def position (p : Place) : Position := ⟨p.line, p.column⟩

end Place

namespace Text

/-- How many characters stand before a position. Line feeds alone divide lines. -/
def offsetOf : List Char → Nat → Nat → Nat
  | _, 0, character => character
  | [], _ + 1, _ => 0
  | c :: cs, line + 1, character =>
    offsetOf cs (if c = '\n' then line else line + 1) character + 1

/-- The characters of a text from the start of a range up to its end. -/
def cut (cs : List Char) (r : Range) : List Char :=
  (cs.take (offsetOf cs r.stop.line r.stop.character)).drop
    (offsetOf cs r.start.line r.start.character)

theorem offsetOf_advance (p : Place) (before after : List Char) :
    p.line ≤ (p.advance before).line ∧
      ((p.advance before).line = p.line →
        (p.advance before).column = p.column + before.length) ∧
      (p.line < (p.advance before).line →
        offsetOf (before ++ after) ((p.advance before).line - p.line) (p.advance before).column =
          before.length) := by
  induction before generalizing p with
  | nil => simp [Place.advance]
  | cons c cs ih =>
    obtain ⟨hle, hsame, hlater⟩ := ih (p.step c)
    rw [Place.advance_cons]
    by_cases hc : c = '\n'
    · subst hc
      rw [Place.step_newline] at hle hsame hlater ⊢
      simp only at hle hsame hlater
      refine ⟨by omega, by omega, ?_⟩
      intro h
      generalize Place.advance _ cs = q at *
      obtain ⟨n, hn⟩ : ∃ n, q.line - p.line = n + 1 := ⟨q.line - p.line - 1, by omega⟩
      rw [hn, List.cons_append, offsetOf, if_pos rfl, List.length_cons, Nat.add_right_cancel_iff]
      cases n with
      | zero => simpa [offsetOf] using hsame (by omega)
      | succ n => rw [← hlater (by omega), show q.line - (p.line + 1) = n + 1 by omega]
    · rw [Place.step_of_ne hc] at hle hsame hlater ⊢
      simp only at hle hsame hlater
      refine ⟨hle, ?_, ?_⟩
      · intro h
        rw [hsame h, List.length_cons]
        omega
      · intro h
        generalize Place.advance _ cs = q at *
        obtain ⟨n, hn⟩ : ∃ n, q.line - p.line = n + 1 := ⟨q.line - p.line - 1, by omega⟩
        rw [hn, List.cons_append, offsetOf, if_neg hc, List.length_cons, ← hn, hlater h]

theorem offsetOf_position (before after : List Char) :
    offsetOf (before ++ after) (Place.start.advance before).line
      (Place.start.advance before).column = before.length := by
  obtain ⟨-, hsame, hlater⟩ := offsetOf_advance .start before after
  by_cases h : (Place.start.advance before).line = 0
  · rw [h, offsetOf, hsame h]
    simp [Place.start]
  · simpa [Place.start] using hlater (Nat.pos_of_ne_zero h)

theorem cut_append (before part after : List Char) :
    cut (before ++ part ++ after)
      ⟨(Place.start.advance before).position, (Place.start.advance (before ++ part)).position⟩ =
        part := by
  have hstart := offsetOf_position before (part ++ after)
  have hstop := offsetOf_position (before ++ part) after
  rw [← List.append_assoc] at hstart
  simp only [cut, Place.position, hstart, hstop, List.take_left, List.drop_left]

end Text

end Mykt
