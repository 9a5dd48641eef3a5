import Mykt.Proofs.Text.Cut
import Mykt.Proofs.Token.Munch
import Mykt.Tree.Caret

/-!
Where the terminals of a text stand. Main statements: each token of a scan stands in the text at its
line and column, on one line; the range of a name cuts out the name; in a short text every token has
a range.
-/

namespace Mykt

namespace Token

/-- A token has a text of its terminal. -/
def IsSpelled (t : Token) : Prop := ∃ k, t.kind = .terminal k ∧ Lexer.Spells k t.text.toList

theorem IsSpelled.isIdentifier {t : Token} (h : t.IsSpelled) (hn : t.isName = true) :
    Lexer.IsIdentifier t.text.toList := by
  obtain ⟨k, ht, hk⟩ := h
  obtain rfl : k = .name := by simpa [isName, ht] using hn
  exact hk.isIdentifier

theorem IsSpelled.eq_dot {t : Token} (h : t.IsSpelled) (hd : t.kind = .terminal .dot) :
    t.text = "." := by
  obtain ⟨k, ht, hk⟩ := h
  obtain rfl : k = .dot := by simpa [hd] using ht.symm
  exact String.toList_injective (hk.eq_operator (x := (['.'], .dot)) (by decide) rfl)

/-- A token's characters stand in a text at its line and column, and are those of its terminal. -/
structure StandsIn (t : Token) (cs : List Char) : Prop where
  placed : ∃ before after, cs = before ++ t.text.toList ++ after ∧
    t.line = (Place.start.advance before).line + 1 ∧
    t.column = (Place.start.advance before).column
  spelled : t.IsSpelled

end Token

namespace Lexer

theorem standsIn_tokenAt {cs done rest chars : List Char} {t : Terminal}
    (h : piece? cs = some (.terminal t chars, rest)) :
    (tokenAt (Place.start.advance done) t chars).StandsIn (done ++ cs) where
  placed := ⟨done, rest, by simp [tokenAt, (piece?_eq h).1, Piece.chars], rfl, rfl⟩
  spelled := ⟨t, rfl, by simpa [tokenAt] using spells_of_piece? h⟩

theorem standsIn_of_mem_scanFrom {n : Nat} {cs done : List Char} {t : Token}
    (h : t ∈ (scanFrom n (Place.start.advance done) cs).tokens) : t.StandsIn (done ++ cs) := by
  induction n generalizing cs done with
  | zero => cases cs <;> simp [scanFrom] at h
  | succ n ih =>
    cases cs with
    | nil => simp [scanFrom] at h
    | cons c cs =>
      simp only [scanFrom] at h
      split at h
      · simp at h
      · next chars rest hp =>
        rw [← Place.advance_append] at h
        have hc := (piece?_eq hp).1
        simp only [Piece.chars] at hc
        simpa [hc] using ih h
      · next k chars rest hp =>
        rcases List.mem_cons.1 h with rfl | h
        · exact standsIn_tokenAt hp
        · rw [← Place.advance_append] at h
          have hc := (piece?_eq hp).1
          simp only [Piece.chars] at hc
          simpa [hc] using ih h

theorem standsIn_of_mem_scan {cs : List Char} {t : Token} (h : t ∈ (scan cs).tokens) :
    t.StandsIn cs :=
  @standsIn_of_mem_scanFrom cs.length cs [] t h

end Lexer

namespace Position

theorem ofInts_natCast {line character : Nat} (hl : line ≤ limit) (hc : character ≤ limit) :
    ofInts line character = .ok ⟨line, character⟩ := by
  have hl : (line : Int) ≤ limit := by omega
  have hc : (character : Int) ≤ limit := by omega
  simp [ofInts, inBounds, hl, hc]

theorem eq_of_ofInts {line character : Nat} {p : Position}
    (h : ofInts line character = .ok p) : p = ⟨line, character⟩ := by
  unfold ofInts at h
  split at h
  · cases h
  · split at h
    · cases h
    · cases h
      simp

end Position

namespace Token.StandsIn

variable {cs : List Char} {t u : Token}

theorem newline_notMem (h : t.StandsIn cs) : '\n' ∉ t.text.toList := by
  obtain ⟨k, -, hk⟩ := h.spelled
  exact hk.newline_notMem

/-- A token's first character and the one after its last, in an editor's numbers. -/
theorem exists_positions (h : t.StandsIn cs) :
    ∃ line column : Nat, t.line - 1 = line ∧ t.column = column ∧
      t.column + t.text.length = (column + t.text.length : Nat) ∧
      line ≤ cs.length ∧ column + t.text.length ≤ cs.length := by
  obtain ⟨before, after, rfl, hline, hcolumn⟩ := h.placed
  have hle := Place.advance_le .start before
  refine ⟨(Place.start.advance before).line, (Place.start.advance before).column, by omega, hcolumn,
    by omega, ?_, ?_⟩ <;>
  · simp only [Place.start, List.length_append, String.length_toList] at hle ⊢
    omega

/-- Tokens of a short text span a range. -/
theorem ofTokens_eq_ok (ht : t.StandsIn cs) (hu : u.StandsIn cs)
    (hs : cs.length ≤ Position.limit) : ∃ r, Range.ofTokens t u = .ok r := by
  obtain ⟨l₁, c₁, hl₁, hc₁, -, bl₁, bc₁⟩ := ht.exists_positions
  obtain ⟨l₂, c₂, hl₂, -, he₂, bl₂, bc₂⟩ := hu.exists_positions
  refine ⟨⟨⟨l₁, c₁⟩, ⟨l₂, c₂ + u.text.length⟩⟩, ?_⟩
  rw [Range.ofTokens, Range.ofInts, hl₁, hc₁, hl₂, he₂,
    Position.ofInts_natCast (by omega) (by omega), Position.ofInts_natCast (by omega) (by omega)]
  rfl

/-- The range of a token is on one line and as long as the token. -/
theorem eq_of_ofTokens (h : t.StandsIn cs) {r : Range} (hr : Range.ofTokens t t = .ok r) :
    ∃ before after, cs = before ++ t.text.toList ++ after ∧
      r = ⟨(Place.start.advance before).position,
        (Place.start.advance (before ++ t.text.toList)).position⟩ ∧
      r.start.line = t.line - 1 ∧ r.start.character = t.column ∧
      r.stop.line = t.line - 1 ∧ r.stop.character = t.column + t.text.length := by
  obtain ⟨before, after, hcs, hline, hcolumn⟩ := h.placed
  obtain ⟨line, column, hl, hc, he, -, -⟩ := h.exists_positions
  rw [Range.ofTokens, Range.ofInts, he, hl, hc] at hr
  cases hstart : Position.ofInts line column with
  | error e => simp only [hstart, bind, Except.bind, reduceCtorEq] at hr
  | ok start =>
    cases hstop : Position.ofInts line ↑(column + t.text.length) with
    | error e => simp only [hstart, hstop, bind, Except.bind, reduceCtorEq] at hr
    | ok stop =>
      simp only [hstart, hstop, bind, Except.bind, pure, Except.pure, Except.ok.injEq] at hr
      subst hr
      rw [Position.eq_of_ofInts hstart, Position.eq_of_ofInts hstop]
      have hplace : (Place.start.advance before).line = line ∧
          (Place.start.advance before).column = column := by omega
      refine ⟨before, after, hcs, ?_, ?_⟩
      · rw [Place.advance_append, Place.advance_of_not_mem h.newline_notMem]
        simp [Place.position, hplace, String.length_toList]
      · simp only
        omega

/-- The range of a token cuts it out of its text. -/
theorem cut_eq (h : t.StandsIn cs) {r : Range} (hr : Range.ofTokens t t = .ok r) :
    Text.cut cs r = t.text.toList := by
  obtain ⟨before, after, rfl, rfl, -⟩ := h.eq_of_ofTokens hr
  exact Text.cut_append before _ after

end Token.StandsIn

end Mykt
