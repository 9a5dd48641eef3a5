import Mathlib.Data.List.Induction
import Mykt.Proofs.Grammar.Derivation
import Mykt.Proofs.Token.Munch
import Mykt.Text.Lines

/-!
A text as its tokens and the gaps between them. Main statements: a text that is read is a gap, then
tokens with a gap behind each; each token has the line and the column at which it is written and
could not go on; the tokens stand one behind the other, and no name begins where another ends.
-/

namespace Mykt

namespace Text

theorem lastLine_newline (cs : List Char) : lastLine (cs ++ ['\n']) = [] := by
  simp [lastLine]

theorem lastLine_concat {c : Char} (cs : List Char) (h : c ≠ '\n') :
    lastLine (cs ++ [c]) = lastLine cs ++ [c] := by
  simp [lastLine, h]

end Text

namespace Place

theorem line_advance (cs : List Char) : (start.advance cs).line = cs.count '\n' := by
  induction cs using List.reverseRecOn with
  | nil => rfl
  | append_singleton cs c ih =>
    rw [advance_append, advance_cons]
    by_cases hc : c = '\n'
    · subst hc
      simp [step_newline, advance, ← ih]
    · simp [step_of_ne hc, advance, ← ih, hc]

theorem column_advance (cs : List Char) :
    (start.advance cs).column = (Text.lastLine cs).length := by
  induction cs using List.reverseRecOn with
  | nil => rfl
  | append_singleton cs c ih =>
    rw [advance_append, advance_cons]
    by_cases hc : c = '\n'
    · subst hc
      rw [step_newline, Text.lastLine_newline]
      rfl
    · rw [step_of_ne hc, Text.lastLine_concat cs hc, List.length_append, ← ih]
      rfl

/-- Behind a text stands nothing that is written later. -/
theorem advance_le_append (xs ys : List Char) :
    (start.advance xs).line < (start.advance (xs ++ ys)).line ∨
      (start.advance xs).line = (start.advance (xs ++ ys)).line ∧
        (start.advance xs).column + ys.length = (start.advance (xs ++ ys)).column := by
  rw [advance_append]
  obtain ⟨hle, hsame, -⟩ := Text.offsetOf_advance (start.advance xs) ys []
  by_cases h : (start.advance xs).line < ((start.advance xs).advance ys).line
  · exact .inl h
  · have he : ((start.advance xs).advance ys).line = (start.advance xs).line := by omega
    exact .inr ⟨he.symm, (hsame he).symm⟩

end Place

namespace Token

/-- A token between what is written before it and what is written after it. -/
structure Sits (x : Token) (before after : List Char) : Prop where
  line_eq : x.line = before.count '\n' + 1
  column_eq : x.column = (Text.lastLine before).length
  text_ne : x.text ≠ ""
  newline_notMem : '\n' ∉ x.text.toList
  stop_line : x.line - 1 = (before ++ x.text.toList).count '\n'
  stop_column : x.column + x.text.length = (Text.lastLine (before ++ x.text.toList)).length
  spelled : x.IsSpelled
  word_maximal : ∀ k : Terminal, x.kind = .terminal k → k.isWord = true →
    ∀ c ∈ after.head?, Lexer.isNamePart c = false
  int_maximal : x.kind = .terminal .int → ∀ c ∈ after.head?, Lexer.isDigit c = false
  keyword_iff : ∀ w ∈ Terminal.keywords, x.kind = .terminal w.2 ↔ x.text.toList = w.1
  sign_maximal : ∀ c ∈ ['=', '!', '<', '>'], x.text.toList = [c] → after.head? ≠ some '='

/-- The first characters of two tokens stand in this order. -/
def Precedes (x y : Token) : Prop := x.line < y.line ∨ x.line = y.line ∧ x.column < y.column

/-- A token ends where another begins or before, and between two names something is written. -/
structure Leads (x y : Token) : Prop where
  ends : x.line < y.line ∨ x.line = y.line ∧ x.column + x.text.length ≤ y.column
  apart : x.isName = true → y.isName = true → x.line = y.line → x.column + x.text.length < y.column

end Token

/-- Tokens, each with the gap behind it, as they are written. -/
def written (pieces : List (Token × List Char)) : List Char :=
  pieces.flatMap fun x => x.1.text.toList ++ x.2

/-- Tokens and gaps that are laid out behind a text: each token sits where it says, and what stands
between it and the next is a gap. -/
inductive Laid : List Char → List (Token × List Char) → Prop where
  | nil {before : List Char} : Laid before []
  | cons {before gap : List Char} {x : Token} {pieces : List (Token × List Char)}
      (hx : x.Sits before (gap ++ written pieces)) (hg : Lexer.IsGap gap (written pieces))
      (h : Laid (before ++ x.text.toList ++ gap) pieces) : Laid before ((x, gap) :: pieces)

@[simp] theorem written_nil : written [] = [] := rfl

@[simp] theorem written_cons (x : Token) (gap : List Char) (pieces : List (Token × List Char)) :
    written ((x, gap) :: pieces) = x.text.toList ++ (gap ++ written pieces) := by
  simp [written]

namespace Lexer

theorem sits_tokenAt (done : List Char) {cs rest chars : List Char} {k : Terminal}
    (h : piece? cs = some (.terminal k chars, rest)) :
    (tokenAt (Place.start.advance done) k chars).Sits done rest := by
  have hspells := spells_of_piece? h
  have htakes := takes_of_piece? h
  have hnewline := hspells.newline_notMem
  have hstop : Place.start.advance (done ++ chars) = _ :=
    (Place.advance_append _ _ _).trans (Place.advance_of_not_mem hnewline)
  have hkind {j : Terminal} (hj : (tokenAt (Place.start.advance done) k chars).kind = .terminal j) :
      k = j := Kind.terminal.inj hj
  constructor
  case line_eq => simp [tokenAt, Place.line_advance]
  case column_eq => simp [tokenAt, Place.column_advance]
  case text_ne => simpa [tokenAt, Piece.chars] using (piece?_eq h).2
  case newline_notMem => simpa [tokenAt] using hnewline
  case stop_line =>
    rw [← Place.line_advance]
    simp [tokenAt, hstop]
  case stop_column =>
    rw [← Place.column_advance]
    simp [tokenAt, hstop]
  case spelled => exact ⟨k, rfl, by simpa [tokenAt] using hspells⟩
  case word_maximal =>
    intro j hj hword
    exact htakes.word_maximal (hkind hj ▸ hword)
  case int_maximal =>
    intro hj
    exact htakes.int_maximal (hkind hj)
  case keyword_iff =>
    intro w hw
    simpa [tokenAt] using hspells.keyword_iff hw
  case sign_maximal =>
    intro c hc hchars
    exact htakes.head?_ne_equal hc (by simpa [tokenAt] using hchars)

/-- A text that is scanned to its end is laid out behind what is done. -/
theorem exists_laid {n : Nat} {done cs : List Char}
    (h : (scanFrom n (Place.start.advance done) cs).stop = none) :
    ∃ first pieces, cs = first ++ written pieces ∧
      pieces.map (·.1) = (scanFrom n (Place.start.advance done) cs).tokens ∧
      IsGap first (written pieces) ∧ Laid (done ++ first) pieces := by
  induction n generalizing done cs with
  | zero =>
    cases cs with
    | nil => exact ⟨[], [], rfl, by simp [scanFrom], .nil, .nil⟩
    | cons => simp [scanFrom] at h
  | succ n ih =>
    cases cs with
    | nil => exact ⟨[], [], rfl, by simp [scanFrom], .nil, .nil⟩
    | cons c cs =>
      simp only [scanFrom] at h ⊢
      split at h
      · cases h
      · next chars rest hp =>
        -- a gap that is read goes before the gap that follows
        rw [← Place.advance_append] at h
        obtain ⟨first, pieces, hrest, htokens, hgap, hlaid⟩ := ih h
        have hcs := (piece?_eq hp).1
        refine ⟨chars ++ first, pieces, ?_, ?_, ?_, ?_⟩
        · simpa [Piece.chars, hrest] using hcs
        · rw [htokens, ← Place.advance_append]
        · exact isGap_of_piece? hp hrest hgap
        · simpa using hlaid
      · next k chars rest hp =>
        rw [← Place.advance_append] at h
        obtain ⟨first, pieces, hrest, htokens, hgap, hlaid⟩ := ih h
        have hcs := (piece?_eq hp).1
        have hsits := sits_tokenAt done hp
        rw [hrest] at hsits
        refine ⟨[], (tokenAt (Place.start.advance done) k chars, first) :: pieces, ?_, ?_, .nil, ?_⟩
        · simpa [Piece.chars, tokenAt, hrest] using hcs
        · rw [List.map_cons, htokens, ← Place.advance_append]
        · exact .cons (by simpa using hsits) hgap (by simpa [tokenAt] using hlaid)

theorem exists_laid_of_parse {source : String} {t : Tree} (h : parse source = .ok t) :
    ∃ first pieces, source.toList = first ++ written pieces ∧ pieces.map (·.1) = t.tokens ∧
      IsGap first (written pieces) ∧ Laid first pieces := by
  have hstop : (scanFrom source.toList.length (Place.start.advance []) source.toList).stop = none :=
    (parse_eq_ok_iff.1 h).1
  rw [(conforms_of_parse h).2.2]
  exact exists_laid hstop

end Lexer

namespace Token.Sits

variable {x y : Token} {before between after : List Char}

theorem start_eq (h : x.Sits before after) :
    x.line = (Place.start.advance before).line + 1 ∧
      x.column = (Place.start.advance before).column := by
  rw [Place.line_advance, Place.column_advance]
  exact ⟨h.line_eq, h.column_eq⟩

theorem stop_eq (h : x.Sits before after) :
    x.line = (Place.start.advance (before ++ x.text.toList)).line + 1 ∧
      x.column + x.text.length = (Place.start.advance (before ++ x.text.toList)).column := by
  rw [Place.line_advance, Place.column_advance]
  have := h.stop_line
  exact ⟨by omega, h.stop_column⟩

theorem length_pos (h : x.Sits before after) : 0 < x.text.length := by
  rw [← String.length_toList, List.length_pos_iff]
  simpa using h.text_ne

theorem leads (hx : x.Sits before (between ++ y.text.toList ++ after))
    (hy : y.Sits (before ++ x.text.toList ++ between) after) : x.Leads y := by
  have hstop := hx.stop_eq
  have hstart := hy.start_eq
  have hbetween := Place.advance_le_append (before ++ x.text.toList) between
  constructor
  case ends => omega
  case apart =>
    intro hxname hyname hline
    cases between with
    | cons c between =>
      simp only [List.length_cons] at hbetween
      omega
    | nil =>
      -- the second name would go on with the first
      obtain ⟨c, cs, htext, hc, -⟩ := hy.spelled.isIdentifier hyname
      have hfollows := hx.word_maximal .name (by simpa [isName] using hxname) rfl c
        (by simp [htext])
      simp [Lexer.isNamePart, hc] at hfollows

end Token.Sits

namespace Laid

variable {before : List Char} {pieces : List (Token × List Char)}

/-- A token that is laid out stands somewhere behind the text. -/
theorem exists_sits (h : Laid before pieces) {y : Token} (hy : y ∈ pieces.map (·.1)) :
    ∃ between rest, written pieces = between ++ y.text.toList ++ rest ∧
      y.Sits (before ++ between) rest := by
  induction h with
  | nil => simp at hy
  | @cons before gap x pieces hx _ _ ih =>
    rcases List.mem_cons.1 hy with rfl | hy
    · exact ⟨[], gap ++ written pieces, by simp, by simpa using hx⟩
    · obtain ⟨between, rest, hwritten, hsits⟩ := ih hy
      exact ⟨x.text.toList ++ gap ++ between, rest, by simp [hwritten], by simpa using hsits⟩

theorem pairwise_leads (h : Laid before pieces) : (pieces.map (·.1)).Pairwise Token.Leads := by
  induction h with
  | nil => exact .nil
  | @cons before gap x pieces hx _ hlaid ih =>
    refine .cons ?_ ih
    intro y hy
    obtain ⟨between, rest, hwritten, hsits⟩ := hlaid.exists_sits hy
    have hsits : y.Sits (before ++ x.text.toList ++ (gap ++ between)) rest := by simpa using hsits
    refine Token.Sits.leads ?_ hsits
    simpa [hwritten] using hx

theorem pairwise_precedes (h : Laid before pieces) :
    (pieces.map (·.1)).Pairwise Token.Precedes := by
  apply h.pairwise_leads.imp_of_mem
  intro x y hx _ hleads
  obtain ⟨_, _, -, hsits⟩ := h.exists_sits hx
  have hlength := hsits.length_pos
  have hends := hleads.ends
  unfold Token.Precedes
  omega

end Laid

/-- A text that is read is its tokens, in the order of a walk, with gaps around them. -/
theorem parse_partition {source : String} {t : Tree} (h : parse source = .ok t) :
    ∃ first pieces, source.toList = first ++ written pieces ∧
      pieces.map (·.1) = t.walk.filterMap Tree.token? ∧
      Lexer.IsGap first (written pieces) ∧ Laid first pieces ∧
      (t.walk.filterMap Tree.token?).Pairwise Token.Precedes := by
  obtain ⟨first, pieces, hsource, htokens, hgap, hlaid⟩ := Lexer.exists_laid_of_parse h
  rw [t.filterMap_walk, ← htokens]
  exact ⟨first, pieces, hsource, rfl, hgap, hlaid, hlaid.pairwise_precedes⟩

/-- A carriage return ends no line, a comment may run over lines, and a string may look like one. -/
theorem parse_partition_commented :
    ∃ t first pieces, parse "\r/* a\n*/val x = \"//\" // b\nval y" = .ok t ∧
      "\r/* a\n*/val x = \"//\" // b\nval y".toList = first ++ written pieces ∧
      pieces.map (·.1) = t.walk.filterMap Tree.token? ∧ Laid first pieces ∧
      (t.walk.filterMap Tree.token?).map (fun x => (x.text, x.line, x.column)) =
        [("val", 2, 2), ("x", 2, 6), ("=", 2, 8), ("\"//\"", 2, 10), ("val", 3, 0),
          ("y", 3, 4)] := by
  obtain ⟨t, ht, htokens⟩ : ∃ t, parse "\r/* a\n*/val x = \"//\" // b\nval y" = .ok t ∧
      (t.walk.filterMap Tree.token?).map (fun x => (x.text, x.line, x.column)) =
        [("val", 2, 2), ("x", 2, 6), ("=", 2, 8), ("\"//\"", 2, 10), ("val", 3, 0),
          ("y", 3, 4)] := by
    exact ⟨_, rfl, by decide +kernel⟩
  obtain ⟨first, pieces, hsource, hpieces, -, hlaid, -⟩ := parse_partition ht
  exact ⟨t, first, pieces, ht, hsource, hpieces, hlaid, htokens⟩

end Mykt
