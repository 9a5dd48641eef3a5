import Mykt.Analysis
import Mykt.Proofs.Grammar.Failure
import Mykt.Proofs.Token.Partition
import Mykt.Proofs.Token.Stop

/-!
Texts that are not files of the language. Main statement: a text is refused at the first place where
it cannot go on, be it a token, its end or a character that begins nothing, and the analysis has a
single diagnostic, which stands at that place.
-/

namespace Mykt

/-- What an error says about its text, and the line and the column of the place, from zero. -/
inductive ParseError.Marks (cs : List Char) : ParseError → Int → Int → Prop where
  /-- A file can begin with the tokens before, and none begins with these and the one found. -/
  | token {before behind : List Token} {x : Token}
      (htokens : (Lexer.scan cs).tokens = before ++ x :: behind) (hx : x.StandsIn cs)
      (hbefore : BeginsFile before)
      (hfound : ∀ more t, parseTokens (before ++ x :: more) ≠ .ok t) :
      Marks cs (.token x) (x.line - 1) x.column
  /-- A file can begin with all the tokens, and they are no file yet. -/
  | ending {before : List Token} {x : Token} (hscan : Lexer.scan cs = ⟨before ++ [x], none⟩)
      (hx : x.StandsIn cs) (hbefore : BeginsFile (before ++ [x]))
      (hend : ∀ t, parseTokens (before ++ [x]) ≠ .ok t) :
      Marks cs (.ending (some x)) (x.line - 1) x.column
  /-- Neither a terminal nor a gap begins at the character, and a file can begin with the tokens
  before. -/
  | character {before behind : List Char} {c : Char} {around : Surroundings}
      {previous : Option Token} (hcs : cs = before ++ c :: behind)
      (hstop : (Lexer.scan cs).stop = some (Place.start.advance before))
      (hterminal : ∀ k chars rest, chars ≠ [] → Lexer.Spells k chars → c :: behind ≠ chars ++ rest)
      (hgap : ∀ chars rest, chars ≠ [] → Lexer.IsGap chars rest → c :: behind ≠ chars ++ rest)
      (htokens : ∀ x ∈ (Lexer.scan cs).tokens, x.StandsIn before)
      (hbefore : BeginsFile (Lexer.scan cs).tokens) :
      Marks cs (.character c (Place.start.advance before) around previous) (before.count '\n')
        (Text.lastLine before).length

theorem beginsFile_of_parseTokens {ts : List Token} {t : Tree} (h : parseTokens ts = .ok t) :
    BeginsFile ts := by
  refine ⟨[], t, by simp, ?_⟩
  rwa [List.append_nil]

namespace ParseError

variable {cs : List Char}

theorem Marks.location_eq {e : ParseError} {line column : Int} (h : e.Marks cs line column) :
    e.location = (line + 1, column + 1) := by
  cases h with
  | token | ending => simp [location]
  | character => simp [location, Place.line_advance, Place.column_advance]

theorem marks_token {x : Token} {behind : List Token}
    (h : parseTokens (Lexer.scan cs).tokens = .error (x :: behind)) :
    (token x).Marks cs (x.line - 1) x.column := by
  obtain ⟨before, htokens, hbegins, hrefused⟩ := exists_taken_of_error h
  have hx : x.StandsIn cs := Lexer.standsIn_of_mem_scan (by simp [htokens])
  refine .token htokens hx hbegins ?_
  intro more t ht
  rw [hrefused x behind rfl more] at ht
  cases ht

theorem marks_ending (h : parseTokens (Lexer.scan cs).tokens = .error [])
    (hs : (Lexer.scan cs).stop = none) :
    ∃ line column, (ending (Lexer.scan cs).tokens.getLast?).Marks cs line column := by
  obtain ⟨taken, htokens, hbegins, -⟩ := exists_taken_of_error h
  rw [List.append_nil] at htokens
  rcases List.eq_nil_or_concat taken with rfl | ⟨before, x, rfl⟩
  · -- no token at all is a file
    rw [htokens] at h
    cases h
  · rw [List.concat_eq_append] at htokens hbegins
    rw [htokens, List.getLast?_concat]
    have hscan : Lexer.scan cs = ⟨before ++ [x], none⟩ := by
      rw [← htokens, ← hs]
    have hx : x.StandsIn cs := Lexer.standsIn_of_mem_scan (by simp [htokens])
    refine ⟨_, _, .ending hscan hx hbegins ?_⟩
    intro t ht
    rw [htokens, ht] at h
    cases h

theorem marks_character {p : Place} (hs : (Lexer.scan cs).stop = some p)
    (hc : BeginsFile (Lexer.scan cs).tokens) (around : Surroundings) (previous : Option Token) :
    ∃ line column, (character (cs.getD p.offset ' ') p around previous).Marks cs line column := by
  obtain ⟨before, c, behind, hcs, hnone, hplace, htokens⟩ :
      ∃ before c behind, cs = before ++ c :: behind ∧ Lexer.piece? (c :: behind) = none ∧
        p = Place.start.advance before ∧ ∀ x ∈ (Lexer.scan cs).tokens, x.StandsIn before :=
    @Lexer.exists_stop cs.length [] cs p (Nat.le_refl _) hs
  have hfound : cs.getD p.offset ' ' = c := by
    simp [hcs, hplace, Place.offset_advance, Place.start]
  rw [hfound, hplace]
  refine ⟨_, _, .character hcs (hplace ▸ hs) ?_ ?_ htokens hc⟩
  · intro k chars rest hchars hspells he
    have hpiece := hspells.isSome_piece? hchars rest
    rw [← he, hnone] at hpiece
    cases hpiece
  · intro chars rest hchars hisGap he
    have hpiece := hisGap.isSome_piece? hchars
    rw [← he, hnone] at hpiece
    cases hpiece

/-- A text is refused at the first place where it cannot go on. -/
theorem exists_marks {source : String} {e : ParseError} (h : parse source = .error e) :
    ∃ line column, e.Marks source.toList line column := by
  unfold parse parseChars at h
  simp only at h
  split at h
  · next hread =>
    cases h
    exact ⟨_, _, marks_token hread⟩
  · next hread hstop =>
    cases h
    exact marks_ending hread hstop
  · next hread hstop =>
    cases h
    obtain ⟨taken, htokens, hbegins, -⟩ := exists_taken_of_error hread
    rw [List.append_nil] at htokens
    exact marks_character hstop (htokens ▸ hbegins) _ _
  · next hread hstop =>
    cases h
    exact marks_character hstop (beginsFile_of_parseTokens hread) _ _
  · cases h

end ParseError

namespace Analysis

theorem run_of_error {source : String} {e : ParseError} (h : parse source = .error e) (d : Disk)
    (settings : Settings) (uri : String) :
    (run d settings uri source).2 = .ok ⟨uri, source, none, .empty, [parseDiagnostic uri e]⟩ := by
  unfold run
  simp only [h]

theorem parseDiagnostic_eq {cs : List Char} {e : ParseError} {line column : Int}
    (h : e.Marks cs line column) (uri : String) :
    parseDiagnostic uri e = {
      message := "syntax error: " ++ Text.firstLine e.message
      code := some "syntax", phase := some "parser", severity := "error", notes := []
      span := ⟨some uri, some line, some column, none, none⟩ } := by
  simp only [parseDiagnostic, h.location_eq, Int.add_sub_cancel]

/-- The analysis of a text that is refused has no tree, no declarations and one diagnostic, an error
at the first place where the text cannot go on. -/
theorem run_refuses {source : String} {e : ParseError} (h : parse source = .error e) (d : Disk)
    (settings : Settings) (uri : String) :
    ∃ line column, e.Marks source.toList line column ∧
      (run d settings uri source).2 = .ok {
        uri, source, tree := none, table := .empty
        diagnostics := [{
          message := "syntax error: " ++ Text.firstLine e.message
          code := some "syntax", phase := some "parser", severity := "error", notes := []
          span := ⟨some uri, some line, some column, none, none⟩ }] } := by
  obtain ⟨line, column, hmarks⟩ := ParseError.exists_marks h
  refine ⟨line, column, hmarks, ?_⟩
  rw [run_of_error h, parseDiagnostic_eq hmarks]

/-- A declaration without a name, one that is cut off, and one with a character of no terminal. -/
theorem run_refuses_declaration :
    let d : Disk := ⟨⟨1, []⟩, []⟩
    let Refused (source : String) (line column : Int) : Prop :=
      ∃ e a, parse source = .error e ∧ e.Marks source.toList line column ∧
        (run d {} "file:///a.mykt" source).2 = .ok a ∧ a.tree = none ∧
        a.diagnostics.map (fun x => (x.code, x.span.line, x.span.column)) =
          [(some "syntax", some line, some column)]
    Refused "val\n = 1" 1 1 ∧ Refused "val x\n =" 1 1 ∧ Refused "val x = @" 0 8 := by
  intro d Refused
  have refused {source : String} {e : ParseError} {line column : Int}
      (h : parse source = .error e) (hplace : e.location = (line + 1, column + 1)) :
      Refused source line column := by
    obtain ⟨l, c, hmarks, hrun⟩ := run_refuses h d {} "file:///a.mykt"
    have hsame : l = line ∧ c = column := by
      have hboth := hmarks.location_eq.symm.trans hplace
      simpa using hboth
    obtain ⟨rfl, rfl⟩ := hsame
    exact ⟨e, _, h, hmarks, hrun, rfl, rfl⟩
  exact ⟨refused rfl rfl, refused rfl rfl, refused rfl rfl⟩

end Analysis

end Mykt
