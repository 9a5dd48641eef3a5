import Mathlib.Data.List.Basic
import Mykt.Analysis
import Mykt.Proofs.Disk.Place
import Mykt.Proofs.Text.Utf8
import Mykt.Proofs.Token.Partition
import Mykt.Scope.Dump

/-!
Texts whose lines end in a carriage return and a line feed. Main statements: such a text and the
text with line feeds alone have the same pieces, but for the carriage returns in gaps; no terminal
holds one, and none stands between the last line feed and a token; so both texts have the same
tokens at the same places, and a file is the same tree whether it is read from a disk or held open.
-/

namespace Mykt

namespace Text

/-- Each carriage return stands before a line feed. -/
def IsPaired : List Char → Prop
  | [] => True
  | c :: cs => (c = '\r' → cs.head? = some '\n') ∧ IsPaired cs

instance decidableIsPaired : DecidablePred IsPaired
  | [] => .isTrue trivial
  | c :: cs =>
    have := decidableIsPaired cs
    inferInstanceAs (Decidable ((c = '\r' → cs.head? = some '\n') ∧ IsPaired cs))

def dropReturns (cs : List Char) : List Char := cs.filter (· ≠ '\r')

@[simp] theorem dropReturns_nil : dropReturns [] = [] := rfl

@[simp] theorem dropReturns_return (cs : List Char) :
    dropReturns ('\r' :: cs) = dropReturns cs := by
  simp [dropReturns]

theorem dropReturns_cons {c : Char} (h : c ≠ '\r') (cs : List Char) :
    dropReturns (c :: cs) = c :: dropReturns cs := by
  simp [dropReturns, h]

theorem dropReturns_append (xs ys : List Char) :
    dropReturns (xs ++ ys) = dropReturns xs ++ dropReturns ys := by
  simp [dropReturns]

theorem dropReturns_of_notMem {cs : List Char} (h : '\r' ∉ cs) : dropReturns cs = cs := by
  apply List.filter_eq_self.2
  intro c hc
  have hne : c ≠ '\r' := by
    intro he
    exact h (he ▸ hc)
  simpa using hne

namespace IsPaired

variable {cs xs ys : List Char}

theorem of_append (h : IsPaired (xs ++ ys)) : IsPaired ys := by
  induction xs with
  | nil => exact h
  | cons c xs ih => exact ih h.2

/-- Behind a carriage return the text goes on with a line feed. -/
theorem exists_newline (h : IsPaired ('\r' :: cs)) : ∃ rest, cs = '\n' :: rest :=
  List.head?_eq_some_iff.1 (h.1 rfl)

/-- A part of one line that is not followed by a line feed holds no carriage return. -/
theorem return_notMem (h : IsPaired (xs ++ ys)) (hx : '\n' ∉ xs) (hy : ys.head? ≠ some '\n') :
    '\r' ∉ xs := by
  induction xs with
  | nil => simp
  | cons c xs ih =>
    simp only [List.mem_cons, not_or] at hx
    have hrest := ih h.2 hx.2
    have hc : '\r' ≠ c := by
      intro he
      have hnext := h.1 he.symm
      cases xs with
      | nil => exact hy hnext
      | cons d xs => simp_all
    simp [hc, hrest]

end IsPaired

/-- Where each carriage return stands before a line feed, it is dropped. -/
theorem unifyNewlines_eq {cs : List Char} (h : IsPaired cs) :
    unifyNewlines cs = dropReturns cs := by
  fun_induction unifyNewlines cs with
  | case1 cs ih =>
    have hne : '\n' ≠ '\r' := by decide
    rw [ih h.2.2, dropReturns_return, dropReturns_cons hne]
  | case2 cs hnext =>
    obtain ⟨rest, hrest⟩ := h.exists_newline
    exact absurd hrest (hnext rest)
  | case3 c cs _ hc ih =>
    have hne : c ≠ '\r' := fun he => hc he
    rw [ih h.2, dropReturns_cons hne]
  | case4 => rfl

theorem IsPaired.dropReturns_ne_nil {cs : List Char} (h : IsPaired cs) (hc : cs ≠ []) :
    dropReturns cs ≠ [] := by
  cases cs with
  | nil => exact hc
  | cons c cs =>
    by_cases hr : c = '\r'
    · subst hr
      obtain ⟨rest, rfl⟩ := h.exists_newline
      simp [dropReturns_cons]
    · simp [dropReturns_cons hr]

/-- What is not a line feed stands at the head of both texts. -/
theorem exists_cons_of_dropReturns {cs rest : List Char} {c : Char} (h : IsPaired cs)
    (hn : c ≠ '\n') (hc : dropReturns cs = c :: rest) :
    ∃ tail, cs = c :: tail ∧ dropReturns tail = rest := by
  cases cs with
  | nil => cases hc
  | cons d cs =>
    by_cases hd : d = '\r'
    · subst hd
      obtain ⟨tail, rfl⟩ := h.exists_newline
      rw [dropReturns_return, dropReturns_cons (by decide)] at hc
      exact absurd (List.cons.inj hc).1.symm hn
    · rw [dropReturns_cons hd] at hc
      have hparts := List.cons.inj hc
      exact ⟨cs, by rw [hparts.1], hparts.2⟩

section

variable {q : Char → Bool} {cs : List Char}

/-- Cutting where carriage returns are passed over. -/
theorem span_dropReturns_of_passes (hr : q '\r' = true) (cs : List Char) :
    (dropReturns cs).takeWhile q = dropReturns (cs.takeWhile q) ∧
      (dropReturns cs).dropWhile q = dropReturns (cs.dropWhile q) := by
  induction cs with
  | nil => exact ⟨rfl, rfl⟩
  | cons c cs ih =>
    by_cases hc : c = '\r'
    · subst hc
      simpa [hr] using ih
    · rw [dropReturns_cons hc]
      by_cases hq : q c = true
      · simpa [hq, dropReturns_cons hc] using ih
      · simp [hq, dropReturns_cons hc]

/-- Cutting where neither a carriage return nor a line feed is passed over. -/
theorem span_dropReturns_of_stops (hr : q '\r' = false) (hn : q '\n' = false)
    (h : IsPaired cs) :
    (dropReturns cs).takeWhile q = cs.takeWhile q ∧
      (dropReturns cs).dropWhile q = dropReturns (cs.dropWhile q) := by
  induction cs with
  | nil => exact ⟨rfl, rfl⟩
  | cons c cs ih =>
    by_cases hc : c = '\r'
    · subst hc
      obtain ⟨rest, rfl⟩ := h.exists_newline
      have hne : '\n' ≠ '\r' := by decide
      simp [hr, hn, dropReturns_cons hne]
    · rw [dropReturns_cons hc]
      by_cases hq : q c = true
      · simpa [hq] using ih h.2
      · simp [hq, dropReturns_cons hc]

end

theorem lastLine_dropReturns (cs : List Char) :
    lastLine (dropReturns cs) = dropReturns (lastLine cs) := by
  have hreverse (xs : List Char) : (dropReturns xs).reverse = dropReturns xs.reverse := by
    simp [dropReturns]
  have hcut := (span_dropReturns_of_passes (q := (· ≠ '\n')) rfl cs.reverse).1
  rw [lastLine, hreverse, hcut, hreverse]
  rfl

/-- A token does not stand behind a carriage return of its line. -/
theorem return_notMem_lastLine {before after : List Char} (h : IsPaired (before ++ after))
    (ha : after.head? ≠ some '\n') : '\r' ∉ lastLine before := by
  have hsplit : before = (before.reverse.dropWhile (· ≠ '\n')).reverse ++ lastLine before := by
    rw [lastLine, ← List.reverse_append, List.takeWhile_append_dropWhile, List.reverse_reverse]
  have hline : '\n' ∉ lastLine before := by
    intro hn
    have := List.mem_takeWhile_imp (List.mem_reverse.1 hn)
    simp at this
  rw [hsplit, List.append_assoc] at h
  exact h.of_append.return_notMem hline ha

end Text

open Text

/-- Where no line feed follows, a place has the same line and column without carriage returns. -/
theorem Place.advance_dropReturns {before after : List Char}
    (h : IsPaired (before ++ after)) (ha : after.head? ≠ some '\n') :
    (start.advance (dropReturns before)).line = (start.advance before).line ∧
      (start.advance (dropReturns before)).column = (start.advance before).column := by
  have hcount : (dropReturns before).count '\n' = before.count '\n' :=
    List.count_filter (by decide)
  have hlast := dropReturns_of_notMem (return_notMem_lastLine h ha)
  rw [line_advance, line_advance, column_advance, column_advance, lastLine_dropReturns, hlast]
  exact ⟨hcount, rfl⟩

namespace Lexer

/-- A piece without the carriage returns in gaps. Terminals hold none. -/
def Piece.dropReturns : Piece → Piece
  | gap cs => gap (Text.dropReturns cs)
  | terminal t cs => terminal t cs

variable {cs : List Char}

theorem closeComment_dropReturns (h : IsPaired cs) :
    closeComment (dropReturns cs) =
      (closeComment cs).map fun x => (dropReturns x.1, dropReturns x.2) := by
  fun_induction closeComment cs with
  | case1 r => simp [dropReturns_cons, closeComment]
  | case2 c r hopen ih =>
    have hrest := ih h.2
    by_cases hc : c = '\r'
    · subst hc
      simp [hrest, Function.comp_def]
    · -- what is dropped between the two characters of a mark would stand before a line feed
      have hnext : ∀ r', c = '*' → dropReturns r = '/' :: r' → False := by
        intro r' hstar hr
        obtain ⟨tail, htail, -⟩ := exists_cons_of_dropReturns h.2 (by decide) hr
        exact hopen tail hstar htail
      rw [dropReturns_cons hc, closeComment, hrest]
      · simp [Function.comp_def, dropReturns_cons hc]
      · exact hnext
  | case3 => rfl

theorem closeString_newline (r : List Char) : closeString ('\n' :: r) = none := by
  simp [closeString]

theorem closeString_cons {c : Char} (hq : c ≠ '"') (hb : c ≠ '\\') (hn : c ≠ '\n')
    (r : List Char) :
    closeString (c :: r) = (closeString r).map fun x => (c :: x.1, x.2) := by
  rw [closeString.eq_def]
  split <;> simp_all

theorem closeString_dropReturns (h : IsPaired cs) :
    closeString (dropReturns cs) =
      (closeString cs).map fun x => (x.1, dropReturns x.2) := by
  fun_induction closeString cs with
  | case1 r => simp [dropReturns_cons, closeString]
  | case2 r => simp [dropReturns_cons, closeString]
  | case3 c r hc ih =>
    by_cases hr : c = '\r'
    · subst hr
      obtain ⟨rest, rfl⟩ := h.2.exists_newline
      simp [dropReturns_cons, closeString, closeString_newline]
    · have hrest := ih h.2.2
      simp [dropReturns_cons, hr, closeString, hc, hrest, Function.comp_def]
  | case4 c r hquote hescape hc =>
    have hends : c = '\\' ∧ r = [] ∨ c = '\n' := by
      simp only [Bool.or_eq_true, decide_eq_true_eq] at hc
      rcases hc with rfl | rfl
      · cases r with
        | nil => exact .inl ⟨rfl, rfl⟩
        | cons d r => exact absurd rfl (hescape d r rfl)
      · exact .inr rfl
    rcases hends with ⟨rfl, rfl⟩ | rfl
    · rfl
    · simp [dropReturns_cons, closeString_newline]
  | case5 c r hquote hescape hc ih =>
    by_cases hr : c = '\r'
    · subst hr
      obtain ⟨rest, rfl⟩ := h.exists_newline
      simp [dropReturns_cons, closeString_newline]
    · have hrest := ih h.2
      simp only [Bool.or_eq_true, decide_eq_true_eq, not_or] at hc
      have hcons (r : List Char) :
          closeString (c :: r) = (closeString r).map fun x => (c :: x.1, x.2) :=
        closeString_cons (fun he => hquote he) hc.1 hc.2 r
      rw [dropReturns_cons hr, hcons, hrest]
      simp [Function.comp_def]
  | case6 => rfl

theorem after?_dropReturns {spelling : List Char} (hr : '\r' ∉ spelling) (hn : '\n' ∉ spelling)
    (h : IsPaired cs) :
    after? spelling (dropReturns cs) = (after? spelling cs).map dropReturns := by
  induction spelling generalizing cs with
  | nil => rfl
  | cons s spelling ih =>
    simp only [List.mem_cons, not_or] at hr hn
    cases cs with
    | nil => rfl
    | cons c cs =>
      by_cases hc : c = '\r'
      · subst hc
        obtain ⟨rest, rfl⟩ := h.exists_newline
        simp [dropReturns_cons, after?, Ne.symm hr.1, Ne.symm hn.1]
      · have hrest := ih hr.2 hn.2 h.2
        by_cases hs : s = c <;> simp [dropReturns_cons hc, after?, hs, hrest]

theorem operator?_dropReturns (h : IsPaired cs) :
    operator? (dropReturns cs) =
      (operator? cs).map fun x => (x.1.dropReturns, dropReturns x.2) := by
  have spellings : ∀ x ∈ Terminal.operators, '\r' ∉ x.1 ∧ '\n' ∉ x.1 := by decide
  unfold operator?
  generalize Terminal.operators = operators at spellings
  induction operators with
  | nil => rfl
  | cons x operators ih =>
    have hx := spellings x List.mem_cons_self
    have hrest := ih fun y hy => spellings y (List.mem_cons_of_mem x hy)
    simp only [List.findSome?_cons, after?_dropReturns hx.1 hx.2 h]
    cases after? x.1 cs with
    | none => exact hrest
    | some rest => rfl

theorem comment?_dropReturns (h : IsPaired cs) :
    comment? (dropReturns cs) =
      (comment? cs).map fun x => (x.1.dropReturns, dropReturns x.2) := by
  fun_cases comment? cs with
  | case1 r =>
    have hcut := span_dropReturns_of_passes (q := (· ≠ '\n')) rfl r
    simpa [dropReturns_cons, comment?, Piece.dropReturns] using hcut
  | case2 r =>
    have hrest := closeComment_dropReturns h.2.2
    simp [dropReturns_cons, comment?, Piece.dropReturns, hrest, Function.comp_def]
  | case3 cs hline hblock =>
    have hmark {d : Char} (hd : d ≠ '\n') {rest : List Char}
        (hcs : dropReturns cs = '/' :: d :: rest) : ∃ tail, cs = '/' :: d :: tail := by
      obtain ⟨tail, rfl, htail⟩ := exists_cons_of_dropReturns h (by decide) hcs
      obtain ⟨tail, rfl, -⟩ := exists_cons_of_dropReturns h.2 hd htail
      exact ⟨tail, rfl⟩
    rw [comment?]
    · rfl
    · intro rest hcs
      obtain ⟨tail, htail⟩ := hmark (by decide) hcs
      exact hline tail htail
    · intro rest hcs
      obtain ⟨tail, htail⟩ := hmark (by decide) hcs
      exact hblock tail htail

theorem string?_dropReturns (h : IsPaired cs) :
    string? (dropReturns cs) =
      (string? cs).map fun x => (x.1.dropReturns, dropReturns x.2) := by
  fun_cases string? cs with
  | case1 r =>
    have hrest := closeString_dropReturns h.2
    simp [dropReturns_cons, string?, Piece.dropReturns, hrest, Function.comp_def]
  | case2 cs hopen =>
    rw [string?]
    · rfl
    · intro rest hcs
      obtain ⟨tail, htail, -⟩ := exists_cons_of_dropReturns h (by decide) hcs
      exact hopen tail htail

theorem piece?_dropReturns (h : IsPaired cs) :
    piece? (dropReturns cs) =
      (piece? cs).map fun x => (x.1.dropReturns, dropReturns x.2) := by
  have hblanks := span_dropReturns_of_passes (q := isBlank) rfl
  cases cs with
  | nil => rfl
  | cons c cs =>
    by_cases hc : c = '\r'
    · subst hc
      obtain ⟨rest, rfl⟩ := h.exists_newline
      simp [dropReturns_cons, piece?, isBlank, Piece.dropReturns, hblanks rest]
    · have hparts := span_dropReturns_of_stops (q := isNamePart) rfl rfl h.2
      have hdigits := span_dropReturns_of_stops (q := isDigit) rfl rfl h.2
      have hcomment := comment?_dropReturns h
      have hstring := string?_dropReturns h
      have hoperator := operator?_dropReturns h
      rw [dropReturns_cons hc] at hcomment hstring hoperator ⊢
      simp only [piece?]
      split
      · simp [Piece.dropReturns, dropReturns_cons hc, hblanks cs]
      split
      · simp [Piece.dropReturns, hparts]
      split
      · simp [Piece.dropReturns, hdigits]
      · rw [hcomment, hstring, hoperator, Option.map_or, Option.map_or]

/-- Both texts have the same tokens at the same places, and both are read to the end or neither. -/
theorem scanAt_dropReturns (done : List Char) (h : IsPaired (done ++ cs)) :
    (scanAt (Place.start.advance (dropReturns done)) (dropReturns cs)).tokens =
        (scanAt (Place.start.advance done) cs).tokens ∧
      ((scanAt (Place.start.advance (dropReturns done)) (dropReturns cs)).stop = none ↔
        (scanAt (Place.start.advance done) cs).stop = none) := by
  induction hlength : cs.length using Nat.strong_induction_on generalizing done cs with
  | h n ih =>
    have hpaired : IsPaired cs := h.of_append
    have hpiece := piece?_dropReturns hpaired
    by_cases hnil : cs = []
    · subst hnil
      simp
    cases hx : piece? cs with
    | none =>
      rw [hx] at hpiece
      rw [scanAt_of_none hnil hx, scanAt_of_none (hpaired.dropReturns_ne_nil hnil) hpiece]
      simp
    | some x =>
      -- what is left behind a piece is shorter and stands behind the same text
      have hsplit := (piece?_eq hx).1
      have hrest : IsPaired (done ++ x.1.chars ++ x.2) := by simpa [← hsplit] using h
      have ih := ih x.2.length (hlength ▸ length_lt_of_piece? hx) _ hrest rfl
      rw [hx] at hpiece
      rw [dropReturns_append, Place.advance_append, Place.advance_append] at ih
      match x with
      | (.gap chars, rest) =>
        rw [scanAt_of_gap hx, scanAt_of_gap hpiece]
        exact ih
      | (.terminal k chars, rest) =>
        have hreturn : dropReturns chars = chars := by
          -- the terminal is read from the text without carriage returns too
          have hmem : '\r' ∉ chars ++ dropReturns rest := by
            rw [← show dropReturns cs = chars ++ dropReturns rest from (piece?_eq hpiece).1]
            simp [dropReturns]
          exact dropReturns_of_notMem fun hr => hmem (List.mem_append_left _ hr)
        rw [Piece.chars, hreturn] at ih
        have hhead : cs.head? ≠ some '\n' := by
          intro hn
          rw [hsplit, List.head?_append_of_ne_nil _ (piece?_eq hx).2] at hn
          exact (spells_of_piece? hx).newline_notMem (List.mem_of_head? hn)
        have hplace := Place.advance_dropReturns h hhead
        have htoken : tokenAt (Place.start.advance (dropReturns done)) k chars =
            tokenAt (Place.start.advance done) k chars := by
          rw [tokenAt, tokenAt, hplace.1, hplace.2]
        rw [scanAt_of_terminal hx, scanAt_of_terminal hpiece, htoken, ih.1]
        exact ⟨rfl, ih.2⟩

theorem scan_dropReturns (h : IsPaired cs) :
    (scan (dropReturns cs)).tokens = (scan cs).tokens ∧
      ((scan (dropReturns cs)).stop = none ↔ (scan cs).stop = none) :=
  scanAt_dropReturns [] h

end Lexer

theorem parse_dropReturns {s : String} (h : IsPaired s.toList) (t : Tree) :
    parse (String.ofList (dropReturns s.toList)) = .ok t ↔ parse s = .ok t := by
  have hscan := Lexer.scan_dropReturns h
  rw [parse_eq_ok_iff, parse_eq_ok_iff, String.toList_ofList, hscan.1, hscan.2]

/-- A disk gives the text of its bytes with line feeds alone. -/
theorem Disk.readText_encode {d : Disk} {p : Path} {cs : List Char}
    (h : d.readBytes p = .ok (Utf8.encode cs)) :
    d.readText p = .ok (String.ofList (unifyNewlines cs)) := by
  have htext : textOf (Utf8.encode cs) = .ok (unifyNewlines cs) := by
    rw [textOf, Utf8.decode_encode]
  rw [readText, h]
  simp only [bind, Except.bind, htext]
  rfl

theorem Import.load_of_readText {d : Disk} {p : Path} {s : String} (h : d.readText p = .ok s)
    (t : Tree) : load d p = .ok t ↔ parse s = .ok t := by
  simp only [load, h]
  cases hparse : parse s <;> simp [Except.mapError]

/-- An analysis depends on the text through its tree. -/
theorem Analysis.run_of_parse {s s' : String} {t : Tree} (h : parse s = .ok t)
    (h' : parse s' = .ok t) (d : Disk) (settings : Settings) (uri : String) :
    run d settings uri s' =
      ((run d settings uri s).1, (run d settings uri s).2.map ({ · with source := s' })) := by
  rw [run, run, h, h']
  dsimp only
  split <;> rfl

/-- A text whose lines end in a carriage return and a line feed is read as the text with line feeds
alone: both have the same tree, the same table and the same definitions, and a file is the same
whether a disk gives it or an editor. -/
theorem parse_unifyNewlines {s s' : String} (h : IsPaired s.toList)
    (hs : s'.toList = unifyNewlines s.toList) :
    (∀ t, parse s' = .ok t ↔ parse s = .ok t) ∧
    (∀ uri, (parse s').toOption.map (fun t => (SymbolTable.ofTree uri t).map (·.dump)) =
      (parse s).toOption.map fun t => (SymbolTable.ofTree uri t).map (·.dump)) ∧
    (∀ uri position,
      (parse s').toOption.map
          (fun t => (SymbolTable.ofTree uri t).map (·.definitionAt 0 t position)) =
        (parse s).toOption.map
          fun t => (SymbolTable.ofTree uri t).map (·.definitionAt 0 t position)) ∧
    (∀ d p, d.readBytes p = .ok (Utf8.encode s.toList) →
      d.readText p = .ok s' ∧ ∀ t, Import.load d p = .ok t ↔ parse s = .ok t) ∧
    ∀ d settings uri t, parse s = .ok t →
      Analysis.run d settings uri s' =
        ((Analysis.run d settings uri s).1,
          (Analysis.run d settings uri s).2.map ({ · with source := s' })) := by
  have hs : s' = String.ofList (unifyNewlines s.toList) := by
    rw [← hs, String.ofList_toList]
  have hparse (t : Tree) : parse s' = .ok t ↔ parse s = .ok t := by
    rw [hs, unifyNewlines_eq h]
    exact parse_dropReturns h t
  have hoption : (parse s').toOption = (parse s).toOption := by
    ext t
    rw [toOption_eq_some_iff, toOption_eq_some_iff, hparse]
  refine ⟨hparse, ?_, ?_, ?_, ?_⟩
  · intro uri
    rw [hoption]
  · intro uri position
    rw [hoption]
  · intro d p hbytes
    have htext : d.readText p = .ok s' := hs ▸ Disk.readText_encode hbytes
    refine ⟨htext, ?_⟩
    intro t
    rw [Import.load_of_readText htext, hparse]
  · intro d settings uri t ht
    exact Analysis.run_of_parse ht ((hparse t).2 ht) d settings uri

/-- Carriage returns in comments, beside tokens and alone on a line. -/
theorem parse_unifyNewlines_commented :
    ∃ t, parse "// a\r\nval x = \"b\" /* c\r\n*/ val y\r\n\r\n" = .ok t ∧
      parse "// a\nval x = \"b\" /* c\n*/ val y\n\n" = .ok t ∧
      Import.load ⟨⟨1, []⟩, [(["m.kt"], .file (Utf8.encode
        "// a\r\nval x = \"b\" /* c\r\n*/ val y\r\n\r\n".toList))]⟩ ⟨1, ["m.kt"]⟩ = .ok t ∧
      t.tokens.map (fun x => (x.text, x.line, x.column)) =
        [("val", 2, 0), ("x", 2, 4), ("=", 2, 6), ("\"b\"", 2, 8), ("val", 3, 3), ("y", 3, 7)] := by
  have hparse := @parse_unifyNewlines "// a\r\nval x = \"b\" /* c\r\n*/ val y\r\n\r\n"
    "// a\nval x = \"b\" /* c\n*/ val y\n\n" (by decide) (by decide)
  have htree : parse "// a\r\nval x = \"b\" /* c\r\n*/ val y\r\n\r\n" = .ok _ := rfl
  refine ⟨_, htree, (hparse.1 _).2 htree, ?_, by decide +kernel⟩
  apply ((hparse.2.2.2.1 _ _ ?_).2 _).2 htree
  rfl

end Mykt
