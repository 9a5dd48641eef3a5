import Mathlib.Data.List.Basic
import Mykt.Proofs.Token.Placement
import Mykt.Proofs.Token.Stop

/-!
Terminals with a blank between them. Main statements: a terminal that is taken is read, unless it
opens a comment; before a blank each spelling is taken as it stands; so a text of spellings with one
blank between them is read to its end, with those terminals.
-/

namespace Mykt

namespace Lexer

section

variable {k : Terminal} {cs rest : List Char} {c : Char}

theorem span_append {q : Char → Bool} (hcs : ∀ x ∈ cs, q x = true)
    (hrest : ∀ x ∈ rest.head?, q x = false) :
    (cs ++ rest).takeWhile q = cs ∧ (cs ++ rest).dropWhile q = rest := by
  rw [List.takeWhile_append_of_pos hcs, List.dropWhile_append_of_pos hcs]
  cases rest with
  | nil => simp
  | cons c rest =>
    have hc : q c = false := hrest c rfl
    simp [hc]

theorem isBlank_eq_false {q : Char → Bool}
    (hq : ∀ x ∈ [' ', '\t', '\x0c', '\r', '\n'], q x = false) (h : q c = true) :
    isBlank c = false := by
  by_contra hb
  have hblank : isBlank c = true := by simpa using hb
  have hc : c ∈ [' ', '\t', '\x0c', '\r', '\n'] := by simpa [isBlank, or_assoc] using hblank
  rw [hq c hc] at h
  cases h

theorem isNameStart_of_isDigit (h : isDigit c = true) : isNameStart c = false := by
  simp only [isDigit, Bool.and_eq_true, decide_eq_true_eq] at h
  have hbeyond {d : Char} (hd : ¬ d ≤ '9') : ¬ d ≤ c := by
    intro hle
    exact hd (Char.le_trans hle h.2)
  have hscore : c ≠ '_' := by
    rintro rfl
    exact absurd h.2 (by decide)
  simp [isNameStart, hbeyond (d := 'A') (by decide), hbeyond (d := 'a') (by decide), hscore]

theorem piece?_of_isBlank (h : isBlank c = true) (cs : List Char) :
    piece? (c :: cs) = some (.gap (c :: cs.takeWhile isBlank), cs.dropWhile isBlank) := by
  simp [piece?, h]

theorem piece?_of_isNameStart (h : isNameStart c = true) (cs : List Char) :
    piece? (c :: cs) = some (.terminal (wordTerminal (c :: cs.takeWhile isNamePart))
      (c :: cs.takeWhile isNamePart), cs.dropWhile isNamePart) := by
  have hblank : isBlank c = false := isBlank_eq_false (by simp [isNameStart]) h
  simp [piece?, hblank, h]

theorem piece?_of_isDigit (h : isDigit c = true) (cs : List Char) :
    piece? (c :: cs) = some (.terminal .int (c :: cs.takeWhile isDigit), cs.dropWhile isDigit) := by
  have hblank : isBlank c = false := isBlank_eq_false (by simp [isDigit]) h
  simp [piece?, hblank, isNameStart_of_isDigit h, h]

/-- An operator that is taken is the one that is read. -/
theorem operator?_of_takes (hk : (cs, k) ∈ Terminal.operators)
    (hlongest : ∀ x ∈ Terminal.operators, x.1 <+: cs ++ rest → x.1.length ≤ cs.length) :
    operator? (cs ++ rest) = some (.terminal k cs, rest) := by
  have unique : ∀ x ∈ Terminal.operators, ∀ y ∈ Terminal.operators, x.1 = y.1 → x.2 = y.2 := by
    decide
  have hsome : (operator? (cs ++ rest)).isSome = true := by
    rw [operator?, List.findSome?_isSome_iff]
    exact ⟨_, hk, by simp [after?_append]⟩
  obtain ⟨x, hx⟩ := Option.isSome_iff_exists.1 hsome
  obtain ⟨⟨spelling, t⟩, ht, hfound⟩ := List.exists_of_findSome?_eq_some hx
  obtain ⟨left, hleft, rfl⟩ := Option.map_eq_some_iff.1 hfound
  have hfits : cs ++ rest = spelling ++ left := after?_eq hleft
  have hle : spelling.length ≤ cs.length := hlongest _ ht ⟨left, hfits.symm⟩
  have hge : cs.length ≤ spelling.length :=
    (operator?_longest hx).2 _ hk (List.prefix_append cs rest)
  obtain ⟨rfl, rfl⟩ := List.append_inj hfits (by omega)
  have hsame : t = k := unique _ ht _ hk rfl
  rw [hx, hsame]

/-- What is taken is read, unless a comment opens there. -/
theorem Takes.piece?_eq (h : Takes k cs rest) (hcs : cs ≠ []) (hc : comment? (cs ++ rest) = none) :
    piece? (cs ++ rest) = some (.terminal k cs, rest) := by
  cases h with
  | word h hr =>
    obtain ⟨c, tail, rfl, hstart, htail⟩ := h
    have hspan := span_append htail hr
    rw [List.cons_append, piece?_of_isNameStart hstart, hspan.1, hspan.2]
  | int h hr =>
    obtain ⟨c, tail, rfl⟩ := List.exists_cons_of_ne_nil hcs
    have hspan := span_append (fun x hx => h x (List.mem_cons_of_mem c hx)) hr
    rw [List.cons_append, piece?_of_isDigit (h c List.mem_cons_self), hspan.1, hspan.2]
  | string h =>
    have hquote : isBlank '"' = false ∧ isNameStart '"' = false ∧ isDigit '"' = false := by decide
    simp only [List.cons_append] at hc ⊢
    simp [piece?, hquote, hc, string?, closeString_append h rest]
  | operator h hr =>
    have hsigns : ∀ x ∈ Terminal.operators, x.1.head?.all (fun c =>
        !isBlank c && !isNameStart c && !isDigit c && c ≠ '"') = true := by decide
    obtain ⟨c, tail, rfl⟩ := List.exists_cons_of_ne_nil hcs
    have hsign : isBlank c = false ∧ isNameStart c = false ∧ isDigit c = false ∧ c ≠ '"' := by
      simpa [and_assoc] using hsigns _ h
    have hoperator := operator?_of_takes h hr
    have hstring : string? (c :: (tail ++ rest)) = none := by
      rw [string?]
      intro r hr
      exact hsign.2.2.2 (List.cons.inj hr).1
    rw [List.cons_append] at hc hoperator ⊢
    simp [piece?, hsign, hc, hstring, hoperator]

/-- Before a blank a spelling is taken whole. -/
theorem Spells.takes (h : Spells k cs) (hrest : ∀ c ∈ rest.head?, c = ' ') : Takes k cs rest := by
  cases h with
  | word h =>
    refine .word h ?_
    intro c hc
    rw [hrest c hc]
    rfl
  | int h =>
    refine .int h ?_
    intro c hc
    rw [hrest c hc]
    rfl
  | string h => exact .string (closeString_append h rest)
  | operator h =>
    have blanks : ∀ x ∈ Terminal.operators, ' ' ∉ x.1 := by decide
    refine .operator h ?_
    intro x hx hfits
    cases rest with
    | nil => simpa using hfits.length_le
    | cons c rest =>
      obtain rfl : c = ' ' := hrest c rfl
      by_contra hlong
      -- an operator that goes on behind the spelling would hold the blank
      have hblank : cs ++ [' '] <+: x.1 := by
        apply List.prefix_of_prefix_length_le ⟨rest, by simp⟩ hfits
        simp only [List.length_append, List.length_singleton]
        omega
      exact blanks x hx (hblank.subset (by simp))

theorem comment?_of_head (h : cs.head? ≠ some '/') : comment? cs = none := by
  rw [comment?]
  · rintro r rfl
    exact h rfl
  · rintro r rfl
    exact h rfl

/-- Before a blank no spelling opens a comment. -/
theorem Spells.comment?_eq (h : Spells k cs) (hcs : cs ≠ []) (hrest : ∀ c ∈ rest.head?, c = ' ') :
    comment? (cs ++ rest) = none := by
  have hhead {c : Char} {tail : List Char} (hc : cs = c :: tail) (hne : c ≠ '/') :
      comment? (cs ++ rest) = none := comment?_of_head (by simp [hc, hne])
  cases h with
  | word h =>
    obtain ⟨c, tail, hc, hstart, -⟩ := h
    apply hhead hc
    rintro rfl
    cases hstart
  | int h =>
    obtain ⟨c, tail, rfl⟩ := List.exists_cons_of_ne_nil hcs
    apply hhead rfl
    rintro rfl
    cases h '/' List.mem_cons_self
  | string h => exact hhead rfl (by decide)
  | operator h =>
    have slash : ∀ x ∈ Terminal.operators, x.1 = ['/'] ∨ x.1.head? ≠ some '/' := by decide
    rcases slash _ h with hslash | hother
    · obtain rfl : cs = ['/'] := hslash
      cases rest with
      | nil => rfl
      | cons c rest =>
        obtain rfl : c = ' ' := hrest c rfl
        rfl
    · obtain ⟨c, tail, rfl⟩ := List.exists_cons_of_ne_nil hcs
      exact hhead rfl (by simpa using hother)

/-- Before a blank a spelling is read as it stands. -/
theorem Spells.piece?_eq (h : Spells k cs) (hcs : cs ≠ []) (rest : List Char)
    (hrest : ∀ c ∈ rest.head?, c = ' ') :
    piece? (cs ++ rest) = some (.terminal k cs, rest) :=
  (h.takes hrest).piece?_eq hcs (h.comment?_eq hcs hrest)

/-- A blank is passed over. -/
theorem scanAt_of_isBlank (p : Place) (h : isBlank c = true) (cs : List Char) :
    scanAt p (c :: cs) = scanAt (p.step c) cs := by
  rw [scanAt_of_gap (piece?_of_isBlank h cs)]
  cases cs with
  | nil => simp
  | cons d cs =>
    by_cases hd : isBlank d = true
    · rw [scanAt_of_gap (piece?_of_isBlank hd cs)]
      simp [hd, Place.advance]
    · simp [hd, Place.advance]

end

end Lexer

namespace Token

/-- A token as it is written, wherever it stands. -/
def unplaced (x : Token) : Token := { x with line := 0, column := 0 }

theorem kind_unplaced (x : Token) : x.unplaced.kind = x.kind := rfl

/-- Tokens as they are written, with a blank between them. -/
def spaced (ts : List Token) : List Char := [' '].intercalate (ts.map (·.text.toList))

theorem spaced_cons (x : Token) {ts : List Token} (h : ts ≠ []) :
    spaced (x :: ts) = x.text.toList ++ ' ' :: spaced ts := by
  simp [spaced, List.intercalate_cons_of_ne_nil, h]

theorem toList_intercalate (ts : List Token) :
    (" ".intercalate (ts.map (·.text))).toList = spaced ts := by
  simp [spaced, String.toList_intercalate, Function.comp_def]

/-- Spelled tokens with a blank between them are read back. -/
theorem scanAt_spaced {ts : List Token} (h : ∀ x ∈ ts, x.IsSpelled ∧ x.text.toList ≠ [])
    (p : Place) :
    (Lexer.scanAt p (spaced ts)).stop = none ∧
      (Lexer.scanAt p (spaced ts)).tokens.map unplaced = ts.map unplaced := by
  induction ts generalizing p with
  | nil => simp [spaced]
  | cons x ts ih =>
    obtain ⟨⟨k, hk, hspells⟩, hx⟩ := h x List.mem_cons_self
    have hrest := ih fun y hy => h y (List.mem_cons_of_mem x hy)
    have htoken : (Lexer.tokenAt p k x.text.toList).unplaced = x.unplaced := by
      simp [Lexer.tokenAt, unplaced, hk]
    by_cases hts : ts = []
    · subst hts
      have hpiece := hspells.piece?_eq hx [] (by simp)
      rw [List.append_nil] at hpiece
      simp [spaced, Lexer.scanAt_of_terminal hpiece, htoken]
    · have hpiece := hspells.piece?_eq hx (' ' :: spaced ts) (by simp)
      rw [spaced_cons x hts, Lexer.scanAt_of_terminal hpiece, Lexer.scanAt_of_isBlank _ rfl]
      exact ⟨(hrest _).1, by rw [List.map_cons, htoken, (hrest _).2, List.map_cons]⟩

end Token

end Mykt
