import Mykt.Token.Basic

/-!
Reading a text as terminals and the gaps between them. Main statements: a piece read is not empty,
and the text is the piece followed by what is left; a text is read piece by piece to its end or to
the first character that begins no piece.
-/

namespace Mykt

/-- Where a character stands: characters before it, line feeds before it, and characters since the
last line feed. -/
structure Place where
  offset : Nat
  line : Nat
  column : Nat
  deriving DecidableEq, Repr

namespace Place

def start : Place := ⟨0, 0, 0⟩

def step (p : Place) (c : Char) : Place :=
  if c = '\n' then ⟨p.offset + 1, p.line + 1, 0⟩ else ⟨p.offset + 1, p.line, p.column + 1⟩

def advance (p : Place) (cs : List Char) : Place := cs.foldl step p

theorem advance_append (p : Place) (xs ys : List Char) :
    p.advance (xs ++ ys) = (p.advance xs).advance ys := by
  simp [advance]

theorem offset_advance (p : Place) (cs : List Char) :
    (p.advance cs).offset = p.offset + cs.length := by
  induction cs generalizing p with
  | nil => rfl
  | cons c cs ih =>
    have h : (p.step c).offset = p.offset + 1 := by unfold step; split <;> rfl
    simp only [advance, List.foldl_cons, List.length_cons] at ih ⊢
    rw [ih, h]
    omega

end Place

namespace Lexer

def isBlank (c : Char) : Bool :=
  c = ' ' || c = '\t' || c = '\x0c' || c = '\r' || c = '\n'

def isDigit (c : Char) : Bool := '0' ≤ c && c ≤ '9'

def isNameStart (c : Char) : Bool :=
  ('A' ≤ c && c ≤ 'Z') || ('a' ≤ c && c ≤ 'z') || c = '_'

def isNamePart (c : Char) : Bool := isNameStart c || isDigit c

/-- The rest of a block comment up to its first closing mark, and what follows. -/
def closeComment : List Char → Option (List Char × List Char)
  | '*' :: '/' :: r => some (['*', '/'], r)
  | c :: r => (closeComment r).map fun (body, rest) => (c :: body, rest)
  | [] => none

/-- The rest of a string up to its closing quote, and what follows. A backslash takes the next
character with it, and no line feed stands in a string. -/
def closeString : List Char → Option (List Char × List Char)
  | '"' :: r => some (['"'], r)
  | '\\' :: c :: r =>
    if c = '\n' then none
    else (closeString r).map fun (body, rest) => ('\\' :: c :: body, rest)
  | c :: r =>
    if c = '\\' || c = '\n' then none
    else (closeString r).map fun (body, rest) => (c :: body, rest)
  | [] => none

/-- What follows a spelling at the head of a text. -/
def after? : List Char → List Char → Option (List Char)
  | [], cs => some cs
  | s :: spelling, c :: cs => if s = c then after? spelling cs else none
  | _ :: _, [] => none

def wordTerminal (word : List Char) : Terminal := (Terminal.keywords.lookup word).getD .name

/-- A run of blanks, a comment, or a terminal. -/
inductive Piece where
  | gap (chars : List Char)
  | terminal (t : Terminal) (chars : List Char)
  deriving DecidableEq, Repr

def Piece.chars : Piece → List Char
  | gap cs => cs
  | terminal _ cs => cs

def comment? : List Char → Option (Piece × List Char)
  | '/' :: '/' :: r => some (.gap ('/' :: '/' :: r.takeWhile (· ≠ '\n')), r.dropWhile (· ≠ '\n'))
  | '/' :: '*' :: r => (closeComment r).map fun (body, rest) => (.gap ('/' :: '*' :: body), rest)
  | _ => none

def string? : List Char → Option (Piece × List Char)
  | '"' :: r => (closeString r).map fun (body, rest) => (.terminal .string ('"' :: body), rest)
  | _ => none

def operator? (cs : List Char) : Option (Piece × List Char) :=
  Terminal.operators.findSome? fun (spelling, t) =>
    (after? spelling cs).map fun rest => (.terminal t spelling, rest)

/-- The piece at the head of a text, and what is left. -/
def piece? : List Char → Option (Piece × List Char)
  | [] => none
  | c :: cs =>
    if isBlank c then
      some (.gap (c :: cs.takeWhile isBlank), cs.dropWhile isBlank)
    else if isNameStart c then
      let word := c :: cs.takeWhile isNamePart
      some (.terminal (wordTerminal word) word, cs.dropWhile isNamePart)
    else if isDigit c then
      some (.terminal .int (c :: cs.takeWhile isDigit), cs.dropWhile isDigit)
    else
      (comment? (c :: cs)).or ((string? (c :: cs)).or (operator? (c :: cs)))

theorem closeComment_eq {cs body rest : List Char} (h : closeComment cs = some (body, rest)) :
    cs = body ++ rest := by
  fun_induction closeComment cs generalizing body rest with
  | case1 r =>
    simp only [Option.some.injEq, Prod.mk.injEq] at h
    simp [← h.1, h.2]
  | case2 c r _ ih =>
    obtain ⟨⟨b, s⟩, hb, he⟩ := Option.map_eq_some_iff.1 h
    simp only [Prod.mk.injEq] at he
    obtain ⟨rfl, rfl⟩ := he
    simp [ih hb]
  | case3 => simp at h

theorem closeString_eq {cs body rest : List Char} (h : closeString cs = some (body, rest)) :
    cs = body ++ rest := by
  fun_induction closeString cs generalizing body rest with
  | case1 r =>
    simp only [Option.some.injEq, Prod.mk.injEq] at h
    simp [← h.1, h.2]
  | case2 => simp at h
  | case3 c r _ ih =>
    obtain ⟨⟨b, s⟩, hb, he⟩ := Option.map_eq_some_iff.1 h
    simp only [Prod.mk.injEq] at he
    obtain ⟨rfl, rfl⟩ := he
    simp [ih hb]
  | case4 => simp at h
  | case5 c r _ _ _ ih =>
    obtain ⟨⟨b, s⟩, hb, he⟩ := Option.map_eq_some_iff.1 h
    simp only [Prod.mk.injEq] at he
    obtain ⟨rfl, rfl⟩ := he
    simp [ih hb]
  | case6 => simp at h

theorem spelling_ne_nil {spelling : List Char} {t : Terminal}
    (h : (spelling, t) ∈ Terminal.operators) : spelling ≠ [] := by
  revert h
  simp [Terminal.operators]
  grind

theorem after?_eq {spelling cs rest : List Char} (h : after? spelling cs = some rest) :
    cs = spelling ++ rest := by
  fun_induction after? spelling cs with
  | case1 cs => simp_all
  | case2 spelling c cs ih => simp [ih h]
  | case3 => simp at h
  | case4 => simp at h

theorem operator?_eq {cs rest : List Char} {p : Piece} (h : operator? cs = some (p, rest)) :
    cs = p.chars ++ rest ∧ p.chars ≠ [] := by
  obtain ⟨⟨spelling, t⟩, hm, ho⟩ := List.exists_of_findSome?_eq_some h
  obtain ⟨s, hs, he⟩ := Option.map_eq_some_iff.1 ho
  simp only [Prod.mk.injEq] at he
  obtain ⟨rfl, rfl⟩ := he
  exact ⟨after?_eq hs, spelling_ne_nil hm⟩

theorem comment?_eq {cs rest : List Char} {p : Piece} (h : comment? cs = some (p, rest)) :
    cs = p.chars ++ rest ∧ p.chars ≠ [] := by
  unfold comment? at h
  split at h
  · simp only [Option.some.injEq, Prod.mk.injEq] at h
    obtain ⟨rfl, rfl⟩ := h
    simp [Piece.chars]
  · obtain ⟨⟨b, s⟩, hb, he⟩ := Option.map_eq_some_iff.1 h
    simp only [Prod.mk.injEq] at he
    obtain ⟨rfl, rfl⟩ := he
    simp [Piece.chars, closeComment_eq hb]
  · simp at h

theorem string?_eq {cs rest : List Char} {p : Piece} (h : string? cs = some (p, rest)) :
    cs = p.chars ++ rest ∧ p.chars ≠ [] := by
  unfold string? at h
  split at h
  · obtain ⟨⟨b, s⟩, hb, he⟩ := Option.map_eq_some_iff.1 h
    simp only [Prod.mk.injEq] at he
    obtain ⟨rfl, rfl⟩ := he
    simp [Piece.chars, closeString_eq hb]
  · simp at h

theorem piece?_eq {cs rest : List Char} {p : Piece} (h : piece? cs = some (p, rest)) :
    cs = p.chars ++ rest ∧ p.chars ≠ [] := by
  unfold piece? at h
  split at h
  · simp at h
  · split at h
    · simp only [Option.some.injEq, Prod.mk.injEq] at h
      obtain ⟨rfl, rfl⟩ := h
      simp [Piece.chars]
    split at h
    · simp only [Option.some.injEq, Prod.mk.injEq] at h
      obtain ⟨rfl, rfl⟩ := h
      simp [Piece.chars]
    split at h
    · simp only [Option.some.injEq, Prod.mk.injEq] at h
      obtain ⟨rfl, rfl⟩ := h
      simp [Piece.chars]
    simp only [Option.or_eq_some_iff] at h
    rcases h with h | ⟨_, h | ⟨_, h⟩⟩
    · exact comment?_eq h
    · exact string?_eq h
    · exact operator?_eq h

theorem length_lt_of_piece? {cs rest : List Char} {p : Piece} (h : piece? cs = some (p, rest)) :
    rest.length < cs.length := by
  obtain ⟨rfl, hp⟩ := piece?_eq h
  have := List.length_pos_iff.2 hp
  simp only [List.length_append]
  omega

theorem ne_nil_of_piece? {cs : List Char} {x : Piece × List Char} (h : piece? cs = some x) :
    cs ≠ [] := by
  rintro rfl
  simp [piece?] at h

/-- Terminals of a text in order, and the place of the first character that begins no piece. -/
structure Scan where
  tokens : List Token
  stop : Option Place
  deriving DecidableEq, Repr

def tokenAt (p : Place) (t : Terminal) (chars : List Char) : Token :=
  ⟨.terminal t, String.ofList chars, p.line + 1, p.column⟩

/-- Reads at most `n` pieces. -/
@[grind =] def scanFrom : Nat → Place → List Char → Scan
  | _, _, [] => ⟨[], none⟩
  | 0, p, _ :: _ => ⟨[], some p⟩
  | n + 1, p, c :: cs =>
    match piece? (c :: cs) with
    | none => ⟨[], some p⟩
    | some (.gap chars, rest) => scanFrom n (p.advance chars) rest
    | some (.terminal t chars, rest) =>
      let s := scanFrom n (p.advance chars) rest
      ⟨tokenAt p t chars :: s.tokens, s.stop⟩

/-- Reads a text that begins at a place. A text has no more pieces than characters. -/
def scanAt (p : Place) (cs : List Char) : Scan := scanFrom cs.length p cs

def scan (cs : List Char) : Scan := scanAt .start cs

theorem scanFrom_eq_scanAt {n : Nat} {p : Place} {cs : List Char} (h : cs.length ≤ n) :
    scanFrom n p cs = scanAt p cs := by
  have key (k : Nat) : ∀ n m p cs, List.length cs ≤ k → cs.length ≤ n → cs.length ≤ m →
      scanFrom n p cs = scanFrom m p cs := by
    induction k with
    | zero =>
      intro n m p cs hk hn hm
      obtain rfl : cs = [] := List.length_eq_zero_iff.1 (by omega)
      simp [scanFrom]
    | succ k ih =>
      intro n m p cs hk hn hm
      cases cs with
      | nil => simp [scanFrom]
      | cons c cs =>
        obtain ⟨n, rfl⟩ : ∃ n', n = n' + 1 := ⟨n - 1, by simp at hn; omega⟩
        obtain ⟨m, rfl⟩ : ∃ m', m = m' + 1 := ⟨m - 1, by simp at hm; omega⟩
        simp only [scanFrom]
        split
        · rfl
        · next chars rest hp =>
          have := length_lt_of_piece? hp
          exact ih n m _ rest (by omega) (by omega) (by omega)
        · next t chars rest hp =>
          have := length_lt_of_piece? hp
          rw [ih n m _ rest (by omega) (by omega) (by omega)]
  exact key cs.length n cs.length p cs (Nat.le_refl _) h (Nat.le_refl _)

@[simp] theorem scanAt_nil (p : Place) : scanAt p [] = ⟨[], none⟩ := by
  simp [scanAt, scanFrom]

theorem scanAt_of_none {p : Place} {cs : List Char} (hc : cs ≠ []) (h : piece? cs = none) :
    scanAt p cs = ⟨[], some p⟩ := by
  obtain ⟨c, cs, rfl⟩ := List.exists_cons_of_ne_nil hc
  simp [scanAt, scanFrom, h]

theorem scanAt_of_gap {p : Place} {cs rest chars : List Char}
    (h : piece? cs = some (.gap chars, rest)) : scanAt p cs = scanAt (p.advance chars) rest := by
  have hl := length_lt_of_piece? h
  obtain ⟨c, cs, rfl⟩ := List.exists_cons_of_ne_nil (ne_nil_of_piece? h)
  simp only [scanAt, List.length_cons, scanFrom, h]
  exact scanFrom_eq_scanAt (by simp at hl; omega)

theorem scanAt_of_terminal {p : Place} {cs rest chars : List Char} {t : Terminal}
    (h : piece? cs = some (.terminal t chars, rest)) :
    scanAt p cs = ⟨tokenAt p t chars :: (scanAt (p.advance chars) rest).tokens,
      (scanAt (p.advance chars) rest).stop⟩ := by
  have hl := length_lt_of_piece? h
  obtain ⟨c, cs, rfl⟩ := List.exists_cons_of_ne_nil (ne_nil_of_piece? h)
  simp only [scanAt, List.length_cons, scanFrom, h]
  rw [scanFrom_eq_scanAt (by simp at hl; omega)]
  rfl

end Lexer

end Mykt
