import Mathlib.Data.List.TakeWhile
import Mykt.Token.Lexer

/-!
What is taken from the head of a text, with what is left behind it. Main statements: a piece read is
a text of its terminal, taken as far as a word, a number or an operator goes; a gap is blanks and
comments; no terminal runs over a line end; a word is a keyword exactly if it is written like one.
-/

namespace Mykt

namespace Terminal

/-- Names and keywords. -/
def isWord (k : Terminal) : Bool := k = name || keywords.any (·.2 = k)

end Terminal

namespace Lexer

/-- A letter or an underscore, then letters, underscores and digits. -/
def IsIdentifier (cs : List Char) : Prop :=
  ∃ c rest, cs = c :: rest ∧ isNameStart c = true ∧ ∀ x ∈ rest, isNamePart x = true

theorem toNat_lt_of_isNamePart {c : Char} (h : isNamePart c = true) : c.toNat < 128 := by
  simp only [isNamePart, isNameStart, isDigit, Bool.or_eq_true, Bool.and_eq_true,
    decide_eq_true_eq] at h
  rcases h with ((⟨-, hz⟩ | ⟨-, hz⟩) | rfl) | ⟨-, hz⟩
  · exact Nat.lt_of_le_of_lt (Char.le_def.1 hz) (by decide)
  · exact Nat.lt_of_le_of_lt (Char.le_def.1 hz) (by decide)
  · decide
  · exact Nat.lt_of_le_of_lt (Char.le_def.1 hz) (by decide)

theorem isNamePart_of_isIdentifier {cs : List Char} (h : IsIdentifier cs) {x : Char}
    (hx : x ∈ cs) : isNamePart x = true := by
  obtain ⟨c, rest, rfl, hc, hrest⟩ := h
  rcases List.mem_cons.1 hx with rfl | hx
  · simp [isNamePart, hc]
  · exact hrest x hx

theorem isIdentifier_word {c : Char} (cs : List Char) (h : isNameStart c = true) :
    IsIdentifier (c :: cs.takeWhile isNamePart) := by
  refine ⟨c, _, rfl, h, ?_⟩
  intro x hx
  exact List.mem_takeWhile_imp hx

theorem newline_notMem_of_isIdentifier {cs : List Char} (h : IsIdentifier cs) : '\n' ∉ cs := by
  intro hx
  have := isNamePart_of_isIdentifier h hx
  revert this
  decide

theorem newline_notMem_of_closeString {cs body rest : List Char}
    (h : closeString cs = some (body, rest)) : '\n' ∉ body := by
  fun_induction closeString cs generalizing body rest with
  | case1 r =>
    simp only [Option.some.injEq, Prod.mk.injEq] at h
    simp [← h.1]
  | case2 => simp at h
  | case3 c r hc ih =>
    obtain ⟨⟨b, s⟩, hb, he⟩ := Option.map_eq_some_iff.1 h
    simp only [Prod.mk.injEq] at he
    simp [← he.1, ih hb, Ne.symm hc]
  | case4 => simp at h
  | case5 c r _ _ hc ih =>
    obtain ⟨⟨b, s⟩, hb, he⟩ := Option.map_eq_some_iff.1 h
    simp only [Prod.mk.injEq] at he
    have hc : c ≠ '\n' := by simp_all
    simp [← he.1, ih hb, Ne.symm hc]
  | case6 => simp at h

/-- The texts of a terminal. -/
inductive Spells : Terminal → List Char → Prop where
  | word {cs : List Char} (h : IsIdentifier cs) : Spells (wordTerminal cs) cs
  | int {cs : List Char} (h : ∀ x ∈ cs, isDigit x = true) : Spells .int cs
  | string {cs body rest : List Char} (h : closeString cs = some (body, rest)) :
      Spells .string ('"' :: body)
  | operator {cs : List Char} {k : Terminal} (h : (cs, k) ∈ Terminal.operators) : Spells k cs

/-- A terminal at the head of a text, before what is left. -/
inductive Takes : Terminal → List Char → List Char → Prop where
  | word {cs rest : List Char} (h : IsIdentifier cs)
      (hr : ∀ c ∈ rest.head?, isNamePart c = false) : Takes (wordTerminal cs) cs rest
  | int {cs rest : List Char} (h : ∀ x ∈ cs, isDigit x = true)
      (hr : ∀ c ∈ rest.head?, isDigit c = false) : Takes .int cs rest
  | string {cs body rest : List Char} (h : closeString cs = some (body, rest)) :
      Takes .string ('"' :: body) rest
  | operator {k : Terminal} {cs rest : List Char} (h : (cs, k) ∈ Terminal.operators)
      (hr : ∀ x ∈ Terminal.operators, x.1 <+: cs ++ rest → x.1.length ≤ cs.length) :
      Takes k cs rest

/-- What stands between tokens, before the text that follows it: blanks, comments up to the end of
their line, and comments up to their first closing mark. -/
inductive IsGap : List Char → List Char → Prop where
  | nil {rest : List Char} : IsGap [] rest
  | blank {c : Char} {cs rest : List Char} (hc : c ∈ [' ', '\t', '\x0c', '\r', '\n'])
      (h : IsGap cs rest) : IsGap (c :: cs) rest
  | line {body cs rest : List Char} (hb : '\n' ∉ body)
      (hr : ∀ c ∈ (cs ++ rest).head?, c = '\n') (h : IsGap cs rest) :
      IsGap ('/' :: '/' :: (body ++ cs)) rest
  | block {body cs rest : List Char} (hb : ¬ ['*', '/'] <:+: body ++ ['*']) (h : IsGap cs rest) :
      IsGap ('/' :: '*' :: (body ++ '*' :: '/' :: cs)) rest

theorem head?_dropWhile_eq_false (p : Char → Bool) (cs : List Char) :
    ∀ c ∈ (cs.dropWhile p).head?, p c = false := by
  intro c hc
  have h := List.head?_dropWhile_not p cs
  rw [Option.mem_def.1 hc] at h
  exact h

theorem after?_append (spelling rest : List Char) :
    after? spelling (spelling ++ rest) = some rest := by
  induction spelling with
  | nil => rfl
  | cons c spelling ih => simpa [after?] using ih

/-- Longer operators are tried first, so the longest is taken. -/
theorem operator?_longest {cs rest chars : List Char} {k : Terminal}
    (h : operator? cs = some (.terminal k chars, rest)) :
    (chars, k) ∈ Terminal.operators ∧
      ∀ x ∈ Terminal.operators, x.1 <+: cs → x.1.length ≤ chars.length := by
  have sorted : Terminal.operators.Pairwise fun x y => y.1.length ≤ x.1.length := by decide
  obtain ⟨before, ⟨spelling, t⟩, behind, hl, ho, hnone⟩ := List.findSome?_eq_some_iff.1 h
  obtain ⟨s, hs, he⟩ := Option.map_eq_some_iff.1 ho
  simp only [Prod.mk.injEq, Piece.terminal.injEq] at he
  obtain ⟨⟨rfl, rfl⟩, rfl⟩ := he
  rw [hl] at sorted ⊢
  refine ⟨by simp, ?_⟩
  intro x hx hfits
  rcases List.mem_append.1 hx with hx | hx
  · -- an operator that is tried before and fits would have been taken
    obtain ⟨left, rfl⟩ := hfits
    have hskipped := hnone x hx
    simp [after?_append] at hskipped
  · rcases List.mem_cons.1 hx with rfl | hx
    · exact Nat.le_refl _
    · have htail := (List.pairwise_append.1 sorted).2.1
      exact (List.pairwise_cons.1 htail).1 x hx

theorem takes_of_piece? {cs rest chars : List Char} {k : Terminal}
    (h : piece? cs = some (.terminal k chars, rest)) : Takes k chars rest := by
  have hcs : cs = chars ++ rest := (piece?_eq h).1
  unfold piece? at h
  split at h
  · simp at h
  · next c cs =>
    split at h
    · simp at h
    split at h
    · next hc =>
      simp only [Option.some.injEq, Prod.mk.injEq, Piece.terminal.injEq] at h
      obtain ⟨⟨rfl, rfl⟩, rfl⟩ := h
      exact .word (isIdentifier_word cs hc) (head?_dropWhile_eq_false _ cs)
    split at h
    · next hc =>
      simp only [Option.some.injEq, Prod.mk.injEq, Piece.terminal.injEq] at h
      obtain ⟨⟨rfl, rfl⟩, rfl⟩ := h
      refine .int ?_ (head?_dropWhile_eq_false _ cs)
      intro x hx
      rcases List.mem_cons.1 hx with rfl | hx
      · exact hc
      · exact List.mem_takeWhile_imp hx
    simp only [Option.or_eq_some_iff] at h
    rcases h with h | ⟨_, h | ⟨_, h⟩⟩
    · unfold comment? at h
      split at h <;> simp at h
    · unfold string? at h
      split at h
      · obtain ⟨⟨b, s⟩, hb, he⟩ := Option.map_eq_some_iff.1 h
        simp only [Prod.mk.injEq, Piece.terminal.injEq] at he
        obtain ⟨⟨rfl, rfl⟩, rfl⟩ := he
        exact .string hb
      · simp at h
    · rw [hcs] at h
      obtain ⟨hm, hlongest⟩ := operator?_longest h
      exact .operator hm hlongest

theorem Takes.spells {k : Terminal} {cs rest : List Char} (h : Takes k cs rest) : Spells k cs := by
  cases h with
  | word h => exact .word h
  | int h => exact .int h
  | string h => exact .string h
  | operator h => exact .operator h

theorem spells_of_piece? {cs rest chars : List Char} {t : Terminal}
    (h : piece? cs = some (.terminal t chars, rest)) : Spells t chars :=
  (takes_of_piece? h).spells

/-- No terminal runs over a line end. -/
theorem Spells.newline_notMem {k : Terminal} {cs : List Char} (h : Spells k cs) : '\n' ∉ cs := by
  cases h with
  | word h => exact newline_notMem_of_isIdentifier h
  | int h =>
    intro hn
    exact absurd (h _ hn) (by decide)
  | string h => simp [newline_notMem_of_closeString h]
  | operator h =>
    have all : ∀ x ∈ Terminal.operators, '\n' ∉ x.1 := by decide
    exact all _ h

theorem Spells.isIdentifier {cs : List Char} (h : Spells .name cs) : IsIdentifier cs := by
  generalize hk : Terminal.name = k at h
  cases h with
  | word h => exact h
  | int | string => cases hk
  | operator h =>
    have all : ∀ x ∈ Terminal.operators, Terminal.name ≠ x.2 := by decide
    exact absurd hk (all _ h)

theorem isWord_wordTerminal (cs : List Char) : (wordTerminal cs).isWord = true := by
  unfold wordTerminal
  cases hl : Terminal.keywords.lookup cs with
  | none => rfl
  | some k =>
    obtain ⟨l₁, l₂, hkeys, -⟩ := List.lookup_eq_some_iff.1 hl
    have all : ∀ x ∈ Terminal.keywords, x.2.isWord = true := by decide
    exact all (cs, k) (by simp [hkeys])

/-- An operator is written in one way. -/
theorem Spells.eq_operator {k : Terminal} {cs : List Char} (h : Spells k cs)
    {x : List Char × Terminal} (hx : x ∈ Terminal.operators) (hk : k = x.2) : cs = x.1 := by
  have signs : ∀ x ∈ Terminal.operators, x.2.isWord = false ∧ x.2 ≠ .int ∧ x.2 ≠ .string := by
    decide
  have distinct : ∀ x ∈ Terminal.operators, ∀ y ∈ Terminal.operators, x.2 = y.2 → x.1 = y.1 := by
    decide
  obtain ⟨hword, hint, hstring⟩ := signs x hx
  cases h with
  | word =>
    rw [← hk, isWord_wordTerminal] at hword
    cases hword
  | int => exact absurd hk.symm hint
  | string => exact absurd hk.symm hstring
  | operator h => exact distinct _ h x hx hk

/-- A comment is closed at its first closing mark. -/
theorem exists_body_of_closeComment {cs closed rest : List Char}
    (h : closeComment cs = some (closed, rest)) :
    ∃ body, closed = body ++ ['*', '/'] ∧ ¬ ['*', '/'] <:+: body ++ ['*'] := by
  fun_induction closeComment cs generalizing closed rest with
  | case1 r =>
    simp only [Option.some.injEq, Prod.mk.injEq] at h
    exact ⟨[], by simp [← h.1], by decide⟩
  | case2 c r hopen ih =>
    obtain ⟨⟨b, s⟩, hb, he⟩ := Option.map_eq_some_iff.1 h
    simp only [Prod.mk.injEq] at he
    obtain ⟨rfl, rfl⟩ := he
    obtain ⟨body, rfl, hbody⟩ := ih hb
    refine ⟨c :: body, rfl, ?_⟩
    rw [List.cons_append, List.infix_cons_iff]
    rintro (hopens | hlater)
    · -- a mark here would have been the first
      have hr := closeComment_eq hb
      cases body with
      | nil => simp at hopens
      | cons d body =>
        simp only [List.cons_append, List.cons_prefix_cons] at hopens
        obtain ⟨rfl, rfl, -⟩ := hopens
        exact hopen _ rfl (by simpa using hr)
    · exact hbody hlater
  | case3 => simp at h

theorem isGap_blanks {cs after rest : List Char} (hb : ∀ c ∈ cs, isBlank c = true)
    (h : IsGap after rest) : IsGap (cs ++ after) rest := by
  induction cs with
  | nil => exact h
  | cons c cs ih =>
    simp only [List.mem_cons, forall_eq_or_imp] at hb
    have hc : c ∈ [' ', '\t', '\x0c', '\r', '\n'] := by simpa [isBlank, or_assoc] using hb.1
    exact .blank hc (ih hb.2)

/-- A gap that is read is blanks, a comment up to the end of its line, or one up to its closing
mark. -/
theorem gap_cases {cs rest chars : List Char} (h : piece? cs = some (.gap chars, rest)) :
    (∀ c ∈ chars, isBlank c = true) ∨
      (∃ body, chars = '/' :: '/' :: body ∧ '\n' ∉ body ∧ ∀ c ∈ rest.head?, c = '\n') ∨
      ∃ body r, chars = '/' :: '*' :: body ∧ closeComment r = some (body, rest) := by
  unfold piece? at h
  split at h
  · simp at h
  · next c cs =>
    split at h
    · next hc =>
      simp only [Option.some.injEq, Prod.mk.injEq, Piece.gap.injEq] at h
      obtain ⟨rfl, -⟩ := h
      refine .inl ?_
      intro x hx
      rcases List.mem_cons.1 hx with rfl | hx
      · exact hc
      · exact List.mem_takeWhile_imp hx
    split at h
    · simp at h
    split at h
    · simp at h
    simp only [Option.or_eq_some_iff] at h
    rcases h with h | ⟨_, h | ⟨_, h⟩⟩
    · unfold comment? at h
      split at h
      · simp only [Option.some.injEq, Prod.mk.injEq, Piece.gap.injEq] at h
        obtain ⟨rfl, rfl⟩ := h
        refine .inr (.inl ⟨_, rfl, ?_, ?_⟩)
        · intro hn
          simpa using List.mem_takeWhile_imp hn
        · intro c hc
          simpa using head?_dropWhile_eq_false _ _ c hc
      · obtain ⟨⟨b, s⟩, hb, he⟩ := Option.map_eq_some_iff.1 h
        simp only [Prod.mk.injEq, Piece.gap.injEq] at he
        obtain ⟨rfl, rfl⟩ := he
        exact .inr (.inr ⟨b, _, rfl, hb⟩)
      · simp at h
    · unfold string? at h
      split at h
      · obtain ⟨x, -, he⟩ := Option.map_eq_some_iff.1 h
        simp at he
      · simp at h
    · obtain ⟨x, -, ho⟩ := List.exists_of_findSome?_eq_some h
      obtain ⟨s, -, he⟩ := Option.map_eq_some_iff.1 ho
      simp at he

/-- A gap that is read, and the gap behind it. -/
theorem isGap_of_piece? {cs left chars gap rest : List Char}
    (h : piece? cs = some (.gap chars, left)) (hleft : left = gap ++ rest) (hg : IsGap gap rest) :
    IsGap (chars ++ gap) rest := by
  subst hleft
  rcases gap_cases h with hblank | ⟨body, rfl, hbody, hhead⟩ | ⟨closed, r, rfl, hclosed⟩
  · exact isGap_blanks hblank hg
  · exact .line hbody hhead hg
  · obtain ⟨body, rfl, hbody⟩ := exists_body_of_closeComment hclosed
    simpa using IsGap.block hbody hg

namespace Takes

variable {k : Terminal} {cs rest : List Char}

/-- A word goes as far as it can. -/
theorem word_maximal (h : Takes k cs rest) (hk : k.isWord = true) :
    ∀ c ∈ rest.head?, isNamePart c = false := by
  have operators : ∀ x ∈ Terminal.operators, x.2.isWord = false := by decide
  cases h with
  | word _ hr => exact hr
  | int | string => cases hk
  | operator h => exact absurd hk (by simp [operators _ h])

/-- A number goes as far as it can. -/
theorem int_maximal (h : Takes k cs rest) (hk : k = .int) :
    ∀ c ∈ rest.head?, isDigit c = false := by
  have operators : ∀ x ∈ Terminal.operators, x.2 ≠ .int := by decide
  cases h with
  | word =>
    have hword := isWord_wordTerminal cs
    rw [hk] at hword
    cases hword
  | int _ hr => exact hr
  | string => cases hk
  | operator h => exact absurd hk (operators _ h)

/-- Behind a sign that an equals sign would lengthen stands none. -/
theorem head?_ne_equal (h : Takes k cs rest) {c : Char} (hc : c ∈ ['=', '!', '<', '>'])
    (hcs : cs = [c]) : rest.head? ≠ some '=' := by
  subst hcs
  have others : ∀ c ∈ ['=', '!', '<', '>'], isNamePart c = false ∧ isDigit c = false ∧ c ≠ '"' := by
    simp only [List.forall_mem_cons, List.not_mem_nil, false_implies, implies_true]
    decide
  have longer : ∀ c ∈ ['=', '!', '<', '>'], ∃ x ∈ Terminal.operators, x.1 = [c, '='] := by
    simp only [List.forall_mem_cons, List.not_mem_nil, false_implies, implies_true]
    decide
  obtain ⟨hname, hdigit, hquote⟩ := others c hc
  cases h with
  | word h => simp [isNamePart_of_isIdentifier h (List.mem_singleton_self c)] at hname
  | int h => simp [h c (List.mem_singleton_self c)] at hdigit
  | string => exact absurd rfl hquote
  | operator _ hr =>
    intro he
    obtain ⟨x, hx, hlong⟩ := longer c hc
    obtain ⟨tail, rfl⟩ := List.head?_eq_some_iff.1 he
    have hlength := hr x hx (by rw [hlong]; exact ⟨tail, rfl⟩)
    simp [hlong] at hlength

end Takes

/-- A terminal is a keyword exactly if it is written like one. -/
theorem Spells.keyword_iff {k : Terminal} {cs : List Char} (h : Spells k cs)
    {w : List Char × Terminal} (hw : w ∈ Terminal.keywords) : k = w.2 ↔ cs = w.1 := by
  have named : ∀ w ∈ Terminal.keywords, w.2 ≠ .name ∧ w.2 ≠ .int ∧ w.2 ≠ .string := by decide
  have written : ∀ w ∈ Terminal.keywords, wordTerminal w.1 = w.2 ∧ '"' ∉ w.1 ∧
      w.1.all isDigit = false := by
    decide
  have distinct : ∀ v ∈ Terminal.keywords, ∀ w ∈ Terminal.keywords, v.2 = w.2 → v.1 = w.1 := by
    decide
  have apart : ∀ x ∈ Terminal.operators, ∀ w ∈ Terminal.keywords, x.2 ≠ w.2 ∧ x.1 ≠ w.1 := by
    decide
  obtain ⟨hname, hint, hstring⟩ := named w hw
  obtain ⟨hterminal, hquote, hdigit⟩ := written w hw
  cases h with
  | word =>
    constructor
    · intro hk
      unfold wordTerminal at hk
      cases hl : Terminal.keywords.lookup cs with
      | none => exact absurd (by simpa [hl] using hk.symm) hname
      | some k =>
        obtain ⟨l₁, l₂, hkeys, -⟩ := List.lookup_eq_some_iff.1 hl
        have hsame : k = w.2 := by simpa [hl] using hk
        exact distinct (cs, k) (by simp [hkeys]) w hw hsame
    · intro hcs
      rw [hcs, hterminal]
  | int h =>
    refine iff_of_false (Ne.symm hint) ?_
    intro hcs
    rw [← hcs, List.all_eq_true.2 h] at hdigit
    cases hdigit
  | string =>
    refine iff_of_false (Ne.symm hstring) ?_
    intro hcs
    exact hquote (by simp [← hcs])
  | operator h =>
    obtain ⟨hkinds, hspellings⟩ := apart _ h w hw
    exact iff_of_false hkinds hspellings

end Lexer

end Mykt
