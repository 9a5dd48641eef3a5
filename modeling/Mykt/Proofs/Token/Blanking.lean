import Mykt.Proofs.Token.Spacing

/-!
A semicolon that is written over with a blank. Main statements: no other piece of the text changes,
because a piece does not look behind the character that follows it, unless it is a comment, and
neither a semicolon nor a blank ends one; so the text is read as the same tokens, in the same
places, without the semicolon.
-/

namespace Mykt

namespace Lexer

section

variable {k : Terminal} {cs body rest chars before behind : List Char} {p : Place}

theorem closeComment_cons (c : Char) (cs : List Char) (h : ¬ (c = '*' ∧ cs.head? = some '/')) :
    closeComment (c :: cs) = (closeComment cs).map fun x => (c :: x.1, x.2) := by
  rw [closeComment]
  rintro r rfl rfl
  exact h ⟨rfl, rfl⟩

/-- A block comment is closed by its own characters, whatever comes behind it. -/
theorem closeComment_closed (h : closeComment cs = some (body, rest)) (behind : List Char) :
    closeComment (body ++ behind) = some (body, behind) := by
  fun_induction closeComment cs generalizing body rest with
  | case1 r =>
    simp only [Option.some.injEq, Prod.mk.injEq] at h
    rw [← h.1]
    rfl
  | case2 c r hopen ih =>
    obtain ⟨⟨b, s⟩, hb, he⟩ := Option.map_eq_some_iff.1 h
    simp only [Prod.mk.injEq] at he
    obtain ⟨rfl, rfl⟩ := he
    rw [List.cons_append, closeComment_cons, ih hb]
    · rfl
    · rintro ⟨rfl, hslash⟩
      obtain ⟨d, ds, rfl⟩ : ∃ d ds, b = d :: ds := by
        obtain ⟨inner, rfl, -⟩ := exists_body_of_closeComment hb
        exact List.exists_cons_of_ne_nil (by simp)
      obtain rfl : d = '/' := by simpa using hslash
      exact hopen _ rfl (by simpa using closeComment_eq hb)
  | case3 => simp at h

/-- A blank closes comments as little as a semicolon. -/
theorem isSome_closeComment_blank (before behind : List Char) :
    (closeComment (before ++ ' ' :: behind)).isSome =
      (closeComment (before ++ ';' :: behind)).isSome := by
  induction before with
  | nil => simp [closeComment]
  | cons c before ih =>
    by_cases hclose : c = '*' ∧ before.head? = some '/'
    · obtain ⟨rfl, hslash⟩ := hclose
      obtain ⟨before, rfl⟩ := List.head?_eq_some_iff.1 hslash
      rfl
    · rw [List.cons_append, List.cons_append, closeComment_cons, closeComment_cons,
        Option.isSome_map, Option.isSome_map, ih]
      all_goals
        cases before with
        | nil => simp
        | cons d before => simpa using hclose

theorem comment?_of_not_open {c d : Char} (h : ¬ (c = '/' ∧ (d = '/' ∨ d = '*')))
    (cs : List Char) : comment? (c :: d :: cs) = none := by
  rw [comment?]
  · rintro r hr
    simp only [List.cons.injEq] at hr
    exact h ⟨hr.1, .inl hr.2.1⟩
  · rintro r hr
    simp only [List.cons.injEq] at hr
    exact h ⟨hr.1, .inr hr.2.1⟩

/-- A blank opens and closes comments as little as a semicolon. -/
theorem isSome_comment?_blank (before behind : List Char) :
    (comment? (before ++ ' ' :: behind)).isSome = (comment? (before ++ ';' :: behind)).isSome := by
  match before with
  | [] => rfl
  | [c] =>
    rw [List.singleton_append, List.singleton_append, comment?_of_not_open (by simp),
      comment?_of_not_open (by simp)]
  | c :: d :: before =>
    simp only [List.cons_append]
    by_cases hopen : c = '/' ∧ (d = '/' ∨ d = '*')
    · obtain ⟨rfl, rfl | rfl⟩ := hopen
      · rfl
      · simpa [comment?] using isSome_closeComment_blank before behind
    · rw [comment?_of_not_open hopen, comment?_of_not_open hopen]

theorem piece?_of_comment? {x : Piece × List Char} (h : comment? cs = some x) :
    piece? cs = some x := by
  have hslash : cs.head? = some '/' := by
    by_contra hhead
    rw [comment?_of_head hhead] at h
    cases h
  obtain ⟨cs, rfl⟩ := List.head?_eq_some_iff.1 hslash
  have hsign : isBlank '/' = false ∧ isNameStart '/' = false ∧ isDigit '/' = false := by decide
  simp [piece?, hsign, h]

theorem exists_gap_of_comment? {x : Piece × List Char} (h : comment? cs = some x) :
    ∃ chars, x.1 = .gap chars := by
  unfold comment? at h
  split at h
  · cases h
    exact ⟨_, rfl⟩
  · obtain ⟨y, -, rfl⟩ := Option.map_eq_some_iff.1 h
    exact ⟨_, rfl⟩
  · cases h

theorem comment?_eq_none_of_terminal (h : piece? cs = some (.terminal k chars, rest)) :
    comment? cs = none := by
  cases hc : comment? cs with
  | none => rfl
  | some x =>
    obtain ⟨gap, hgap⟩ := exists_gap_of_comment? hc
    rw [piece?_of_comment? hc] at h
    cases h
    cases hgap

/-- A terminal looks no further than the first character behind it. -/
theorem Takes.of_head? (h : Takes k cs rest) (hcs : cs ≠ []) (hr : behind.head? = rest.head?) :
    Takes k cs behind := by
  cases h with
  | word h hrest => exact .word h (hr ▸ hrest)
  | int h hrest => exact .int h (hr ▸ hrest)
  | string h => exact .string (closeString_append h behind)
  | operator h hlongest =>
    have short : ∀ x ∈ Terminal.operators, x.1.length ≤ 2 := by decide
    refine .operator h fun x hx hfits => ?_
    by_contra hlong
    -- an operator that is longer has one more character, and this one comes behind in both texts
    have hlength := short x hx
    have hpos := List.length_pos_iff.2 hcs
    obtain ⟨c, rfl⟩ := List.length_eq_one_iff.1 (show cs.length = 1 by omega)
    rw [List.length_singleton] at hlong
    obtain ⟨a, b, hab⟩ := List.length_eq_two.1 (show x.1.length = 2 by omega)
    rw [hab] at hfits
    obtain ⟨tail, htail⟩ := hfits
    obtain ⟨rfl, rfl⟩ : a = c ∧ b :: tail = behind := by simpa using htail
    obtain ⟨left, rfl⟩ := List.head?_eq_some_iff.1 hr.symm
    exact hlong (hlongest x hx ⟨left, by simp [hab]⟩)

theorem scanAt_blanks (p : Place) (h : ∀ c ∈ chars, isBlank c = true) (rest : List Char) :
    scanAt p (chars ++ rest) = scanAt (p.advance chars) rest := by
  induction chars generalizing p with
  | nil => rfl
  | cons c chars ih =>
    rw [List.forall_mem_cons] at h
    rw [List.cons_append, scanAt_of_isBlank p h.1, ih (p.step c) h.2]
    rfl

/-- A terminal before a semicolon stays when the semicolon is written over. -/
theorem piece?_terminal_blank (h : piece? (chars ++ (before ++ ';' :: behind)) =
      some (.terminal k chars, before ++ ';' :: behind)) :
    piece? (chars ++ (before ++ ' ' :: behind)) =
      some (.terminal k chars, before ++ ' ' :: behind) := by
  have hchars : chars ≠ [] := (piece?_eq h).2
  cases before with
  | nil => exact (spells_of_piece? h).piece?_eq hchars (' ' :: behind) (by simp)
  | cons c before =>
    have htakes : Takes k chars (c :: before ++ ' ' :: behind) :=
      (takes_of_piece? h).of_head? hchars rfl
    apply htakes.piece?_eq hchars
    have hsame := isSome_comment?_blank (chars ++ c :: before) behind
    rw [List.append_assoc, List.append_assoc, comment?_eq_none_of_terminal h] at hsame
    exact Option.isSome_eq_false_iff.1 hsame |> Option.isNone_iff_eq_none.1

/-- A gap before a semicolon stays when the semicolon is written over. -/
theorem scanAt_gap_blank (p : Place) (h : piece? (chars ++ (before ++ ';' :: behind)) =
      some (.gap chars, before ++ ';' :: behind)) :
    scanAt p (chars ++ (before ++ ' ' :: behind)) =
      scanAt (p.advance chars) (before ++ ' ' :: behind) := by
  rcases gap_cases h with hblank | ⟨body, rfl, hbody, hhead⟩ | ⟨body, r, rfl, hclosed⟩
  · exact scanAt_blanks p hblank _
  · -- the comment ends at a line feed, so the semicolon is not the first behind it
    obtain ⟨before, rfl⟩ : ∃ rest, before = '\n' :: rest := by
      cases before with
      | nil => exact absurd (hhead ';' rfl) (by decide)
      | cons c before => exact ⟨before, by rw [hhead c rfl]⟩
    have hline : ∀ c ∈ body, decide (c ≠ '\n') = true := by
      intro c hc
      rw [decide_eq_true_eq]
      rintro rfl
      exact hbody hc
    have hspan := @span_append body ('\n' :: (before ++ ' ' :: behind)) (· ≠ '\n') hline (by simp)
    apply scanAt_of_gap
    apply piece?_of_comment?
    simp only [List.cons_append, comment?] at hspan ⊢
    rw [hspan.1, hspan.2]
  · apply scanAt_of_gap
    apply piece?_of_comment?
    simp [comment?, closeComment_closed hclosed]

/-- Where a text is read to its end, each semicolon among its tokens can be written over with a
blank. -/
theorem exists_blank {xs ys : List Token} {x : Token} (h : (scanAt p cs).stop = none)
    (ht : (scanAt p cs).tokens = xs ++ x :: ys) (hx : x.kind = .terminal .semi) :
    ∃ before behind, cs = before ++ ';' :: behind ∧
      x = tokenAt (p.advance before) .semi [';'] ∧
      scanAt p (before ++ ' ' :: behind) = ⟨xs ++ ys, none⟩ := by
  induction hn : cs.length using Nat.strong_induction_on generalizing p cs xs with
  | _ n ih =>
    subst hn
    cases hp : piece? cs with
    | none =>
      cases cs with
      | nil => simp at ht
      | cons c cs =>
        rw [scanAt_of_none (List.cons_ne_nil c cs) hp] at h
        cases h
    | some found =>
      obtain ⟨piece, rest⟩ := found
      have hshorter := length_lt_of_piece? hp
      cases piece with
      | gap chars =>
        have hcs : cs = chars ++ rest := (piece?_eq hp).1
        rw [scanAt_of_gap hp] at h ht
        obtain ⟨before, behind, rfl, hplace, hscan⟩ := ih _ hshorter h ht rfl
        rw [hcs] at hp
        refine ⟨chars ++ before, behind, by rw [hcs, List.append_assoc], ?_, ?_⟩
        · rw [hplace, Place.advance_append]
        · rw [List.append_assoc, scanAt_gap_blank p hp, hscan]
      | terminal k chars =>
        have hcs : cs = chars ++ rest := (piece?_eq hp).1
        rw [scanAt_of_terminal hp] at h ht
        cases xs with
        | nil =>
          obtain ⟨rfl, rfl⟩ := List.cons.inj ht
          obtain rfl : k = .semi := by simpa [tokenAt] using hx
          obtain rfl : chars = [';'] :=
            (spells_of_piece? hp).eq_operator (x := ([';'], .semi)) (by decide) rfl
          refine ⟨[], rest, hcs, rfl, ?_⟩
          rw [List.nil_append, scanAt_of_isBlank p rfl]
          exact congrArg (Scan.mk _) h
        | cons y xs =>
          obtain ⟨rfl, htail⟩ := List.cons.inj ht
          obtain ⟨before, behind, rfl, hplace, hscan⟩ := ih _ hshorter h htail rfl
          rw [hcs] at hp
          refine ⟨chars ++ before, behind, by rw [hcs, List.append_assoc], ?_, ?_⟩
          · rw [hplace, Place.advance_append]
          · rw [List.append_assoc, scanAt_of_terminal (piece?_terminal_blank hp), hscan]
            rfl

end

end Lexer

end Mykt
