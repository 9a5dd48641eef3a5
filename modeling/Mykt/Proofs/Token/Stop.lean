import Mykt.Proofs.Token.Placement

/-!
Where the pieces of a text end. Main statements: a place at which nothing is read is a place at
which no terminal, no blank and no comment begins; a scan that stops has read the text before that
place.
-/

namespace Mykt

namespace Lexer

section

variable {cs body rest : List Char}

/-- A string is closed by its own characters, whatever comes behind it. -/
theorem closeString_append (h : closeString cs = some (body, rest)) (behind : List Char) :
    closeString (body ++ behind) = some (body, behind) := by
  fun_induction closeString cs generalizing body rest with
  | case1 r =>
    simp only [Option.some.injEq, Prod.mk.injEq] at h
    rw [← h.1]
    rfl
  | case2 => simp at h
  | case3 c r hc ih =>
    obtain ⟨⟨b, s⟩, hb, he⟩ := Option.map_eq_some_iff.1 h
    simp only [Prod.mk.injEq] at he
    obtain ⟨rfl, rfl⟩ := he
    simp [closeString, hc, ih hb]
  | case4 => simp at h
  | case5 c r hquote hslash hc ih =>
    obtain ⟨⟨b, s⟩, hb, he⟩ := Option.map_eq_some_iff.1 h
    simp only [Prod.mk.injEq] at he
    obtain ⟨rfl, rfl⟩ := he
    simp_all [closeString]
  | case6 => simp at h

theorem closeComment_append (body rest : List Char) :
    (closeComment (body ++ '*' :: '/' :: rest)).isSome = true := by
  induction body with
  | nil => rfl
  | cons c body ih =>
    rw [List.cons_append, closeComment.eq_def]
    split
    · rfl
    · simp_all
    · simp_all

end

theorem isSome_piece?_cons (c : Char) (cs : List Char) :
    (piece? (c :: cs)).isSome = (isBlank c || isNameStart c || isDigit c ||
      (comment? (c :: cs)).isSome || (string? (c :: cs)).isSome ||
      (operator? (c :: cs)).isSome) := by
  rw [piece?]
  split
  · next h => simp [h]
  split
  · next h => simp [h]
  split
  · next h => simp [h]
  · simp_all [Option.isSome_or, Bool.or_assoc]

/-- Where a terminal is written, a piece is read. -/
theorem Spells.isSome_piece? {k : Terminal} {cs : List Char} (h : Spells k cs) (hcs : cs ≠ [])
    (rest : List Char) : (piece? (cs ++ rest)).isSome = true := by
  obtain ⟨c, tail, hcons⟩ := List.exists_cons_of_ne_nil hcs
  rw [hcons, List.cons_append, isSome_piece?_cons]
  cases h with
  | word h =>
    obtain ⟨d, others, hd, hstart, -⟩ := h
    obtain ⟨rfl, -⟩ := List.cons.inj (hcons.symm.trans hd)
    simp [hstart]
  | int h =>
    have hdigit : isDigit c = true := h c (by simp [hcons])
    simp [hdigit]
  | string h =>
    have hstring : (string? (c :: (tail ++ rest))).isSome = true := by
      rw [← (List.cons.inj hcons).1, ← (List.cons.inj hcons).2]
      simp [string?, closeString_append h rest]
    simp [hstring]
  | operator h =>
    have hoperator : (operator? (c :: (tail ++ rest))).isSome = true := by
      rw [operator?, List.findSome?_isSome_iff]
      refine ⟨_, h, ?_⟩
      simp only [hcons, ← List.cons_append, after?_append, Option.map_some, Option.isSome_some]
    simp [hoperator]

/-- Where a gap is written, a piece is read. -/
theorem IsGap.isSome_piece? {cs rest : List Char} (h : IsGap cs rest) (hcs : cs ≠ []) :
    (piece? (cs ++ rest)).isSome = true := by
  cases h with
  | nil => exact absurd rfl hcs
  | @blank c _ _ hc =>
    have hblank : isBlank c = true := by simpa [isBlank, or_assoc] using hc
    simp [isSome_piece?_cons, hblank]
  | @line body gap =>
    have hcomment : (comment? ('/' :: '/' :: (body ++ gap ++ rest))).isSome = true := rfl
    rw [List.cons_append, List.cons_append, isSome_piece?_cons, hcomment]
    simp
  | @block body gap =>
    have hclosed := closeComment_append body (gap ++ rest)
    have hcomment :
        (comment? ('/' :: '*' :: (body ++ '*' :: '/' :: gap ++ rest))).isSome = true := by
      simpa [comment?] using hclosed
    rw [List.cons_append, List.cons_append, isSome_piece?_cons, hcomment]
    simp

/-- A scan that stops has read the text before a place at which there is no piece. -/
theorem exists_stop {n : Nat} {done cs : List Char} {p : Place} (hn : cs.length ≤ n)
    (h : (scanFrom n (Place.start.advance done) cs).stop = some p) :
    ∃ before c behind, cs = before ++ c :: behind ∧ piece? (c :: behind) = none ∧
      p = Place.start.advance (done ++ before) ∧
      ∀ x ∈ (scanFrom n (Place.start.advance done) cs).tokens, x.StandsIn (done ++ before) := by
  induction n generalizing done cs with
  | zero =>
    obtain rfl : cs = [] := List.length_eq_zero_iff.1 (by omega)
    simp [scanFrom] at h
  | succ n ih =>
    cases cs with
    | nil => simp [scanFrom] at h
    | cons c cs =>
      simp only [scanFrom] at h ⊢
      split at h
      · next hnone =>
        cases h
        exact ⟨[], c, cs, rfl, hnone, by simp, fun _ hx => absurd hx List.not_mem_nil⟩
      · next chars rest hp =>
        have hlength := length_lt_of_piece? hp
        have hcs : c :: cs = chars ++ rest := (piece?_eq hp).1
        rw [← Place.advance_append] at h ⊢
        obtain ⟨before, d, behind, rfl, hnone, hplace, htokens⟩ :=
          ih (by simp only [List.length_cons] at hn hlength; omega) h
        refine ⟨chars ++ before, d, behind, ?_, hnone, ?_, ?_⟩
        · rw [hcs, List.append_assoc]
        · rw [hplace, List.append_assoc]
        · simpa using htokens
      · next k chars rest hp =>
        have hlength := length_lt_of_piece? hp
        have hcs : c :: cs = chars ++ rest := (piece?_eq hp).1
        have hspells := spells_of_piece? hp
        rw [← Place.advance_append] at h ⊢
        obtain ⟨before, d, behind, rfl, hnone, hplace, htokens⟩ :=
          ih (by simp only [List.length_cons] at hn hlength; omega) h
        refine ⟨chars ++ before, d, behind, ?_, hnone, ?_, ?_⟩
        · rw [hcs, List.append_assoc]
        · rw [hplace, List.append_assoc]
        · intro x hx
          rcases List.mem_cons.1 hx with rfl | hx
          · have hspelled : (tokenAt (Place.start.advance done) k chars).IsSpelled :=
              ⟨k, rfl, by simpa [tokenAt] using hspells⟩
            exact ⟨⟨done, before, by simp [tokenAt], rfl, rfl⟩, hspelled⟩
          · simpa using htokens x hx

end Lexer

end Mykt
