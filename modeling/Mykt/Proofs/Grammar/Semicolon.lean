import Mykt.Proofs.Grammar.Acceptance
import Mykt.Proofs.Token.Blanking

/-!
Semicolons that are left out. Main statements: what the grammar derives it derives without any one
of the semicolons; so a text that is read is read with a blank in place of a semicolon, unless the
semicolon keeps a bare `return` from the assignment behind it.
-/

namespace Mykt

section

variable {us vs as bs : List Token} {s : Token}

theorem append_eq_append_cons (h : as ++ bs = us ++ s :: vs) :
    (∃ cs, us = as ++ cs ∧ bs = cs ++ s :: vs) ∨ ∃ cs, as = us ++ s :: cs ∧ vs = cs ++ bs := by
  rcases List.append_eq_append_iff.1 h with ⟨cs, hus, hbs⟩ | ⟨cs, has, hvs⟩
  · exact .inl ⟨cs, hus, hbs⟩
  · cases cs with
    | nil => exact .inl ⟨[], by simpa using has.symm, by simpa using hvs.symm⟩
    | cons c cs =>
      obtain ⟨rfl, rfl⟩ := List.cons.inj hvs
      exact .inr ⟨cs, has, rfl⟩

end

namespace Pattern

section

variable {p q : Pattern} {xs ys : List Tree} {us vs : List Token} {s t : Token}

theorem kind_ne_semi_of_returnStatement (h : Rule.returnStatement.body.Derives xs)
    (ht : t ∈ Tree.tokensOf xs) : t.kind ≠ .terminal .semi := by
  obtain ⟨ys, zs, hword, hvalue, rfl⟩ := derives_seq_iff.1 h
  rw [Tree.tokensOf_append, List.mem_append] at ht
  rcases ht with ht | ht
  · obtain ⟨u, ⟨k, hk, hu⟩, rfl⟩ := derives_oneOf_iff.1 hword
    obtain rfl : t = u := by simpa [Tree.tokensOf, Tree.tokens] using ht
    obtain rfl := List.mem_singleton.1 hk
    simp [hu]
  · exact hvalue.kind_ne_of_isPhrase rfl ht (by decide)

/-- The tokens can be derived, and no equals sign comes first behind a place among them. -/
def DerivesAround (p : Pattern) (us vs : List Token) : Prop :=
  nextIn [.equal] vs = false ∧ ∃ xs, p.Derives xs ∧ Tree.tokensOf xs = us ++ vs

/-- A semicolon of two parts is one of the first or one of the second. -/
theorem without_semicolon_append (hp : p.Derives xs) (hq : q.Derives ys)
    (hs : (p.isPhrase || !q.heads.contains .equal) = true) (hkind : s.kind = .terminal .semi)
    (hx : ∀ {us vs}, Tree.tokensOf xs = us ++ s :: vs → p.DerivesAround us vs)
    (hy : ∀ {us vs}, Tree.tokensOf ys = us ++ s :: vs → q.DerivesAround us vs)
    (ht : Tree.tokensOf (xs ++ ys) = us ++ s :: vs) : (seq p q).DerivesAround us vs := by
  rw [Tree.tokensOf_append] at ht
  rcases append_eq_append_cons ht with ⟨cs, rfl, hys⟩ | ⟨cs, hxs, rfl⟩
  · obtain ⟨hequal, zs, hz, htokens⟩ := hy hys
    refine ⟨hequal, xs ++ zs, .seq hp hz, ?_⟩
    rw [Tree.tokensOf_append, htokens, List.append_assoc]
  · obtain ⟨hequal, zs, hz, htokens⟩ := hx hxs
    refine ⟨?_, zs ++ ys, .seq hz hq, ?_⟩
    · by_cases he : cs = []
      · rw [he, List.nil_append]
        exact nextIn_equal_eq_false hp hq hs (t := s) (by simp [hxs]) (by decide) hkind
      · rwa [nextIn_append_of_ne_nil he]
    · rw [Tree.tokensOf_append, htokens, List.append_assoc]

/-- What is derived is derived without any one of its semicolons. -/
theorem Derives.without_semicolon (h : p.Derives xs) (hp : p.isSpaced = true)
    (hs : s.kind = .terminal .semi) (ht : Tree.tokensOf xs = us ++ s :: vs) :
    p.DerivesAround us vs := by
  induction h generalizing us vs with
  | empty | absent | done => simp [Tree.tokensOf] at ht
  | oneOf hk hu =>
    exact absurd hs ((Derives.oneOf hk hu).kind_ne_of_isPhrase hp (by simp [ht]) (by decide))
  | @rule r cs hd ih =>
    rw [Tree.tokensOf_singleton, Rule.tokens_wrap] at ht
    by_cases hr : r = .returnStatement
    · subst hr
      exact absurd hs (kind_ne_semi_of_returnStatement hd (by simp [ht]))
    · obtain ⟨hequal, ds, hds, htokens⟩ := ih (r.isSpaced_body hr) ht
      refine ⟨hequal, [r.wrap ds], .rule hds, ?_⟩
      rw [Tree.tokensOf_singleton, Rule.tokens_wrap, htokens]
  | seq hy hz ihp ihq =>
    simp only [isSpaced, Bool.and_eq_true] at hp
    exact without_semicolon_append hy hz hp.2 hs (ihp hp.1.1) (ihq hp.1.2) ht
  | left _ ih =>
    simp only [isSpaced, Bool.and_eq_true] at hp
    obtain ⟨hequal, ys, hy, htokens⟩ := ih hp.1 ht
    exact ⟨hequal, ys, .left hy, htokens⟩
  | right _ ih =>
    simp only [isSpaced, Bool.and_eq_true] at hp
    obtain ⟨hequal, ys, hy, htokens⟩ := ih hp.2 ht
    exact ⟨hequal, ys, .right hy, htokens⟩
  | present hd ih =>
    simp only [isSpaced, Bool.or_eq_true, decide_eq_true_eq] at hp
    rcases hp with rfl | hp
    · obtain ⟨t, -, rfl⟩ := derives_oneOf_iff.1 hd
      obtain ⟨rfl, -, rfl⟩ : us = [] ∧ s = t ∧ vs = [] := by
        simpa [Tree.tokensOf, Tree.tokens, List.singleton_eq_append_iff] using ht
      exact ⟨rfl, [], .absent, rfl⟩
    · obtain ⟨hequal, ys, hy, htokens⟩ := ih hp ht
      exact ⟨hequal, ys, .present hy, htokens⟩
  | more hy hz ihp ihq =>
    have hm := hp
    simp only [isSpaced, Bool.and_eq_true] at hp
    obtain ⟨hequal, ws, hw, htokens⟩ :=
      without_semicolon_append hy hz hp.2 hs (ihp hp.1) (ihq hm) ht
    obtain ⟨as, bs, has, hbs, rfl⟩ := derives_seq_iff.1 hw
    exact ⟨hequal, as ++ bs, .more has hbs, htokens⟩

end

end Pattern

/-- Without a token, a `return` meets an assignment only where the token was. -/
theorem ReturnsApart.without {xs ys : List Token} {s : Token} (h : ReturnsApart (xs ++ s :: ys))
    (he : nextIn [.equal] ys = false) (hm : returnMeetsAssignment xs ys = false) :
    ReturnsApart (xs ++ ys) := by
  intro before behind hts
  rcases List.append_eq_append_iff.1 hts with ⟨cs, rfl, rfl⟩ | ⟨cs, rfl, rfl⟩
  · by_cases hcs : cs = []
    · simpa [hcs] using hm
    · have hbehind := h (xs ++ s :: cs) behind (by simp)
      rw [returnMeetsAssignment_of_ne_nil (List.cons_ne_nil s cs)] at hbehind
      rw [returnMeetsAssignment_of_ne_nil hcs]
      rwa [← List.singleton_append, returnMeetsAssignment_of_ne_nil hcs] at hbehind
  · match cs with
    | [] => simpa using hm
    | [n] =>
      apply Bool.eq_false_iff.2
      intro hmeets
      exact Bool.eq_false_iff.1 he (starts_of_meets hmeets).2
    | n :: e :: cs => exact h before (n :: e :: cs ++ s :: ys) (by simp)

/-- Without one of their semicolons, tokens are read unless the semicolon stands between a `return`
and an assignment. -/
theorem exists_parseTokens_without_semicolon_iff {xs ys : List Token} {s : Token} {t : Tree}
    (h : parseTokens (xs ++ s :: ys) = .ok t) (hs : s.kind = .terminal .semi) :
    (∃ u, parseTokens (xs ++ ys) = .ok u) ↔ returnMeetsAssignment xs ys = false := by
  obtain ⟨⟨cs, hd, htokens⟩, hapart⟩ := exists_parseTokens_iff.1 ⟨t, h⟩
  obtain ⟨hequal, hderived⟩ := hd.without_semicolon rfl hs htokens
  rw [exists_parseTokens_iff]
  constructor
  · intro hboth
    exact hboth.2 xs ys rfl
  · intro hmeets
    exact ⟨hderived, hapart.without hequal hmeets⟩

/-- A text that is read is read with a blank in place of any one of its semicolons, with the other
tokens where they were, unless the semicolon stands between a `return` and an assignment. -/
theorem parse_blank_iff {source : String} {t : Tree} {xs ys : List Token} {x : Token}
    (h : parse source = .ok t) (ht : t.tokens = xs ++ x :: ys) (hx : x.kind = .terminal .semi) :
    ∃ before behind, source.toList = before ++ ';' :: behind ∧
      x.line = (Place.start.advance before).line + 1 ∧
      x.column = (Place.start.advance before).column ∧
      ((∃ u, parse (String.ofList (before ++ ' ' :: behind)) = .ok u) ↔
        returnMeetsAssignment xs ys = false) ∧
      ∀ u, parse (String.ofList (before ++ ' ' :: behind)) = .ok u → u.tokens = xs ++ ys := by
  obtain ⟨hstop, hread⟩ := parse_eq_ok_iff.1 h
  have htokens : (Lexer.scan source.toList).tokens = xs ++ x :: ys := by
    rw [← (conforms_of_parse h).2.2, ht]
  obtain ⟨before, behind, hsource, hplace, hscan⟩ := Lexer.exists_blank hstop htokens hx
  have hblank : Lexer.scan (String.ofList (before ++ ' ' :: behind)).toList = ⟨xs ++ ys, none⟩ := by
    rw [String.toList_ofList]
    exact hscan
  refine ⟨before, behind, hsource, by rw [hplace]; rfl, by rw [hplace]; rfl, ?_, ?_⟩
  · rw [htokens] at hread
    rw [← exists_parseTokens_without_semicolon_iff hread hx]
    simp only [parse_eq_ok_iff, hblank, true_and]
  · intro u hu
    rw [(conforms_of_parse hu).2.2, hblank]

/-- Without its semicolon the text calls a string, which is read; the semicolons in the string and
in the comment are no tokens. -/
theorem parse_blank_iff_called :
    ∃ t xs x ys, parse "x = \";\"; (y) // ;" = .ok t ∧ t.tokens = xs ++ x :: ys ∧
      x.kind = .terminal .semi ∧ x.column = 7 ∧ returnMeetsAssignment xs ys = false ∧
      ∃ before behind, "x = \";\"; (y) // ;".toList = before ++ ';' :: behind ∧
        x.column = (Place.start.advance before).column ∧
        ∃ u, parse (String.ofList (before ++ ' ' :: behind)) = .ok u ∧ u.tokens = xs ++ ys := by
  let xs : List Token :=
    [⟨.terminal .name, "x", 1, 0⟩, ⟨.terminal .equal, "=", 1, 2⟩,
      ⟨.terminal .string, "\";\"", 1, 4⟩]
  let ys : List Token :=
    [⟨.terminal .lpar, "(", 1, 9⟩, ⟨.terminal .name, "y", 1, 10⟩, ⟨.terminal .rpar, ")", 1, 11⟩]
  obtain ⟨t, ht, htokens⟩ : ∃ t, parse "x = \";\"; (y) // ;" = .ok t ∧
      t.tokens = xs ++ ⟨.terminal .semi, ";", 1, 7⟩ :: ys :=
    ⟨_, rfl, by decide +kernel⟩
  have hmeets : returnMeetsAssignment xs ys = false := by decide
  obtain ⟨before, behind, hsource, -, hcolumn, hread, hsame⟩ := parse_blank_iff ht htokens rfl
  obtain ⟨u, hu⟩ := hread.2 hmeets
  exact ⟨t, xs, _, ys, ht, htokens, rfl, rfl, hmeets, before, behind, hsource, hcolumn, u, hu,
    hsame u hu⟩

/-- Without its semicolon the `return` takes the name behind it, and the equals sign is refused. -/
theorem parse_blank_of_return :
    ∃ t xs x ys, parse "return; x = 1" = .ok t ∧ t.tokens = xs ++ x :: ys ∧
      x.kind = .terminal .semi ∧ x.line = 1 ∧ x.column = 6 ∧
      ∀ u, parse "return  x = 1" ≠ .ok u := by
  refine ⟨_, [⟨.terminal .returnWord, "return", 1, 0⟩], ⟨.terminal .semi, ";", 1, 6⟩,
    [⟨.terminal .name, "x", 1, 8⟩, ⟨.terminal .equal, "=", 1, 10⟩, ⟨.terminal .int, "1", 1, 12⟩],
    rfl, by decide +kernel, rfl, rfl, rfl, ?_⟩
  intro u hu
  have hrefused : (parse "return  x = 1").toOption = none := by rfl
  rw [hu] at hrefused
  cases hrefused

end Mykt
