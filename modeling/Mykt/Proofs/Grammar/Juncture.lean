import Mykt.Proofs.Grammar.Admission

/-!
Where statements meet. Nothing need stand between two statements, so the first of them may go on
with the second. Main statements: an expression that goes on with the statement before it makes one
statement with it; so tokens that the grammar derives are read, unless a bare `return` stands right
before an assignment.
-/

namespace Mykt

/-- A `return` comes last before some tokens that begin with a name and an equals sign. -/
def returnMeetsAssignment (before behind : List Token) : Bool :=
  nextIn [.returnWord] before.reverse && Rule.assignment.starts behind

/-- Nowhere among the tokens a `return` stands right before a name and an equals sign. -/
def ReturnsApart (ts : List Token) : Prop :=
  ∀ before behind, ts = before ++ behind → returnMeetsAssignment before behind = false

section

variable {ks : List Terminal} {us vs : List Token}

theorem ne_nil_of_nextIn (h : nextIn ks us = true) : us ≠ [] := by
  rintro rfl
  cases h

theorem nextIn_append (h : nextIn ks us = true) (vs : List Token) :
    nextIn ks (us ++ vs) = true := by
  cases us with
  | nil => cases h
  | cons t us => exact h

theorem returnMeetsAssignment_append (h : returnMeetsAssignment us vs = true)
    (before behind : List Token) :
    returnMeetsAssignment (before ++ us) (vs ++ behind) = true := by
  simp only [returnMeetsAssignment, Rule.starts, Bool.and_eq_true] at h ⊢
  obtain ⟨hreturn, hname, hequal⟩ := h
  cases vs with
  | nil => cases hname
  | cons v vs =>
    refine ⟨?_, hname, ?_⟩
    · rw [List.reverse_append]
      exact nextIn_append hreturn _
    · simpa using nextIn_append (by simpa using hequal) behind

theorem exists_nextIn (h : nextIn ks us = true) : ∃ k ∈ ks, nextIn [k] us = true := by
  cases us with
  | nil => cases h
  | cons t us =>
    obtain ⟨k, hk, ht⟩ := nextIn_cons_iff.1 h
    exact ⟨k, hk, nextIn_singleton_iff.2 ht⟩

theorem exists_mem_of_meets (h : returnMeetsAssignment us vs = true) :
    ∃ t ∈ us, t.kind = .terminal .returnWord := by
  simp only [returnMeetsAssignment, Bool.and_eq_true] at h
  cases hr : us.reverse with
  | nil => simp [hr, nextIn] at h
  | cons t ts =>
    rw [hr] at h
    exact ⟨t, List.mem_reverse.1 (by simp [hr]), nextIn_singleton_iff.1 h.1⟩

theorem returnMeetsAssignment_of_ne_nil (hu : us ≠ []) (ts : List Token) :
    returnMeetsAssignment (ts ++ us) vs = returnMeetsAssignment us vs := by
  rw [returnMeetsAssignment, List.reverse_append, nextIn_append_of_ne_nil (by simpa using hu)]
  rfl

theorem starts_of_meets (h : returnMeetsAssignment us vs = true) :
    nextIn [.name] vs = true ∧ nextIn [.equal] vs.tail = true := by
  simp only [returnMeetsAssignment, Bool.and_eq_true] at h
  have hstarts : (Pattern.rule .assignment).starts vs = true := h.2
  rwa [Pattern.starts_assignment, Bool.and_eq_true] at hstarts

theorem ReturnsApart.left (h : ReturnsApart (us ++ vs)) : ReturnsApart us := by
  rintro before behind rfl
  apply Bool.eq_false_iff.2
  intro hmeets
  have hmore := returnMeetsAssignment_append hmeets [] vs
  exact Bool.eq_false_iff.1 (h before (behind ++ vs) (List.append_assoc _ _ _)) hmore

theorem ReturnsApart.right (h : ReturnsApart (us ++ vs)) : ReturnsApart vs := by
  rintro before behind rfl
  apply Bool.eq_false_iff.2
  intro hmeets
  have hmore := returnMeetsAssignment_append hmeets us []
  rw [List.append_nil] at hmore
  exact Bool.eq_false_iff.1 (h (us ++ before) behind (List.append_assoc _ _ _).symm) hmore

end

namespace Pattern

/-- Only an expression at its end, or one that is missing behind a `return`, lets such a pattern go
on with an expression. -/
def opens : Pattern → Bool
  | oneOf _ => true
  | rule r => apart r.tails Rule.expressionStarts ||
      [.disjunction, .returnStatement, .functionDeclaration, .functionBody, .variableDeclaration,
        .assignment].contains r
  | seq p q => q.opens && (!q.isNullable || apart p.tails Rule.expressionStarts)
  | alt p q => p.opens && q.opens
  | opt p => p.opens && apart p.heads Rule.expressionStarts
  | empty => false
  | many _ => false

/-- Tokens that are read as the pattern before whatever does not go on with an expression. -/
def Finishes (p : Pattern) (ts : List Token) : Prop :=
  ∃ xs, Tree.tokensOf xs = ts ∧
    ∀ rest, nextIn Rule.expressionTails rest = false → p.Reads xs rest

/-- Trees of the pattern either are read before every text that begins with the terminal, or make a
text of the pattern with every expression that does. -/
def Joins (p : Pattern) (xs : List Tree) (k : Terminal) : Prop :=
  (∀ rest, nextIn [k] rest = true → p.Reads xs rest) ∨
    (k ∈ [.lpar, .minus] ∨ nextIn [.returnWord] (Tree.tokensOf xs).reverse = true) ∧
      ∀ vs, Rule.expression.Admits vs → nextIn [k] vs = true → p.Finishes (Tree.tokensOf xs ++ vs)

section

variable {p q : Pattern} {xs ys : List Tree} {ts us rest : List Token} {k : Terminal}

theorem Finishes.rule {r : Rule} (h : r.body.Finishes ts) : (rule r).Finishes ts := by
  obtain ⟨xs, rfl, hany⟩ := h
  refine ⟨[r.wrap xs], ?_, fun rest hr => .rule (hany rest hr)⟩
  rw [Tree.tokensOf_singleton, Rule.tokens_wrap]

theorem Finishes.seq (hc : (seq p q).isClear = true) (hp : p.Accepts xs) (hq : q.Finishes ts)
    (ht : ts ≠ []) : (seq p q).Finishes (Tree.tokensOf xs ++ ts) := by
  obtain ⟨ys, rfl, hany⟩ := hq
  refine ⟨xs ++ ys, Tree.tokensOf_append xs ys, ?_⟩
  intro rest hr
  have hlast := hany rest hr
  refine .seq (hp _ ?_) hlast
  simp only [isClear, Bool.and_eq_true] at hc
  rw [nextIn_append_of_ne_nil ht]
  exact nextIn_eq_false_of_apart hc.2 (hlast.derives.nextIn_heads ht)

theorem Finishes.left (hc : (alt p q).isClear = true) (h : p.Finishes ts) :
    (alt p q).Finishes ts := by
  obtain ⟨xs, rfl, hany⟩ := h
  refine ⟨xs, rfl, ?_⟩
  intro rest hr
  have hread := hany rest hr
  exact .left (hread.derives.starts_left hc rest) hread

/-- Two tokens tell that no assignment begins. -/
theorem Finishes.right (hc : (alt p q).isClear = true) (h : q.Finishes ts) (ht : 2 ≤ ts.length) :
    (alt p q).Finishes ts := by
  obtain ⟨xs, rfl, hany⟩ := h
  refine ⟨xs, rfl, ?_⟩
  intro rest hr
  have hread := hany rest hr
  have hrivals : p.rivals (Tree.tokensOf xs) = [] := if_neg (by omega)
  refine .right (hread.derives.starts_right hc ?_) hread
  rw [hrivals]
  cases rest <;> rfl

theorem Finishes.present (hc : (opt p).isClear = true) (h : p.Finishes ts) :
    (opt p).Finishes ts := by
  obtain ⟨xs, rfl, hany⟩ := h
  refine ⟨xs, rfl, ?_⟩
  intro rest hr
  have hread := hany rest hr
  simp only [isClear, Bool.and_eq_true, Bool.not_eq_true'] at hc
  exact .present (hread.derives.starts hc.2 hc.1.2 rest) hread

namespace Joins

theorem rule {r : Rule} (h : r.body.Joins xs k) : (rule r).Joins [r.wrap xs] k := by
  rcases h with hreads | ⟨hk, hfinishes⟩
  · exact .inl fun rest hr => .rule (hreads rest hr)
  · rw [Joins, Tree.tokensOf_singleton, Rule.tokens_wrap]
    exact .inr ⟨hk, fun vs hv hn => (hfinishes vs hv hn).rule⟩

/-- The last part decides, if the first does not go on with an expression where the last is
empty. -/
theorem seq (hc : (seq p q).isClear = true) (hp : p.Reads xs (Tree.tokensOf ys ++ rest))
    (ha : Tree.tokensOf ys = [] → apart p.tails Rule.expressionStarts = true)
    (hk : k ∈ Rule.expressionStarts) (hq : q.Joins ys k) : (seq p q).Joins (xs ++ ys) k := by
  have hclear := (isClear_seq hc).1
  rcases hq with hreads | ⟨hlast, hfinishes⟩
  · refine .inl fun follow hf => .seq ?_ (hreads follow hf)
    by_cases he : Tree.tokensOf ys = []
    · rw [he, List.nil_append]
      have hstarts : nextIn Rule.expressionStarts follow = true :=
        nextIn_of_subset (by simpa using hk) hf
      exact hp.accepts hclear follow (nextIn_eq_false_of_apart (ha he) hstarts)
    · exact hp.before_taken hclear he follow
  · rw [Joins, Tree.tokensOf_append]
    refine .inr ⟨hlast.imp_right ?_, ?_⟩
    · intro hreturn
      rw [List.reverse_append]
      exact nextIn_append hreturn _
    · intro vs hv hn
      rw [List.append_assoc]
      apply Finishes.seq hc (hp.accepts hclear) (hfinishes vs hv hn)
      exact List.append_ne_nil_of_right_ne_nil _ (ne_nil_of_nextIn hn)

theorem left (hc : (alt p q).isClear = true) (hp : p.Derives xs) (h : p.Joins xs k) :
    (alt p q).Joins xs k := by
  rcases h with hreads | ⟨hk, hfinishes⟩
  · exact .inl fun rest hr => .left (hp.starts_left hc rest) (hreads rest hr)
  · exact .inr ⟨hk, fun vs hv hn => (hfinishes vs hv hn).left hc⟩

theorem right (hc : (alt p q).isClear = true) (hq : q.Derives xs) (hk : k ∈ Rule.expressionStarts)
    (h : q.Joins xs k) : (alt p q).Joins xs k := by
  have hequal : ∀ k ∈ Rule.expressionStarts, apart [.equal] [k] = true := by decide
  rcases h with hreads | ⟨hlast, hfinishes⟩
  · refine .inl fun rest hr => .right (hq.starts_right hc ?_) (hreads rest hr)
    have hrivals : p.rivals (Tree.tokensOf xs) ⊆ [.equal] := by
      refine List.Subset.trans (p.rivals_subset _) ?_
      split <;> simp
    exact nextIn_eq_false_of_subset hrivals (nextIn_eq_false_of_apart (hequal k hk) hr)
  · refine .inr ⟨hlast, fun vs hv hn => (hfinishes vs hv hn).right hc ?_⟩
    simp only [isClear, Bool.and_eq_true, Bool.not_eq_true'] at hc
    have hfirst := List.length_pos_iff.2 (hq.tokensOf_ne_nil hc.1.2)
    have hsecond := List.length_pos_iff.2 (ne_nil_of_nextIn hn)
    rw [List.length_append]
    omega

theorem present (hc : (opt p).isClear = true) (hp : p.Derives xs) (h : p.Joins xs k) :
    (opt p).Joins xs k := by
  rcases h with hreads | ⟨hk, hfinishes⟩
  · simp only [isClear, Bool.and_eq_true, Bool.not_eq_true'] at hc
    exact .inl fun rest hr => .present (hp.starts hc.2 hc.1.2 rest) (hreads rest hr)
  · exact .inr ⟨hk, fun vs hv hn => (hfinishes vs hv hn).present hc⟩

end Joins

/-- What cannot go on with an expression is read before one. -/
theorem Accepts.joins (h : p.Accepts xs) (ha : apart p.tails Rule.expressionStarts = true)
    (hk : k ∈ Rule.expressionStarts) : p.Joins xs k := by
  refine .inl fun rest hr => h rest (nextIn_eq_false_of_apart ha (nextIn_of_subset ?_ hr))
  simpa using hk

theorem Reads.joins_expression (h : Rule.expression.Reads xs rest)
    (hk : k ∈ Rule.expressionStarts) : Rule.expression.Joins xs k := by
  by_cases hsign : k ∈ [.lpar, .minus]
  · refine .inr ⟨.inl hsign, ?_⟩
    intro vs hv hnext
    obtain ⟨zs, hz, htokens⟩ := Rule.absorbs_expression hsign _ vs (h.admits rfl) hv hnext
    exact ⟨zs, htokens, hz⟩
  · have table : ∀ k ∈ Rule.expressionStarts, k ∉ [Terminal.lpar, .minus] →
        apart Rule.expressionTails [k] = true := by decide
    refine .inl fun rest hr => h.accepts rfl rest ?_
    exact nextIn_eq_false_of_apart (table k hk hsign) hr

theorem Reads.joins_returnStatement (h : Rule.returnStatement.body.Reads xs rest)
    (hk : k ∈ Rule.expressionStarts) : Rule.returnStatement.body.Joins xs k := by
  cases h with
  | seq hword hvalue =>
    cases hvalue with
    | absent =>
      obtain ⟨t, ht, rfl⟩ := derives_oneOf_iff.1 hword.derives
      rw [List.append_nil]
      refine .inr ⟨.inr (nextIn_cons_iff.2 ht), ?_⟩
      rintro vs ⟨zs, hz, rfl⟩ hn
      have hvalue : (opt Rule.expression).Finishes (Tree.tokensOf zs) :=
        Finishes.present rfl ⟨zs, rfl, hz⟩
      exact hvalue.seq rfl (hword.accepts rfl) (ne_nil_of_nextIn hn)
    | present _ hvalue =>
      have hnull : Tree.tokensOf _ ≠ [] := hvalue.derives.tokensOf_ne_nil rfl
      exact .seq rfl hword (fun he => absurd he hnull) hk
        (.present rfl hvalue.derives (hvalue.joins_expression hk))

end

end Pattern

theorem Rule.opens_body (r : Rule) (h : (Pattern.rule r).opens = true)
    (ha : apart r.tails expressionStarts = false) (hd : r ≠ .disjunction)
    (hr : r ≠ .returnStatement) : r.body.opens = true := by
  revert h ha hd hr
  cases r <;> decide

namespace Pattern

section

variable {p : Pattern} {xs ys : List Tree} {us vs rest : List Token} {k : Terminal}

/-- What is read goes on with an expression in no other way than by joining it. -/
theorem Reads.joins (h : p.Reads xs rest) (hp : p.isClear = true) (ho : p.opens = true)
    (hk : k ∈ Rule.expressionStarts) : p.Joins xs k := by
  induction h with
  | empty | done | more => cases ho
  | oneOf hl ht => exact .inl fun _ _ => .oneOf hl ht
  | @rule r cs rest h ih =>
    cases ha : apart r.tails Rule.expressionStarts with
    | true => exact (Reads.rule h).accepts rfl |>.joins ha hk
    | false =>
      by_cases hd : r = .disjunction
      · subst hd
        exact (Reads.rule h).joins_expression hk
      · by_cases hr : r = .returnStatement
        · subst hr
          exact (h.joins_returnStatement hk).rule
        · exact (ih r.isClear_body (r.opens_body ho ha hd hr)).rule
  | @seq p q xs ys rest hread hlast _ ihq =>
    simp only [opens, Bool.and_eq_true, Bool.or_eq_true, Bool.not_eq_true'] at ho
    refine .seq hp hread ?_ hk (ihq (isClear_seq hp).2 ho.1)
    intro he
    rcases ho.2 with hnull | hapart
    · exact absurd he (hlast.derives.tokensOf_ne_nil hnull)
    · exact hapart
  | left _ h ih =>
    simp only [opens, Bool.and_eq_true] at ho
    exact .left hp h.derives (ih (isClear_alt hp).1 ho.1)
  | right _ h ih =>
    simp only [opens, Bool.and_eq_true] at ho
    exact .right hp h.derives hk (ih (isClear_alt hp).2 ho.2)
  | absent =>
    simp only [opens, Bool.and_eq_true] at ho
    simp only [isClear, Bool.and_eq_true] at hp
    refine .inl fun rest hr => .absent ?_
    rw [starts_eq_nextIn hp.2]
    exact nextIn_eq_false_of_apart ho.2 (nextIn_of_subset (by simpa using hk) hr)
  | present _ h ih =>
    simp only [opens, Bool.and_eq_true] at ho
    exact .present hp h.derives (ih (isClear_opt hp) ho.1)

/-- Behind an expression nothing comes that goes on with one. -/
theorem Reads.nextIn_expressionTails (h : Rule.expression.Reads xs rest) :
    nextIn Rule.expressionTails rest = false := by
  have table : ∀ k ∈ Rule.expressionTails, Rule.expression.goesOn k = true := by decide
  obtain ⟨ks, homits, hn, -⟩ := h.exists_omits rfl
  have htokens : Tree.tokensOf xs ≠ [] := h.derives.tokensOf_ne_nil rfl
  exact nextIn_eq_false_of_subset (fun k hk => homits.mem_of_goesOn (table k hk) htokens) hn

/-- What stands in a statement begins with a word of its own, or is an assignment or an
expression. -/
theorem reads_clause (h : Rule.clause.Reads xs rest) :
    nextIn [.funWord, .valWord, .varWord, .returnWord, .ifWord, .whileWord]
        (Tree.tokensOf xs) = true ∨
      (rule .assignment).Reads xs rest ∨ Rule.expression.Reads xs rest := by
  have own {r : Rule} (h : (rule r).Reads xs rest) (hn : r.isNullable = false)
      (hr : r.first ⊆ [.funWord, .valWord, .varWord, .returnWord, .ifWord, .whileWord]) :
      nextIn [.funWord, .valWord, .varWord, .returnWord, .ifWord, .whileWord]
        (Tree.tokensOf xs) = true :=
    nextIn_of_subset hr (h.derives.nextIn_heads (h.derives.tokensOf_ne_nil hn))
  cases h with
  | left _ h => exact .inl (own h rfl (by decide))
  | right _ h =>
  cases h with
  | left _ h => exact .inl (own h rfl (by decide))
  | right _ h =>
  cases h with
  | left _ h => exact .inr (.inl h)
  | right _ h =>
  cases h with
  | left _ h => exact .inl (own h rfl (by decide))
  | right _ h =>
  cases h with
  | left _ h => exact .inl (own h rfl (by decide))
  | right _ h =>
  cases h with
  | left _ h => exact .inl (own h rfl (by decide))
  | right _ h => exact .inr (.inr h)

/-- A statement is its clause and a semicolon, or none. -/
theorem reads_statement (h : (rule .statement).Reads xs rest) :
    ∃ cs ss, Rule.clause.Reads cs (Tree.tokensOf ss ++ rest) ∧
      (opt (oneOf [.semi])).Reads ss rest ∧ xs = [Rule.statement.wrap (cs ++ ss)] := by
  cases h with
  | rule h =>
    cases h with
    | seq hclause hsemi => exact ⟨_, _, hclause, hsemi, rfl⟩

theorem tokensOf_statement (cs ss : List Tree) :
    Tree.tokensOf [Rule.statement.wrap (cs ++ ss)] = Tree.tokensOf cs ++ Tree.tokensOf ss := by
  rw [Tree.tokensOf_singleton, Rule.tokens_wrap, Tree.tokensOf_append]

/-- A statement with a semicolon is read before everything, and one without is read before what its
clause is read before. -/
theorem statement_cases (h : (rule .statement).Reads xs rest) :
    (∀ follow, (rule .statement).Reads xs follow) ∨
      ∃ cs, Rule.clause.Reads cs rest ∧ Tree.tokensOf xs = Tree.tokensOf cs ∧
        ∀ follow, nextIn [.semi] follow = false → Rule.clause.Reads cs follow →
          (rule .statement).Reads xs follow := by
  obtain ⟨cs, ss, hclause, hsemi, rfl⟩ := reads_statement h
  cases hsemi with
  | present _ hsemi =>
    refine .inl fun follow => .rule (.seq (hclause.before_taken rfl ?_ follow) ?_)
    · exact hsemi.derives.tokensOf_ne_nil rfl
    · obtain ⟨t, ⟨k, hk, ht⟩, rfl⟩ := derives_oneOf_iff.1 hsemi.derives
      exact .present (nextIn_cons_iff.2 ⟨k, hk, ht⟩) (.oneOf hk ht)
  | absent =>
    refine .inr ⟨cs, hclause, ?_, fun follow hs hread => .rule (.seq hread (.absent hs))⟩
    rw [List.append_nil, Tree.tokensOf_singleton, Rule.tokens_wrap]

/-- A statement is read before another one, or makes one statement with it, unless it is a `return`
before an assignment. -/
theorem statements_join (hx : (rule .statement).Reads xs []) (hy : (rule .statement).Reads ys rest)
    (ha : returnMeetsAssignment (Tree.tokensOf xs) (Tree.tokensOf ys) = false) :
    (rule .statement).Reads xs (Tree.tokensOf ys ++ rest) ∨
      ∃ zs, (rule .statement).Reads zs rest ∧
        Tree.tokensOf zs = Tree.tokensOf xs ++ Tree.tokensOf ys := by
  obtain ⟨cs, ss, hclause, hsemi, rfl⟩ := reads_statement hy
  rw [tokensOf_statement] at ha ⊢
  have hholds : Tree.tokensOf cs ≠ [] := hclause.derives.tokensOf_ne_nil rfl
  have hnext (ks : List Terminal) :
      nextIn ks (Tree.tokensOf cs ++ Tree.tokensOf ss ++ rest) = nextIn ks (Tree.tokensOf cs) := by
    rw [List.append_assoc, nextIn_append_of_ne_nil hholds]
  rcases statement_cases hx with hany | ⟨ds, hd, htokens, hreads⟩
  · exact .inl (hany _)
  rw [htokens] at ha ⊢
  have hbefore {k : Terminal} (hk : k ∈ Rule.expressionStarts)
      (hn : nextIn [k] (Tree.tokensOf cs) = true)
      (hany : ∀ follow, nextIn [k] follow = true → Rule.clause.Reads ds follow) :
      (rule .statement).Reads xs (Tree.tokensOf cs ++ Tree.tokensOf ss ++ rest) := by
    have table : ∀ k ∈ Rule.expressionStarts, apart [.semi] [k] = true := by decide
    rw [← hnext] at hn
    exact hreads _ (nextIn_eq_false_of_apart (table k hk) hn) (hany _ hn)
  rcases reads_clause hclause with hword | hassignment | hexpression
  · refine .inl (hx.accepts rfl _ ?_)
    rw [hnext]
    exact nextIn_eq_false_of_apart (by decide) hword
  · have hstarts := starts_assignment_of_derives hassignment.derives (Tree.tokensOf ss)
    have hname : nextIn [.name] (Tree.tokensOf cs) = true := by
      rw [starts_assignment, Bool.and_eq_true, nextIn_append_of_ne_nil hholds] at hstarts
      exact hstarts.1
    rcases hd.joins rfl (by decide) (k := .name) (by decide) with hany | ⟨hname | hreturn, -⟩
    · exact .inl (hbefore (by decide) hname hany)
    · exact absurd hname (by decide)
    · rw [returnMeetsAssignment, hreturn] at ha
      exact absurd hstarts (Bool.eq_false_iff.1 ha)
  · obtain ⟨k, hk, hn⟩ := exists_nextIn (hexpression.derives.nextIn_heads hholds)
    rcases hd.joins rfl (by decide) hk with hany | ⟨-, hfinishes⟩
    · exact .inl (hbefore hk hn hany)
    · obtain ⟨zs, hz, hany⟩ := hfinishes _ (hexpression.admits rfl) hn
      refine .inr ⟨[Rule.statement.wrap (zs ++ ss)], ?_, ?_⟩
      · exact .rule (.seq (hany _ hexpression.nextIn_expressionTails) hsemi)
      · rw [tokensOf_statement, hz, List.append_assoc]

/-- A statement goes before others, as a statement of its own or together with the first. -/
theorem Admits.more_statements (hu : (Pattern.rule .statement).Admits us)
    (hv : (many (.rule .statement)).Admits vs) (ha : ReturnsApart (us ++ vs)) :
    (many (.rule .statement)).Admits (us ++ vs) := by
  obtain ⟨xs, hx, rfl⟩ := hu
  obtain ⟨ys, hy, rfl⟩ := hv
  cases hy [] rfl with
  | done =>
    rw [Tree.tokensOf, List.append_nil]
    exact Admits.once rfl ⟨xs, hx, rfl⟩
  | @more _ ys zs _ _ hfirst hothers =>
    rw [Tree.tokensOf_append] at ha ⊢
    have hapart : returnMeetsAssignment (Tree.tokensOf xs) (Tree.tokensOf ys) = false := by
      rw [← List.append_assoc] at ha
      exact ha.left _ _ rfl
    have hstarts {ws : List Tree} {rest : List Token}
        (h : (Pattern.rule .statement).Reads ws rest) :
        (Pattern.rule .statement).starts (Tree.tokensOf ws ++ rest) = true :=
      h.derives.starts rfl rfl rest
    rcases statements_join (hx [] rfl) hfirst hapart with hread | ⟨ws, hread, htokens⟩
    · have hboth := Reads.more (hstarts hfirst) hfirst hothers
      have hall : (many (.rule .statement)).Reads (xs ++ (ys ++ zs)) [] := by
        refine .more (hstarts ?_) ?_ hboth <;>
        · rw [Tree.tokensOf_append, List.append_assoc]
          exact hread
      have hadmits := hall.admits rfl
      rwa [Tree.tokensOf_append, Tree.tokensOf_append] at hadmits
    · have hall := (Reads.more (hstarts hread) hread hothers).admits rfl
      rwa [Tree.tokensOf_append, htokens, List.append_assoc] at hall

/-- What a clear pattern derives it admits, unless a `return` meets an assignment. -/
theorem Derives.admits (h : p.Derives xs) (hp : p.isClear = true)
    (ha : ReturnsApart (Tree.tokensOf xs)) : p.Admits (Tree.tokensOf xs) := by
  induction h with
  | empty => exact ⟨[], fun _ _ => .empty, rfl⟩
  | oneOf hk ht => exact admits_oneOf_iff.2 ⟨_, ⟨_, hk, ht⟩, rfl⟩
  | @rule r _ _ ih =>
    rw [Tree.tokensOf_singleton, Rule.tokens_wrap] at ha ⊢
    exact (ih r.isClear_body ha).rule
  | seq _ _ ihp ihq =>
    rw [Tree.tokensOf_append] at ha ⊢
    exact (ihp (isClear_seq hp).1 ha.left).seq hp (ihq (isClear_seq hp).2 ha.right)
  | left _ ih => exact (ih (isClear_alt hp).1 ha).left hp
  | right _ ih => exact (ih (isClear_alt hp).2 ha).right hp
  | absent => exact .absent hp
  | present _ ih => exact (ih (isClear_opt hp) ha).present hp
  | done => exact .done hp
  | @more p _ _ _ _ ihp ihq =>
    rw [Tree.tokensOf_append] at ha ⊢
    have hfirst := ihp (isClear_many hp) ha.left
    have hothers := ihq hp ha.right
    by_cases hs : p = .rule .statement
    · subst hs
      exact hfirst.more_statements hothers ha
    · exact hfirst.more hp hs hothers

end

end Pattern

end Mykt
