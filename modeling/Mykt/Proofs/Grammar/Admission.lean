import Mykt.Proofs.Grammar.Failure

/-!
The texts of a pattern, as lists of tokens. Main statements: a pattern admits the tokens of its
parts one after the other; and an expression admits another one behind it that begins with a
parenthesis or a minus sign, because the parenthesis begins a call and the sign a difference.
-/

namespace Mykt

namespace Pattern

/-- Tokens that are read as the pattern, before whatever does not go on with it. -/
def Admits (p : Pattern) (ts : List Token) : Prop :=
  ∃ xs, p.Accepts xs ∧ Tree.tokensOf xs = ts

section

variable {p q : Pattern} {xs : List Tree} {ts us vs rest : List Token}

theorem isClear_seq (h : (seq p q).isClear = true) : p.isClear = true ∧ q.isClear = true := by
  simp only [isClear, Bool.and_eq_true] at h
  exact h.1

theorem isClear_alt (h : (alt p q).isClear = true) : p.isClear = true ∧ q.isClear = true := by
  simp only [isClear, Bool.and_eq_true] at h
  exact h.1.1.1

theorem isClear_opt (h : (opt p).isClear = true) : p.isClear = true := by
  simp only [isClear, Bool.and_eq_true] at h
  exact h.1.1

theorem isClear_many (h : (many p).isClear = true) : p.isClear = true := by
  simp only [isClear, Bool.and_eq_true] at h
  exact h.1.1.1

theorem Reads.accepts (h : p.Reads xs rest) (hp : p.isClear = true) : p.Accepts xs := by
  obtain ⟨ks, homits, -, hany⟩ := h.exists_omits hp
  intro follow hf
  exact hany follow (nextIn_eq_false_of_subset homits.subset_tails hf)

theorem Reads.admits (h : p.Reads xs rest) (hp : p.isClear = true) :
    p.Admits (Tree.tokensOf xs) :=
  ⟨xs, h.accepts hp, rfl⟩

namespace Admits

theorem ne_nil (h : p.Admits ts) (hp : p.isNullable = false) : ts ≠ [] := by
  obtain ⟨xs, hx, rfl⟩ := h
  exact hx.derives.tokensOf_ne_nil hp

theorem nextIn_heads (h : p.Admits ts) (ht : ts ≠ []) : nextIn p.heads ts = true := by
  obtain ⟨xs, hx, rfl⟩ := h
  exact hx.derives.nextIn_heads ht

theorem mem_heads {k : Terminal} (h : p.Admits ts) (hk : nextIn [k] ts = true) : k ∈ p.heads := by
  cases ts with
  | nil => cases hk
  | cons t ts =>
    obtain ⟨l, hl, ht⟩ := nextIn_cons_iff.1 (h.nextIn_heads (List.cons_ne_nil t ts))
    obtain rfl : l = k := by simpa using ht.symm.trans (nextIn_singleton_iff.1 hk)
    exact hl

theorem rule {r : Rule} (h : r.body.Admits ts) : (rule r).Admits ts := by
  obtain ⟨xs, hx, rfl⟩ := h
  exact ⟨[r.wrap xs], hx.rule, by rw [Tree.tokensOf_singleton, Rule.tokens_wrap]⟩

theorem body {r : Rule} (h : (Pattern.rule r).Admits ts) : r.body.Admits ts := by
  obtain ⟨xs, hx, rfl⟩ := h
  cases hx [] rfl with
  | rule hb =>
    rw [Tree.tokensOf_singleton, Rule.tokens_wrap]
    exact hb.admits r.isClear_body

theorem seq (hc : (seq p q).isClear = true) (hp : p.Admits us) (hq : q.Admits vs) :
    (seq p q).Admits (us ++ vs) := by
  obtain ⟨xs, hx, rfl⟩ := hp
  obtain ⟨ys, hy, rfl⟩ := hq
  exact ⟨xs ++ ys, hx.seq hc hy, Tree.tokensOf_append xs ys⟩

theorem left (hc : (alt p q).isClear = true) (h : p.Admits ts) : (alt p q).Admits ts := by
  obtain ⟨xs, hx, rfl⟩ := h
  exact ⟨xs, hx.left hc, rfl⟩

theorem right (hc : (alt p q).isClear = true) (h : q.Admits ts) : (alt p q).Admits ts := by
  obtain ⟨xs, hx, rfl⟩ := h
  exact ⟨xs, hx.right hc, rfl⟩

theorem absent (hc : (opt p).isClear = true) : (opt p).Admits [] := ⟨[], .absent hc, rfl⟩

theorem present (hc : (opt p).isClear = true) (h : p.Admits ts) : (opt p).Admits ts := by
  obtain ⟨xs, hx, rfl⟩ := h
  exact ⟨xs, hx.present hc, rfl⟩

theorem done (hc : (many p).isClear = true) : (many p).Admits [] := ⟨[], .done hc, rfl⟩

theorem once (hc : (many p).isClear = true) (h : p.Admits ts) : (many p).Admits ts := by
  obtain ⟨xs, hx, rfl⟩ := h
  exact ⟨xs, hx.once hc, rfl⟩

/-- One more part goes before others, unless it is a statement that goes on with them. -/
theorem more (hc : (many p).isClear = true) (hs : p ≠ .rule .statement) (hp : p.Admits us)
    (hq : (many p).Admits vs) : (many p).Admits (us ++ vs) := by
  obtain ⟨xs, hx, rfl⟩ := hp
  obtain ⟨ys, hy, rfl⟩ := hq
  refine ⟨xs ++ ys, hy.more_of_reads hc ?_, Tree.tokensOf_append xs ys⟩
  intro rest hr
  apply hx
  by_cases he : Tree.tokensOf ys = []
  · rw [he, List.nil_append]
    exact nextIn_eq_false_of_subset (List.subset_append_right _ _) hr
  · simp only [isClear, hs, decide_false, Bool.or_false, Bool.and_eq_true] at hc
    rw [nextIn_append_of_ne_nil he]
    exact nextIn_eq_false_of_apart hc.2 (hy.derives.nextIn_heads he)

end Admits

theorem admits_oneOf_iff {ks : List Terminal} :
    (oneOf ks).Admits ts ↔ ∃ t, (∃ k ∈ ks, t.kind = .terminal k) ∧ ts = [t] := by
  constructor
  · rintro ⟨xs, hx, rfl⟩
    obtain ⟨t, ht, rfl⟩ := derives_oneOf_iff.1 hx.derives
    exact ⟨t, ht, rfl⟩
  · rintro ⟨t, ⟨k, hk, ht⟩, rfl⟩
    exact ⟨[.leaf t], fun _ _ => .oneOf hk ht, rfl⟩

theorem admits_seq_iff (hc : (seq p q).isClear = true) :
    (seq p q).Admits ts ↔ ∃ us vs, p.Admits us ∧ q.Admits vs ∧ ts = us ++ vs := by
  constructor
  · rintro ⟨xs, hx, rfl⟩
    cases hx [] rfl with
    | seq hp hq =>
      have hclear := isClear_seq hc
      exact ⟨_, _, hp.admits hclear.1, hq.admits hclear.2, Tree.tokensOf_append _ _⟩
  · rintro ⟨us, vs, hp, hq, rfl⟩
    exact hp.seq hc hq

theorem admits_alt_iff (hc : (alt p q).isClear = true) :
    (alt p q).Admits ts ↔ p.Admits ts ∨ q.Admits ts := by
  constructor
  · rintro ⟨xs, hx, rfl⟩
    cases hx [] rfl with
    | left _ h => exact .inl (h.admits (isClear_alt hc).1)
    | right _ h => exact .inr (h.admits (isClear_alt hc).2)
  · rintro (h | h)
    · exact h.left hc
    · exact h.right hc

theorem Admits.of_left {k : Terminal} (hc : (alt p q).isClear = true) (h : (alt p q).Admits ts)
    (hk : nextIn [k] ts = true) (hq : k ∉ q.heads) : p.Admits ts := by
  rcases (admits_alt_iff hc).1 h with h | h
  · exact h
  · exact absurd (h.mem_heads hk) hq

theorem Admits.of_right {k : Terminal} (hc : (alt p q).isClear = true) (h : (alt p q).Admits ts)
    (hk : nextIn [k] ts = true) (hp : k ∉ p.heads) : q.Admits ts := by
  rcases (admits_alt_iff hc).1 h with h | h
  · exact absurd (h.mem_heads hk) hp
  · exact h

/-- What a repetition admits is made up of parts. -/
theorem Admits.many_induction {C : List Token → Prop} (h : (many p).Admits ts)
    (hc : (many p).isClear = true) (done : C [])
    (more : ∀ us vs, p.Admits us → (many p).Admits vs → C vs → C (us ++ vs)) : C ts := by
  obtain ⟨xs, hx, rfl⟩ := h
  have hread := hx [] rfl
  clear hx
  generalize hm : many p = m at hread
  generalize ([] : List Token) = rest at hread
  induction hread with
  | done => exact done
  | more _ hp hq _ ih =>
    cases hm
    rw [Tree.tokensOf_append]
    exact more _ _ (hp.admits (isClear_many hc)) (hq.admits hc) (ih rfl)
  | _ => cases hm

theorem Admits.many_append (hc : (many p).isClear = true) (hs : p ≠ .rule .statement)
    (h : (many p).Admits us) (h' : (many p).Admits vs) : (many p).Admits (us ++ vs) := by
  refine Admits.many_induction (C := fun us => (many p).Admits (us ++ vs)) h hc h' ?_
  intro us ws hp _ ih
  rw [List.append_assoc]
  exact hp.more hc hs ih

/-- Behind a text of the pattern another one that begins with the terminal makes a text with it. -/
def Absorbs (p : Pattern) (k : Terminal) : Prop :=
  ∀ us vs, p.Admits us → p.Admits vs → nextIn [k] vs = true → p.Admits (us ++ vs)

theorem Absorbs.rule {r : Rule} {k : Terminal} (h : r.body.Absorbs k) :
    (Pattern.rule r).Absorbs k := by
  intro us vs hu hv hk
  exact (h us vs hu.body hv.body hk).rule

/-- Where parts absorb what follows, so do parts with separators between them. -/
theorem Absorbs.separated {k : Terminal} (h : p.Absorbs k) (hp : p.isNullable = false)
    (hc : (separated q p).isClear = true) : (separated q p).Absorbs k := by
  intro us vs hu hv hk
  have hmany : (many (seq q p)).isClear = true := (isClear_seq hc).2
  obtain ⟨first, others, hfirst, hothers, rfl⟩ := (admits_seq_iff hc).1 hu
  -- the last part absorbs the first part of what follows
  refine Admits.many_induction (C := fun others => ∀ first, p.Admits first →
    (Pattern.separated q p).Admits (first ++ others ++ vs)) hothers hmany ?_ ?_ first hfirst
  · intro first hfirst
    obtain ⟨next, later, hnext, hlater, rfl⟩ := (admits_seq_iff hc).1 hv
    rw [nextIn_append_of_ne_nil (hnext.ne_nil hp)] at hk
    rw [List.append_nil, ← List.append_assoc]
    exact (h first next hfirst hnext hk).seq hc hlater
  · intro pair others hpair _ ih first hfirst
    obtain ⟨sign, part, hsign, hpart, rfl⟩ := (admits_seq_iff (isClear_many hmany)).1 hpair
    obtain ⟨next, later, hnext, hlater, he⟩ := (admits_seq_iff hc).1 (ih part hpart)
    have hjoined := (hsign.seq (isClear_many hmany) hnext).more hmany (by simp) hlater
    have hall : first ++ (sign ++ part ++ others) ++ vs = first ++ (sign ++ next ++ later) := by
      rw [List.append_assoc first, List.append_assoc sign, List.append_assoc sign, he,
        List.append_assoc sign]
    rw [hall]
    exact hfirst.seq hc hjoined

end

end Pattern

namespace Rule

open Terminal Pattern

variable {ts us vs : List Token}

/-- An expression in parentheses is also the argument of a call. -/
theorem admits_callSuffix (h : (rule primary).Admits ts) (hk : nextIn [lpar] ts = true) :
    (rule callSuffix).Admits ts := by
  have hparenthesized : (rule parenthesizedExpression).Admits ts :=
    .of_right rfl (.of_right rfl h.body hk (by decide)) hk (by decide)
  obtain ⟨opening, inner, hopening, hinner, rfl⟩ := (admits_seq_iff rfl).1 hparenthesized.body
  obtain ⟨value, closing, hvalue, hclosing, rfl⟩ := (admits_seq_iff rfl).1 hinner
  have hvalues : (separated comma expression).Admits (value ++ []) := hvalue.seq rfl (.done rfl)
  rw [List.append_nil] at hvalues
  exact .rule (hopening.seq rfl ((hvalues.present rfl).seq rfl hclosing))

theorem absorbs_postfixExpression : (rule postfixExpression).Absorbs lpar := by
  apply Absorbs.rule
  intro us vs hu hv hk
  obtain ⟨callee, calls, hcallee, hcalls, rfl⟩ := (admits_seq_iff rfl).1 hu
  obtain ⟨value, later, hvalue, hlater, rfl⟩ := (admits_seq_iff rfl).1 hv
  rw [nextIn_append_of_ne_nil (hvalue.ne_nil rfl)] at hk
  have hcall := (admits_callSuffix hvalue hk).more rfl (by decide) hlater
  rw [List.append_assoc]
  exact hcallee.seq rfl (hcalls.many_append rfl (by decide) hcall)

theorem absorbs_prefixExpression : (rule prefixExpression).Absorbs lpar := by
  intro us vs hu hv hk
  have hvalue : (rule postfixExpression).Admits vs := .of_right rfl hv.body hk (by decide)
  -- signs before the operand stay before it
  induction hn : us.length using Nat.strong_induction_on generalizing us with
  | _ n ih =>
    rcases (admits_alt_iff rfl).1 hu.body with hsigned | hplain
    · obtain ⟨sign, operand, hsign, hoperand, rfl⟩ := (admits_seq_iff rfl).1 hsigned.body
      have hshorter : operand.length < n := by
        have := List.length_pos_iff.2 (hsign.ne_nil rfl)
        rw [List.length_append] at hn
        omega
      rw [List.append_assoc]
      exact .rule (.left rfl (.rule (hsign.seq rfl (ih _ hshorter operand hoperand rfl))))
    · exact .rule (.right rfl (absorbs_postfixExpression us vs hplain hvalue hk))

/-- A product that begins with a minus sign is the sign and a product. -/
theorem exists_negated (h : (rule multiplicative).Admits ts) (hk : nextIn [minus] ts = true) :
    ∃ sign rest, ts = sign :: rest ∧ sign.kind = .terminal minus ∧
      (rule multiplicative).Admits rest := by
  obtain ⟨first, others, hfirst, hothers, rfl⟩ := (admits_seq_iff rfl).1 h.body
  rw [nextIn_append_of_ne_nil (hfirst.ne_nil rfl)] at hk
  have hsigned : (rule unaryExpression).Admits first := .of_left rfl hfirst.body hk (by decide)
  obtain ⟨signs, operand, hsign, hoperand, rfl⟩ := (admits_seq_iff rfl).1 hsigned.body
  obtain ⟨sign, -, rfl⟩ := admits_oneOf_iff.1 hsign
  have hminus : sign.kind = .terminal minus := nextIn_singleton_iff.1 hk
  exact ⟨sign, operand ++ others, rfl, hminus, .rule (hoperand.seq rfl hothers)⟩

/-- A minus sign behind a sum begins a difference. -/
theorem absorbs_additive_minus : (rule additive).Absorbs minus := by
  apply Absorbs.rule
  intro us vs hu hv hk
  obtain ⟨first, others, hfirst, hothers, rfl⟩ := (admits_seq_iff rfl).1 hu
  obtain ⟨next, later, hnext, hlater, rfl⟩ := (admits_seq_iff rfl).1 hv
  rw [nextIn_append_of_ne_nil (hnext.ne_nil rfl)] at hk
  obtain ⟨sign, rest, rfl, hsign, hrest⟩ := exists_negated hnext hk
  have hsigned : (oneOf [plus, minus]).Admits [sign] :=
    admits_oneOf_iff.2 ⟨sign, ⟨minus, by decide, hsign⟩, rfl⟩
  have hdifference := (hsigned.seq rfl hrest).more rfl (by decide) hlater
  rw [List.append_assoc]
  exact hfirst.seq rfl (hothers.many_append rfl (by decide) hdifference)

/-- An expression behind another one that begins with a parenthesis or a minus sign makes one
expression with it. -/
theorem absorbs_expression {k : Terminal} (hk : k ∈ [lpar, minus]) : expression.Absorbs k := by
  have hadditive : (rule additive).Absorbs k := by
    simp only [List.mem_cons, List.not_mem_nil, or_false] at hk
    rcases hk with rfl | rfl
    · have hmultiplicative : (rule multiplicative).Absorbs lpar :=
        .rule (absorbs_prefixExpression.separated rfl multiplicative.isClear_body)
      exact .rule (hmultiplicative.separated rfl additive.isClear_body)
    · exact absorbs_additive_minus
  have hcomparison : (rule comparison).Absorbs k :=
    .rule (hadditive.separated rfl comparison.isClear_body)
  have hequality : (rule equality).Absorbs k :=
    .rule (hcomparison.separated rfl equality.isClear_body)
  have hconjunction : (rule conjunction).Absorbs k :=
    .rule (hequality.separated rfl conjunction.isClear_body)
  exact .rule (hconjunction.separated rfl disjunction.isClear_body)

end Rule

end Mykt
