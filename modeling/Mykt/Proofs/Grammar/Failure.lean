import Mykt.Proofs.Grammar.Completion
import Mykt.Proofs.Grammar.Reading

/-!
Readings that go wrong. Main statements: where a reading stops, the tokens before could be
completed; a reading that stops at a token stops there whatever comes behind the token; so tokens
that are refused are refused at the first token that no file goes on with.
-/

namespace Mykt

namespace Pattern

/-- A reading that goes wrong as the reader goes about it: the tokens that it takes, and those
before which it stops. -/
inductive Fails : Pattern → List Token → List Token → Prop where
  | oneOf {ks : List Terminal} {rest : List Token} (h : nextIn ks rest = false) :
      Fails (oneOf ks) [] rest
  | rule {r : Rule} {taken rest : List Token} (h : Fails r.body taken rest) :
      Fails (rule r) taken rest
  | first {p q : Pattern} {taken rest : List Token} (h : Fails p taken rest) :
      Fails (seq p q) taken rest
  | second {p q : Pattern} {xs : List Tree} {taken rest : List Token}
      (hp : p.Reads xs (taken ++ rest)) (hq : Fails q taken rest) :
      Fails (seq p q) (Tree.tokensOf xs ++ taken) rest
  | left {p q : Pattern} {taken rest : List Token} (hs : p.starts (taken ++ rest) = true)
      (h : Fails p taken rest) : Fails (alt p q) taken rest
  | right {p q : Pattern} {taken rest : List Token} (hs : p.starts (taken ++ rest) = false)
      (h : Fails q taken rest) : Fails (alt p q) taken rest
  | present {p : Pattern} {taken rest : List Token} (hs : p.starts (taken ++ rest) = true)
      (h : Fails p taken rest) : Fails (opt p) taken rest
  | again {p : Pattern} {taken rest : List Token} (hs : p.starts (taken ++ rest) = true)
      (h : Fails p taken rest) : Fails (many p) taken rest
  | later {p : Pattern} {xs : List Tree} {taken rest : List Token}
      (hs : p.starts (Tree.tokensOf xs ++ (taken ++ rest)) = true)
      (hp : p.Reads xs (taken ++ rest)) (hq : Fails (many p) taken rest) :
      Fails (many p) (Tree.tokensOf xs ++ taken) rest

section

variable {p q : Pattern} {taken rest : List Token}

/-- With enough depth a reader that stops has taken tokens in such a way. -/
theorem fails_of_read {n : Nat} {ts : List Token} (h : read n p ts = .error rest)
    (hp : p.isProper = true) (hn : 64 * ts.length + p.rank ≤ n) :
    ∃ taken, ts = taken ++ rest ∧ p.Fails taken rest := by
  induction n generalizing p ts with
  | zero =>
    have := p.rank_pos
    omega
  | succ n ih =>
    cases p with
    | empty => simp [read] at h
    | oneOf ks =>
      cases ts with
      | nil =>
        simp only [read, Except.error.injEq] at h
        subst h
        exact ⟨[], rfl, .oneOf rfl⟩
      | cons t ts =>
        simp only [read] at h
        split at h
        · cases h
        · next hk =>
          simp only [Except.error.injEq] at h
          subst h
          exact ⟨[], rfl, .oneOf (by simpa [nextIn] using hk)⟩
    | rule r =>
      have hr := r.rank_body_lt
      simp only [rank] at hn
      simp only [read] at h
      split at h
      · next e hb =>
        cases h
        obtain ⟨taken, hts, hf⟩ := ih hb r.isProper_body (by omega)
        exact ⟨taken, hts, .rule hf⟩
      · cases h
    | seq p q =>
      simp only [isProper, Bool.and_eq_true, decide_eq_true_eq] at hp
      simp only [rank] at hn
      simp only [read] at h
      split at h
      · next e he =>
        cases h
        obtain ⟨taken, hts, hf⟩ := ih he hp.1.1 (by omega)
        exact ⟨taken, hts, .first hf⟩
      · next xs mid hread =>
        split at h
        · next e he =>
          cases h
          have hl := length_of_read hread
          have hmid : 64 * mid.length + q.rank ≤ n := by
            by_cases hnull : p.isNullable
            · simp only [hnull, if_true] at hn
              omega
            · have := hl.2 (by simpa using hnull)
              omega
          obtain ⟨hreads, rfl⟩ := reads_of_read hread
          obtain ⟨taken, rfl, hf⟩ := ih he hp.1.2 hmid
          exact ⟨_, (List.append_assoc _ _ _).symm, .second hreads hf⟩
        · cases h
    | alt p q =>
      simp only [isProper, Bool.and_eq_true] at hp
      simp only [rank] at hn
      simp only [read] at h
      split at h
      · next hs =>
        obtain ⟨taken, rfl, hf⟩ := ih h hp.1 (by omega)
        exact ⟨taken, rfl, .left hs hf⟩
      · next hs =>
        obtain ⟨taken, rfl, hf⟩ := ih h hp.2 (by omega)
        exact ⟨taken, rfl, .right (by simpa using hs) hf⟩
    | opt p =>
      simp only [rank] at hn
      simp only [read] at h
      split at h
      · next hs =>
        obtain ⟨taken, rfl, hf⟩ := ih h hp (by omega)
        exact ⟨taken, rfl, .present hs hf⟩
      · cases h
    | many p =>
      have hm := hp
      simp only [isProper, Bool.and_eq_true, Bool.not_eq_true'] at hp
      simp only [rank] at hn
      simp only [read] at h
      split at h
      · next hs =>
        split at h
        · next e he =>
          cases h
          obtain ⟨taken, rfl, hf⟩ := ih he hp.1.1 (by omega)
          exact ⟨taken, rfl, .again hs hf⟩
        · next xs mid hread =>
          split at h
          · next e he =>
            cases h
            have hl := (length_of_read hread).2 hp.1.2
            obtain ⟨hreads, rfl⟩ := reads_of_read hread
            obtain ⟨taken, rfl, hf⟩ := ih he hm (by simp only [rank]; omega)
            exact ⟨_, (List.append_assoc _ _ _).symm, .later hs hreads hf⟩
          · cases h
      · cases h

/-- The reader stops where such a reading does. -/
theorem Fails.run_eq (h : p.Fails taken rest) (hp : p.isProper = true) (hr : p.rank ≤ 64) :
    p.run (taken ++ rest) = .error rest := by
  induction h with
  | @oneOf ks rest h =>
    cases rest with
    | nil => exact run_oneOf_nil ks
    | cons t rest =>
      have hnext : nextIn ks [t] = false := h
      simp [run_oneOf_cons, hnext]
  | @rule r _ _ _ ih =>
    have hb := r.rank_body_lt
    have hl := r.rank_lt
    rw [run_rule, ih r.isProper_body (by omega)]
    rfl
  | first _ ih =>
    rw [run_seq hp hr]
    simp only [isProper, Bool.and_eq_true] at hp
    simp only [rank] at hr
    rw [ih hp.1.1 (by omega)]
    rfl
  | second hread _ ih =>
    rw [run_seq hp hr, List.append_assoc]
    simp only [isProper, Bool.and_eq_true, decide_eq_true_eq] at hp
    simp only [rank] at hr
    rw [hread.run_eq hp.1.1 (by omega), Except.bind, ih hp.1.2 (by omega)]
    rfl
  | left hs _ ih =>
    rw [run_alt hp hr, if_pos hs]
    simp only [isProper, Bool.and_eq_true] at hp
    simp only [rank] at hr
    exact ih hp.1 (by omega)
  | right hs _ ih =>
    rw [run_alt hp hr, if_neg (by simp [hs])]
    simp only [isProper, Bool.and_eq_true] at hp
    simp only [rank] at hr
    exact ih hp.2 (by omega)
  | present hs _ ih =>
    rw [run_opt hp hr, if_pos hs]
    simp only [rank] at hr
    exact ih hp (by omega)
  | again hs _ ih =>
    rw [run_many hp, if_pos hs]
    simp only [isProper, Bool.and_eq_true, decide_eq_true_eq] at hp
    rw [ih hp.1.1 (by omega)]
    rfl
  | later hs hread _ ih =>
    rw [run_many hp, List.append_assoc, if_pos hs]
    have hm := hp
    simp only [isProper, Bool.and_eq_true, decide_eq_true_eq] at hp
    rw [hread.run_eq hp.1.1 (by omega), Except.bind, ih hm hr]
    rfl

end

/-- What follows in a sequence has a finite text, and a name that does not begin an assignment
begins the other alternative. -/
def isCompletable : Pattern → Bool
  | empty => true
  | oneOf ks => !ks.isEmpty
  | rule _ => true
  | seq p q => p.isCompletable && q.isCompletable && q.isProductive 64
  | alt p q =>
    p.isCompletable && q.isCompletable && (p ≠ rule .assignment || q.heads.contains .name)
  | opt p => p.isCompletable
  | many p => p.isCompletable

end Pattern

theorem Rule.first_subset_heads_body (r : Rule) : r.first ⊆ r.body.heads := by
  cases r <;> decide

theorem Rule.isCompletable_body (r : Rule) : r.body.isCompletable = true := by
  cases r <;> decide +kernel

namespace Pattern

section

variable {p q : Pattern} {xs : List Tree} {taken rest : List Token}

/-- Where nothing is read, no head of the pattern comes next. -/
theorem Reads.nextIn_heads_eq_false (h : p.Reads xs rest) (hp : p.isClear = true)
    (hx : Tree.tokensOf xs = []) : nextIn p.heads rest = false := by
  induction h with
  | @empty rest => cases rest <;> rfl
  | oneOf => simp [Tree.tokensOf, Tree.tokens] at hx
  | @rule r _ _ _ ih =>
    rw [Tree.tokensOf_singleton, Rule.tokens_wrap] at hx
    exact nextIn_eq_false_of_subset r.first_subset_heads_body (ih r.isClear_body hx)
  | @seq p q xs ys rest _ _ ihp ihq =>
    simp only [isClear, Bool.and_eq_true] at hp
    rw [Tree.tokensOf_append, List.append_eq_nil_iff] at hx
    have hfirst := ihp hp.1.1 hx.1
    have hsecond := ihq hp.1.2 hx.2
    rw [hx.2, List.nil_append] at hfirst
    rw [heads, nextIn_append_terminals, hfirst, Bool.false_or]
    split
    · exact hsecond
    · cases rest <;> rfl
  | left _ h =>
    simp only [isClear, Bool.and_eq_true, Bool.not_eq_true'] at hp
    exact absurd hx (h.derives.tokensOf_ne_nil hp.1.1.2)
  | right _ h =>
    simp only [isClear, Bool.and_eq_true, Bool.not_eq_true'] at hp
    exact absurd hx (h.derives.tokensOf_ne_nil hp.1.2)
  | absent hs =>
    simp only [isClear, Bool.and_eq_true] at hp
    rwa [starts_eq_nextIn hp.2] at hs
  | present _ h =>
    simp only [isClear, Bool.and_eq_true, Bool.not_eq_true'] at hp
    exact absurd hx (h.derives.tokensOf_ne_nil hp.1.2)
  | done hs =>
    simp only [isClear, Bool.and_eq_true] at hp
    rwa [starts_eq_nextIn hp.1.2] at hs
  | more _ h =>
    simp only [isClear, Bool.and_eq_true, Bool.not_eq_true'] at hp
    rw [Tree.tokensOf_append, List.append_eq_nil_iff] at hx
    exact absurd hx.1 (h.derives.tokensOf_ne_nil hp.1.1.2)

/-- Where the first of two alternatives begins, one of its heads comes next. -/
theorem nextIn_heads_of_starts (hp : (alt p q).isClear = true) (h : p.starts rest = true) :
    nextIn p.heads rest = true := by
  simp only [isClear, Bool.and_eq_true] at hp
  have hfirst := hp.2
  split at hfirst
  · next ha =>
    subst ha
    rw [starts_assignment, Bool.and_eq_true] at h
    exact h.1
  · rw [Bool.and_eq_true] at hfirst
    rwa [starts_eq_nextIn hfirst.1] at h

/-- A reading that takes no token stops because no head of the pattern comes next. -/
theorem Fails.nextIn_heads_eq_false (h : p.Fails taken rest) (hp : p.isClear = true)
    (hc : p.isCompletable = true) (ht : taken = []) :
    p.isNullable = false ∧ nextIn p.heads rest = false := by
  induction h with
  | oneOf h => exact ⟨rfl, h⟩
  | @rule r _ _ _ ih =>
    obtain ⟨hnull, hheads⟩ := ih r.isClear_body r.isCompletable_body ht
    rw [r.isNullable_body] at hnull
    exact ⟨hnull, nextIn_eq_false_of_subset r.first_subset_heads_body hheads⟩
  | @first p q _ rest _ ih =>
    simp only [isClear, Bool.and_eq_true] at hp
    simp only [isCompletable, Bool.and_eq_true] at hc
    obtain ⟨hnull, hheads⟩ := ih hp.1.1 hc.1.1 ht
    simp [isNullable, heads, hnull, hheads]
  | @second p q xs _ rest hread _ ih =>
    simp only [isClear, Bool.and_eq_true] at hp
    simp only [isCompletable, Bool.and_eq_true] at hc
    rw [List.append_eq_nil_iff] at ht
    obtain ⟨hnull, hheads⟩ := ih hp.1.2 hc.1.2 ht.2
    rw [ht.2, List.nil_append] at hread
    have hfirst := hread.nextIn_heads_eq_false hp.1.1 ht.1
    refine ⟨by simp [isNullable, hnull], ?_⟩
    rw [heads, nextIn_append_terminals, hfirst, Bool.false_or]
    split
    · exact hheads
    · cases rest <;> rfl
  | left hs _ ih =>
    have hstarts := nextIn_heads_of_starts hp hs
    simp only [isClear, Bool.and_eq_true] at hp
    simp only [isCompletable, Bool.and_eq_true] at hc
    obtain ⟨-, hheads⟩ := ih hp.1.1.1.1 hc.1.1 ht
    rw [ht, List.nil_append, hheads] at hstarts
    cases hstarts
  | @right p q _ rest hs _ ih =>
    simp only [isClear, Bool.and_eq_true, Bool.not_eq_true'] at hp
    simp only [isCompletable, Bool.and_eq_true, Bool.or_eq_true, decide_eq_true_eq] at hc
    obtain ⟨hnull, hheads⟩ := ih hp.1.1.1.2 hc.1.2 ht
    rw [ht, List.nil_append] at hs
    refine ⟨by simp [isNullable, hnull, hp.1.1.2], ?_⟩
    rw [heads, nextIn_append_terminals, hheads, Bool.or_false]
    have hfirst := hp.2
    split at hfirst
    · next ha =>
      subst ha
      have hname : [Terminal.name] ⊆ q.heads := by simpa using hc.2
      exact nextIn_eq_false_of_subset hname hheads
    · rw [Bool.and_eq_true] at hfirst
      rwa [starts_eq_nextIn hfirst.1] at hs
  | present hs _ ih =>
    simp only [isClear, Bool.and_eq_true] at hp
    obtain ⟨-, hheads⟩ := ih hp.1.1 hc ht
    rw [ht, List.nil_append, starts_eq_nextIn hp.2, hheads] at hs
    cases hs
  | again hs _ ih =>
    simp only [isClear, Bool.and_eq_true] at hp
    obtain ⟨-, hheads⟩ := ih hp.1.1.1 hc ht
    rw [ht, List.nil_append, starts_eq_nextIn hp.1.2, hheads] at hs
    cases hs
  | later _ hread =>
    simp only [isClear, Bool.and_eq_true, Bool.not_eq_true'] at hp
    rw [List.append_eq_nil_iff] at ht
    exact absurd ht.1 (hread.derives.tokensOf_ne_nil hp.1.1.2)

theorem nextIn_append_cons (ks : List Terminal) (taken : List Token) (t : Token)
    (rest follow : List Token) :
    nextIn ks (taken ++ t :: rest) = nextIn ks (taken ++ t :: follow) := by
  cases taken <;> rfl

/-- Two tokens tell whether the first of two alternatives begins. -/
theorem starts_append_cons (hp : (alt p q).isClear = true) (ht : taken ≠ []) (t : Token)
    (rest follow : List Token) :
    p.starts (taken ++ t :: rest) = p.starts (taken ++ t :: follow) := by
  simp only [isClear, Bool.and_eq_true] at hp
  have hfirst := hp.2
  split at hfirst
  · next ha =>
    subst ha
    cases taken with
    | nil => exact absurd rfl ht
    | cons x taken =>
      rw [starts_assignment, starts_assignment]
      exact congrArg (nextIn [.name] [x] && ·) (nextIn_append_cons _ taken t rest follow)
  · rw [Bool.and_eq_true] at hfirst
    rw [starts_eq_nextIn hfirst.1, starts_eq_nextIn hfirst.1]
    exact nextIn_append_cons _ taken t rest follow

/-- What is read before a token is read whatever comes behind the token. -/
theorem Reads.before_token {t : Token} (h : p.Reads xs (taken ++ t :: rest))
    (hp : p.isClear = true) (follow : List Token) : p.Reads xs (taken ++ t :: follow) := by
  obtain ⟨ks, -, hk, hany⟩ := h.exists_omits hp
  apply hany
  rwa [nextIn_append_cons ks taken t follow rest]

/-- A reading that stops at a token stops there whatever comes behind the token. -/
theorem Fails.at_token {t : Token} (h : p.Fails taken (t :: rest)) (hp : p.isClear = true)
    (hc : p.isCompletable = true) (follow : List Token) : p.Fails taken (t :: follow) := by
  generalize hr : t :: rest = stop at h
  induction h with
  | oneOf h =>
    subst hr
    exact .oneOf h
  | @rule r _ _ _ ih => exact .rule (ih r.isClear_body r.isCompletable_body hr)
  | first _ ih =>
    simp only [isClear, Bool.and_eq_true] at hp
    simp only [isCompletable, Bool.and_eq_true] at hc
    exact .first (ih hp.1.1 hc.1.1 hr)
  | second hread _ ih =>
    simp only [isClear, Bool.and_eq_true] at hp
    simp only [isCompletable, Bool.and_eq_true] at hc
    subst hr
    exact .second (hread.before_token hp.1.1 follow) (ih hp.1.2 hc.1.2 rfl)
  | @left p q taken _ hs h ih =>
    have hclear := hp
    simp only [isClear, Bool.and_eq_true] at hp
    simp only [isCompletable, Bool.and_eq_true] at hc
    subst hr
    refine .left ?_ (ih hp.1.1.1.1 hc.1.1 rfl)
    by_cases ht : taken = []
    · -- the pattern begins here, so its reading takes a token
      have hstarts := nextIn_heads_of_starts hclear hs
      rw [ht, List.nil_append, (h.nextIn_heads_eq_false hp.1.1.1.1 hc.1.1 ht).2] at hstarts
      cases hstarts
    · rwa [starts_append_cons hclear ht t follow rest]
  | @right p q taken _ hs h ih =>
    have hclear := hp
    have hcomplete := hc
    simp only [isClear, Bool.and_eq_true] at hp
    simp only [isCompletable, Bool.and_eq_true] at hc
    subst hr
    refine .right ?_ (ih hp.1.1.1.2 hc.1.2 rfl)
    by_cases ht : taken = []
    · -- no head of either alternative comes next
      have hheads := ((Fails.right hs h).nextIn_heads_eq_false hclear hcomplete ht).2
      rw [heads, nextIn_append_terminals, Bool.or_eq_false_iff] at hheads
      rw [ht, List.nil_append]
      apply Bool.eq_false_iff.2
      intro hstarts
      have hnext : nextIn p.heads (t :: follow) = true := nextIn_heads_of_starts hclear hstarts
      exact Bool.eq_false_iff.1 hheads.1 hnext
    · rwa [starts_append_cons hclear ht t follow rest]
  | @present p taken _ hs _ ih =>
    simp only [isClear, Bool.and_eq_true] at hp
    subst hr
    refine .present ?_ (ih hp.1.1 hc rfl)
    rw [starts_eq_nextIn hp.2] at hs ⊢
    rwa [nextIn_append_cons _ taken t follow rest]
  | @again p taken _ hs _ ih =>
    simp only [isClear, Bool.and_eq_true] at hp
    subst hr
    refine .again ?_ (ih hp.1.1.1 hc rfl)
    rw [starts_eq_nextIn hp.1.2] at hs ⊢
    rwa [nextIn_append_cons _ taken t follow rest]
  | later _ hread _ ih =>
    have hclear := hp
    simp only [isClear, Bool.and_eq_true, Bool.not_eq_true'] at hp
    subst hr
    have hstarts := hread.derives.starts hp.1.2 hp.1.1.2
    exact .later (hstarts _) (hread.before_token hp.1.1.1 follow) (ih hclear hc rfl)

/-- What was read before some tokens is read before every text that begins with them. -/
theorem Reads.before_taken (h : p.Reads xs (taken ++ rest)) (hp : p.isClear = true)
    (ht : taken ≠ []) (follow : List Token) : p.Reads xs (taken ++ follow) := by
  obtain ⟨ks, -, hk, hany⟩ := h.exists_omits hp
  apply hany
  rwa [nextIn_append_of_ne_nil ht] at hk ⊢

/-- The tokens that a reading takes before it stops can be completed. -/
theorem Fails.exists_completion (h : p.Fails taken rest) (hp : p.isClear = true)
    (hc : p.isCompletable = true) :
    ∃ xs more, p.Accepts xs ∧ Tree.tokensOf xs = taken ++ more ∧ ∀ x ∈ more, x.IsSpelled := by
  induction h with
  | @oneOf ks _ _ =>
    have hproductive : (Pattern.oneOf ks).isProductive 1 = true := hc
    obtain ⟨xs, haccepts, hspelled⟩ := exists_accepts hproductive rfl
    exact ⟨xs, _, haccepts, rfl, hspelled⟩
  | @rule r _ _ _ ih =>
    obtain ⟨cs, more, haccepts, htokens, hspelled⟩ := ih r.isClear_body r.isCompletable_body
    refine ⟨[r.wrap cs], more, haccepts.rule, ?_, hspelled⟩
    rw [Tree.tokensOf_singleton, Rule.tokens_wrap, htokens]
  | first _ ih =>
    have hclear := hp
    simp only [isClear, Bool.and_eq_true] at hp
    simp only [isCompletable, Bool.and_eq_true] at hc
    obtain ⟨xs, more, hx, htokens, hspelled⟩ := ih hp.1.1 hc.1.1
    obtain ⟨ys, hy, hspelled'⟩ := exists_accepts hc.2 hp.1.2
    refine ⟨xs ++ ys, more ++ Tree.tokensOf ys, hx.seq hclear hy, ?_, ?_⟩
    · rw [Tree.tokensOf_append, htokens, List.append_assoc]
    · exact List.forall_mem_append.2 ⟨hspelled, hspelled'⟩
  | @second p q xs taken rest hread h ih =>
    simp only [isClear, Bool.and_eq_true] at hp
    simp only [isCompletable, Bool.and_eq_true] at hc
    obtain ⟨ys, more, hy, htokens, hspelled⟩ := ih hp.1.2 hc.1.2
    refine ⟨xs ++ ys, more, hy.seq_of_reads ?_, ?_, hspelled⟩
    · intro follow _
      by_cases ht : taken = []
      · -- the second part holds tokens, and the first cannot go on with them
        have hnull := (h.nextIn_heads_eq_false hp.1.2 hc.1.2 ht).1
        have hholds := hy.derives.tokensOf_ne_nil hnull
        obtain ⟨ks, homits, -, hany⟩ := hread.exists_omits hp.1.1
        apply hany
        rw [nextIn_append_of_ne_nil hholds]
        apply nextIn_eq_false_of_subset homits.subset_tails
        exact nextIn_eq_false_of_apart hp.2 (hy.derives.nextIn_heads hholds)
      · rw [htokens, List.append_assoc]
        exact hread.before_taken hp.1.1 ht _
    · rw [Tree.tokensOf_append, htokens, List.append_assoc]
  | left _ _ ih =>
    have hclear := hp
    simp only [isClear, Bool.and_eq_true] at hp
    simp only [isCompletable, Bool.and_eq_true] at hc
    obtain ⟨xs, more, hx, htokens⟩ := ih hp.1.1.1.1 hc.1.1
    exact ⟨xs, more, hx.left hclear, htokens⟩
  | right _ _ ih =>
    have hclear := hp
    simp only [isClear, Bool.and_eq_true] at hp
    simp only [isCompletable, Bool.and_eq_true] at hc
    obtain ⟨xs, more, hx, htokens⟩ := ih hp.1.1.1.2 hc.1.2
    exact ⟨xs, more, hx.right hclear, htokens⟩
  | present _ _ ih =>
    have hclear := hp
    simp only [isClear, Bool.and_eq_true] at hp
    obtain ⟨xs, more, hx, htokens⟩ := ih hp.1.1 hc
    exact ⟨xs, more, hx.present hclear, htokens⟩
  | again _ _ ih =>
    have hclear := hp
    simp only [isClear, Bool.and_eq_true] at hp
    obtain ⟨xs, more, hx, htokens⟩ := ih hp.1.1.1 hc
    exact ⟨xs, more, hx.once hclear, htokens⟩
  | @later p xs taken rest _ hread h ih =>
    have hclear := hp
    simp only [isClear, Bool.and_eq_true] at hp
    obtain ⟨ys, more, hy, htokens, hspelled⟩ := ih hclear hc
    -- a repetition that takes no token does not stop
    have ht : taken ≠ [] := by
      intro ht
      have hnull := (h.nextIn_heads_eq_false hclear hc ht).1
      cases hnull
    refine ⟨xs ++ ys, more, hy.more_of_reads hclear ?_, ?_, hspelled⟩
    · intro follow _
      rw [htokens, List.append_assoc]
      exact hread.before_taken hp.1.1.1 ht _
    · rw [Tree.tokensOf_append, htokens, List.append_assoc]

end

end Pattern

/-- Tokens that a file can begin with: some that can be written complete them. -/
def BeginsFile (ts : List Token) : Prop :=
  ∃ more t, (∀ x ∈ more, x.IsSpelled) ∧ parseTokens (ts ++ more) = .ok t

theorem beginsFile_of_reads {cs : List Tree} {more ts : List Token}
    (h : Rule.file.body.Reads cs []) (htokens : Tree.tokensOf cs = ts ++ more)
    (hspelled : ∀ x ∈ more, x.IsSpelled) : BeginsFile ts := by
  refine ⟨more, Rule.file.wrap cs, hspelled, parseTokens_eq_ok_iff_reads.2 ⟨.rule h, ?_⟩⟩
  rw [Rule.tokens_wrap, htokens]

/-- Tokens that are refused can be completed up to where reading stops, and no file begins with them
and the token at which it stops. -/
theorem exists_taken_of_error {ts rest : List Token} (h : parseTokens ts = .error rest) :
    ∃ taken, ts = taken ++ rest ∧ BeginsFile taken ∧ ∀ t behind, rest = t :: behind →
      ∀ more, parseTokens (taken ++ t :: more) = .error (t :: more) := by
  have hproper := Rule.file.isProper_body
  have hrank : Rule.file.body.rank ≤ 64 := by decide
  have hclear := Rule.file.isClear_body
  have hcomplete := Rule.file.isCompletable_body
  unfold parseTokens at h
  split at h
  · next e he =>
    cases h
    have hdepth : 64 * ts.length + Rule.file.body.rank ≤ readingDepth ts := by
      unfold readingDepth
      omega
    obtain ⟨taken, hts, hfails⟩ := Pattern.fails_of_read he hproper hdepth
    refine ⟨taken, hts, ?_, ?_⟩
    · obtain ⟨cs, more, haccepts, htokens, hspelled⟩ := hfails.exists_completion hclear hcomplete
      exact beginsFile_of_reads (haccepts [] rfl) htokens hspelled
    · rintro t behind rfl more
      have hrun := (hfails.at_token hclear hcomplete more).run_eq hproper hrank
      simp only [parseTokens, hrun]
  · cases h
  · next cs t behind hrun =>
    cases h
    obtain ⟨hreads, hts⟩ := Pattern.reads_of_read hrun
    refine ⟨Tree.tokensOf cs, hts, ?_, ?_⟩
    · obtain ⟨ks, -, -, hany⟩ := hreads.exists_omits hclear
      have htokens : Tree.tokensOf cs = Tree.tokensOf cs ++ [] := by simp
      exact beginsFile_of_reads (hany [] rfl) htokens (fun _ hx => absurd hx List.not_mem_nil)
    · intro u after hu more
      obtain ⟨rfl, rfl⟩ := List.cons.inj hu
      have hreads : Rule.file.body.Reads cs ([] ++ t :: behind) := hreads
      have hbefore : Rule.file.body.Reads cs (t :: more) := hreads.before_token hclear more
      simp only [parseTokens, hbefore.run_eq hproper hrank]

end Mykt
