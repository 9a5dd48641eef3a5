import Mykt.Proofs.Grammar.Lookahead

/-!
How the tokens ahead decide. Main statements: the reader takes every derivation whose choices the
tokens ahead confirm; two tokens tell an assignment from an expression; and where a tree was read,
none of the terminals that it omits comes next, and nothing else about what follows matters.
-/

namespace Mykt

namespace Pattern

section

variable {p : Pattern} {xs : List Tree} {rest : List Token}

/-- The reader takes a derivation that the tokens ahead confirm. -/
theorem Reads.run_eq (h : p.Reads xs rest) (hp : p.isProper = true) (hr : p.rank ≤ 64) :
    p.run (Tree.tokensOf xs ++ rest) = .ok (xs, rest) := by
  induction h with
  | empty => exact run_empty _
  | oneOf hk ht =>
    have hnext : nextIn _ [_] = true := nextIn_cons_iff.2 ⟨_, hk, ht⟩
    simp [Tree.tokensOf, Tree.tokens, run_oneOf_cons, hnext]
  | @rule r cs rest _ ih =>
    have hb := r.rank_body_lt
    have hl := r.rank_lt
    rw [Tree.tokensOf_singleton, Rule.tokens_wrap, run_rule, ih r.isProper_body (by omega)]
    rfl
  | @seq p q xs ys rest _ _ ihp ihq =>
    rw [run_seq hp hr, Tree.tokensOf_append, List.append_assoc]
    simp only [isProper, Bool.and_eq_true, decide_eq_true_eq] at hp
    simp only [rank] at hr
    rw [ihp hp.1.1 (by omega), Except.bind, ihq hp.1.2 (by omega)]
    rfl
  | left hs _ ih =>
    rw [run_alt hp hr, if_pos hs]
    simp only [isProper, Bool.and_eq_true] at hp
    simp only [rank] at hr
    exact ih hp.1 (by omega)
  | right hs _ ih =>
    rw [run_alt hp hr, if_neg (by simp [hs])]
    simp only [isProper, Bool.and_eq_true] at hp
    simp only [rank] at hr
    exact ih hp.2 (by omega)
  | absent hs => rw [run_opt hp hr, Tree.tokensOf, List.nil_append, if_neg (by simp [hs])]
  | present hs _ ih =>
    rw [run_opt hp hr, if_pos hs]
    simp only [rank] at hr
    exact ih hp (by omega)
  | done hs => rw [run_many hp, Tree.tokensOf, List.nil_append, if_neg (by simp [hs])]
  | more hs _ _ ihp ihq =>
    rw [run_many hp, Tree.tokensOf_append, List.append_assoc, if_pos hs]
    have hm := hp
    simp only [isProper, Bool.and_eq_true, decide_eq_true_eq] at hp
    rw [ihp hp.1.1 (by omega), Except.bind, ihq hm hr]
    rfl

end

end Pattern

namespace Rule

/-- Rules below which no equals sign stands. -/
def isEqualFree : Rule → Bool
  | simpleIdentifier | disjunction | conjunction | equality | comparison | additive
  | multiplicative | prefixExpression | unaryExpression | postfixExpression | callSuffix | primary
  | parenthesizedExpression | literal => true
  | _ => false

end Rule

namespace Pattern

def isEqualFree : Pattern → Bool
  | empty => true
  | oneOf ks => !ks.contains .equal
  | rule r => r.isEqualFree
  | seq p q => p.isEqualFree && q.isEqualFree
  | alt p q => p.isEqualFree && q.isEqualFree
  | opt p => p.isEqualFree
  | many p => p.isEqualFree

/-- No reading begins with a name and an equals sign. -/
def shunsAssignment : Pattern → Bool
  | alt p q => p.shunsAssignment && q.shunsAssignment
  | p => p.isEqualFree || !p.heads.contains .name

/-- The tokens ahead tell the alternatives of such a pattern apart, and whether an optional part
begins. Statements are the only parts that can go on with what may follow them. -/
def isClear : Pattern → Bool
  | empty => true
  | oneOf _ => true
  | rule _ => true
  | seq p q => p.isClear && q.isClear && apart p.tails q.heads
  | alt p q =>
    p.isClear && q.isClear && !p.isNullable && !q.isNullable &&
      if p = rule .assignment then q.shunsAssignment else p.isHeaded && apart p.heads q.heads
  | opt p => p.isClear && !p.isNullable && p.isHeaded
  | many p =>
    p.isClear && !p.isNullable && p.isHeaded && (apart p.tails p.heads || p = rule .statement)

end Pattern

theorem Rule.isEqualFree_body (r : Rule) (h : r.isEqualFree = true) :
    r.body.isEqualFree = true := by
  revert h
  cases r <;> decide

theorem Rule.isClear_body (r : Rule) : r.body.isClear = true := by
  cases r <;> decide

namespace Pattern

section

variable {p q : Pattern} {xs : List Tree} {ks : List Terminal} {rest : List Token}

theorem Derives.kind_ne_equal (h : p.Derives xs) (hp : p.isEqualFree = true) {t : Token}
    (ht : t ∈ Tree.tokensOf xs) : t.kind ≠ .terminal .equal := by
  induction h with
  | empty | absent | done => cases ht
  | @oneOf ks k u hk hu =>
    obtain rfl : t = u := by simpa [Tree.tokensOf, Tree.tokens] using ht
    intro he
    obtain rfl : k = .equal := by simpa using hu.symm.trans he
    simp [isEqualFree, hk] at hp
  | @rule r _ _ ih =>
    rw [Tree.tokensOf_singleton, Rule.tokens_wrap] at ht
    exact ih (r.isEqualFree_body hp) ht
  | seq _ _ ihp ihq =>
    simp only [isEqualFree, Bool.and_eq_true] at hp
    rw [Tree.tokensOf_append, List.mem_append] at ht
    rcases ht with ht | ht
    · exact ihp hp.1 ht
    · exact ihq hp.2 ht
  | left _ ih =>
    simp only [isEqualFree, Bool.and_eq_true] at hp
    exact ih hp.1 ht
  | right _ ih =>
    simp only [isEqualFree, Bool.and_eq_true] at hp
    exact ih hp.2 ht
  | present _ ih => exact ih hp ht
  | more _ _ ihp ihq =>
    rw [Tree.tokensOf_append, List.mem_append] at ht
    rcases ht with ht | ht
    · exact ihp hp ht
    · exact ihq hp ht

/-- Two tokens tell an assignment: a name and an equals sign. -/
theorem starts_assignment (ts : List Token) :
    (rule .assignment).starts ts = (nextIn [.name] ts && nextIn [.equal] ts.tail) := by
  simp [starts, Rule.starts, Rule.first]

theorem starts_assignment_of_derives (h : (rule .assignment).Derives xs) (rest : List Token) :
    (rule .assignment).starts (Tree.tokensOf xs ++ rest) = true := by
  obtain ⟨cs, hb, rfl⟩ := derives_rule_iff.1 h
  obtain ⟨ys, zs, hn, hz, rfl⟩ := derives_seq_iff.1 hb
  obtain ⟨us, vs, he, -, rfl⟩ := derives_seq_iff.1 hz
  obtain ⟨ns, hname, rfl⟩ := derives_rule_iff.1 hn
  obtain ⟨n, ⟨k, hk, hkind⟩, rfl⟩ := derives_oneOf_iff.1 hname
  obtain ⟨e, ⟨l, hl, hequal⟩, rfl⟩ := derives_oneOf_iff.1 he
  rw [Tree.tokensOf_singleton, Rule.tokens_wrap, Tree.tokensOf_append, Tree.tokensOf_singleton,
    Rule.tokens_wrap, Tree.tokensOf_append, starts_assignment, Bool.and_eq_true]
  exact ⟨nextIn_cons_iff.2 ⟨k, hk, hkind⟩, nextIn_cons_iff.2 ⟨l, hl, hequal⟩⟩

theorem starts_assignment_eq_false (h : p.Derives xs) (hp : p.shunsAssignment = true)
    (hx : Tree.tokensOf xs ≠ [])
    (hr : nextIn ((rule .assignment).rivals (Tree.tokensOf xs)) rest = false) :
    (rule .assignment).starts (Tree.tokensOf xs ++ rest) = false := by
  have plain {p : Pattern} (h : p.Derives xs)
      (hp : (p.isEqualFree || !p.heads.contains .name) = true) :
      (rule .assignment).starts (Tree.tokensOf xs ++ rest) = false := by
    have hhead := h.nextIn_heads hx
    rw [starts_assignment]
    apply Bool.eq_false_iff.2
    intro hboth
    rw [Bool.and_eq_true, nextIn_append_of_ne_nil hx] at hboth
    obtain ⟨hname, hequal⟩ := hboth
    rcases Bool.or_eq_true _ _ ▸ hp with hfree | hno
    · cases hts : Tree.tokensOf xs with
      | nil => exact hx hts
      | cons t ts =>
        rw [hts] at hname hequal hr
        cases ts with
        | nil =>
          have : (rule .assignment).rivals [t] = [.equal] := by simp [rivals, hname]
          rw [this] at hr
          exact Bool.eq_false_iff.1 hr hequal
        | cons u us =>
          obtain ⟨k, hk, hu⟩ := nextIn_cons_iff.1 hequal
          obtain rfl : k = .equal := by simpa using hk
          exact h.kind_ne_equal hfree (t := u) (by simp [hts]) hu
    · have hapart : apart [.name] p.heads = true := by simpa [apart] using hno
      exact Bool.eq_false_iff.1 (nextIn_eq_false_of_apart hapart hhead) hname
  induction p with
  | alt p q ihp ihq =>
    simp only [shunsAssignment, Bool.and_eq_true] at hp
    cases h with
    | left h => exact ihp h hp.1
    | right h => exact ihq h hp.2
  | _ => exact plain h hp

theorem Derives.starts (h : p.Derives xs) (hh : p.isHeaded = true) (hn : p.isNullable = false)
    (rest : List Token) : p.starts (Tree.tokensOf xs ++ rest) = true := by
  have htokens := h.tokensOf_ne_nil hn
  rw [starts_eq_nextIn hh, nextIn_append_of_ne_nil htokens]
  exact h.nextIn_heads htokens

/-- The tokens ahead tell that the first of two alternatives begins. -/
theorem Derives.starts_left (h : p.Derives xs) (hp : (alt p q).isClear = true)
    (rest : List Token) : p.starts (Tree.tokensOf xs ++ rest) = true := by
  simp only [isClear, Bool.and_eq_true, Bool.not_eq_true'] at hp
  obtain ⟨⟨-, hnull⟩, -⟩ := hp.1
  have hfirst := hp.2
  split at hfirst
  · next ha => exact ha ▸ starts_assignment_of_derives (ha ▸ h) rest
  · rw [Bool.and_eq_true] at hfirst
    exact h.starts hfirst.1 hnull rest

/-- The tokens ahead tell that the first of two alternatives does not begin where the second is. -/
theorem Derives.starts_right (h : q.Derives xs) (hp : (alt p q).isClear = true)
    (hr : nextIn (p.rivals (Tree.tokensOf xs)) rest = false) :
    p.starts (Tree.tokensOf xs ++ rest) = false := by
  simp only [isClear, Bool.and_eq_true, Bool.not_eq_true'] at hp
  have htokens := h.tokensOf_ne_nil hp.1.2
  have hfirst := hp.2
  split at hfirst
  · next ha =>
    subst ha
    exact starts_assignment_eq_false h hfirst htokens hr
  · rw [Bool.and_eq_true] at hfirst
    rw [starts_eq_nextIn hfirst.1, nextIn_append_of_ne_nil htokens]
    exact nextIn_eq_false_of_apart hfirst.2 (h.nextIn_heads htokens)

/-- What is read by a clear pattern omits only what does not come next, and is read before any other
tokens that do not come with what it omits. -/
theorem Reads.exists_omits (h : p.Reads xs rest) (hp : p.isClear = true) :
    ∃ ks, p.Omits xs ks ∧ nextIn ks rest = false ∧
      ∀ follow, nextIn ks follow = false → p.Reads xs follow := by
  have later {ks ls : List Terminal} {ys : List Tree} {rest : List Token}
      (hl : nextIn ls rest = false) (hk : nextIn ks (Tree.tokensOf ys ++ rest) = false) :
      nextIn (ls ++ if Tree.tokensOf ys = [] then ks else []) rest = false := by
    rw [nextIn_append_terminals, hl, Bool.false_or]
    split
    · next he => simpa [he] using hk
    · cases rest <;> rfl
  -- the trees behind hide what follows, or hold no tokens
  have hides {ks ls : List Terminal} {ys : List Tree} {rest follow : List Token}
      (hk : nextIn ks (Tree.tokensOf ys ++ rest) = false)
      (hf : nextIn (ls ++ if Tree.tokensOf ys = [] then ks else []) follow = false) :
      nextIn ls follow = false ∧ nextIn ks (Tree.tokensOf ys ++ follow) = false := by
    rw [nextIn_append_terminals, Bool.or_eq_false_iff] at hf
    refine ⟨hf.1, ?_⟩
    by_cases he : Tree.tokensOf ys = []
    · rw [he, List.nil_append]
      simpa [he] using hf.2
    · rw [nextIn_append_of_ne_nil he] at hk ⊢
      exact hk
  induction h with
  | @empty rest => exact ⟨_, .empty, by cases rest <;> rfl, fun _ _ => .empty⟩
  | @oneOf _ _ _ rest hk ht =>
    exact ⟨_, .oneOf hk ht, by cases rest <;> rfl, fun _ _ => .oneOf hk ht⟩
  | @rule r _ _ _ ih =>
    obtain ⟨ks, h, hn, hany⟩ := ih r.isClear_body
    exact ⟨ks, .rule h, hn, fun follow hf => .rule (hany follow hf)⟩
  | seq _ _ ihp ihq =>
    simp only [isClear, Bool.and_eq_true] at hp
    obtain ⟨ks, h, hk, hany⟩ := ihp hp.1.1
    obtain ⟨ls, h', hl, hany'⟩ := ihq hp.1.2
    refine ⟨_, .seq h h', later hl hk, ?_⟩
    intro follow hf
    obtain ⟨hlast, hfirst⟩ := hides hk hf
    exact .seq (hany _ hfirst) (hany' _ hlast)
  | left _ h ih =>
    have hclear := hp
    simp only [isClear, Bool.and_eq_true] at hp
    obtain ⟨ks, ho, hk, hany⟩ := ih hp.1.1.1.1
    refine ⟨ks, .left ho, hk, ?_⟩
    intro follow hf
    exact .left (h.derives.starts_left hclear follow) (hany follow hf)
  | @right p q ys rest hs h ih =>
    have hclear := hp
    simp only [isClear, Bool.and_eq_true] at hp
    obtain ⟨ks, ho, hk, hany⟩ := ih hp.1.1.1.2
    refine ⟨_, .right ho, ?_, ?_⟩
    · rw [nextIn_append_terminals, hk, Bool.false_or]
      unfold rivals
      split
      · next hr =>
        obtain ⟨rfl, hlength, hname⟩ := hr
        obtain ⟨t, ht⟩ := List.length_eq_one_iff.1 hlength
        rw [ht] at hs hname
        have hname : nextIn [.name] ([t] ++ rest) = true := hname
        rw [starts_assignment, hname, Bool.true_and] at hs
        exact hs
      · cases rest <;> rfl
    · intro follow hf
      rw [nextIn_append_terminals, Bool.or_eq_false_iff] at hf
      exact .right (h.derives.starts_right hclear hf.2) (hany follow hf.1)
  | absent hs =>
    simp only [isClear, Bool.and_eq_true] at hp
    refine ⟨_, .absent, by rwa [← starts_eq_nextIn hp.2], ?_⟩
    intro follow hf
    exact .absent (by rwa [starts_eq_nextIn hp.2])
  | present _ h ih =>
    simp only [isClear, Bool.and_eq_true, Bool.not_eq_true'] at hp
    obtain ⟨ks, ho, hk, hany⟩ := ih hp.1.1
    refine ⟨ks, .present ho, hk, ?_⟩
    intro follow hf
    exact .present (h.derives.starts hp.2 hp.1.2 follow) (hany follow hf)
  | done hs =>
    simp only [isClear, Bool.and_eq_true] at hp
    refine ⟨_, .done, by rwa [← starts_eq_nextIn hp.1.2], ?_⟩
    intro follow hf
    exact .done (by rwa [starts_eq_nextIn hp.1.2])
  | more _ h _ ihp ihq =>
    have hm := hp
    simp only [isClear, Bool.and_eq_true, Bool.not_eq_true'] at hp
    obtain ⟨ks, ho, hk, hany⟩ := ihp hp.1.1.1
    obtain ⟨ls, ho', hl, hany'⟩ := ihq hm
    refine ⟨_, .more ho ho', later hl hk, ?_⟩
    intro follow hf
    obtain ⟨hlast, hfirst⟩ := hides hk hf
    exact .more (h.derives.starts hp.1.2 hp.1.1.2 _) (hany _ hfirst) (hany' _ hlast)

end

end Pattern

end Mykt
