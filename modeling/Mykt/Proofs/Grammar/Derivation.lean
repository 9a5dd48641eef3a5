import Mykt.Proofs.Token.Placement
import Mykt.Grammar.Parser

/-!
Trees that the grammar allows. A pattern derives a list of trees when the children of a node may
follow it. Main statements: what is read by a pattern is derived by it and holds the tokens read, so
every node of a parsed tree follows its rule and every token stands in the text.
-/

namespace Mykt

namespace Tree

theorem tokensOf_append (xs ys : List Tree) :
    tokensOf (xs ++ ys) = tokensOf xs ++ tokensOf ys := by
  induction xs with
  | nil => rfl
  | cons x xs ih => simp [tokensOf, ih]

theorem tokensOf_singleton (t : Tree) : tokensOf [t] = t.tokens := by
  simp [tokensOf]

theorem tokensOf_eq_flatMap (ts : List Tree) : tokensOf ts = ts.flatMap tokens := by
  induction ts with
  | nil => rfl
  | cons t ts ih => simp [tokensOf, ih]

theorem tokens_subset_of_mem {t : Tree} {ts : List Tree} (h : t ∈ ts) :
    t.tokens ⊆ tokensOf ts := by
  intro x hx
  rw [tokensOf_eq_flatMap]
  exact List.mem_flatMap.2 ⟨t, h, hx⟩

end Tree

theorem Rule.tokens_wrap (r : Rule) (cs : List Tree) : (r.wrap cs).tokens = Tree.tokensOf cs := by
  unfold Rule.wrap
  split
  · split
    · simp [Tree.tokensOf_singleton]
    · rfl
  · rfl

theorem Rule.wrap_of_not_inlines {r : Rule} (h : r.inlines = false) (cs : List Tree) :
    r.wrap cs = .node (.rule r) cs := by
  unfold Rule.wrap
  split <;> simp [h]

namespace Pattern

/-- The lists of trees that a pattern allows. -/
inductive Derives : Pattern → List Tree → Prop where
  | empty : Derives empty []
  | oneOf {ks : List Terminal} {k : Terminal} {t : Token} (hk : k ∈ ks)
      (ht : t.kind = .terminal k) : Derives (oneOf ks) [.leaf t]
  | rule {r : Rule} {cs : List Tree} (h : Derives r.body cs) : Derives (rule r) [r.wrap cs]
  | seq {p q : Pattern} {xs ys : List Tree} (hp : Derives p xs) (hq : Derives q ys) :
      Derives (seq p q) (xs ++ ys)
  | left {p q : Pattern} {xs : List Tree} (h : Derives p xs) : Derives (alt p q) xs
  | right {p q : Pattern} {xs : List Tree} (h : Derives q xs) : Derives (alt p q) xs
  | absent {p : Pattern} : Derives (opt p) []
  | present {p : Pattern} {xs : List Tree} (h : Derives p xs) : Derives (opt p) xs
  | done {p : Pattern} : Derives (many p) []
  | more {p : Pattern} {xs ys : List Tree} (hp : Derives p xs) (hq : Derives (many p) ys) :
      Derives (many p) (xs ++ ys)

section

variable {p q : Pattern} {xs : List Tree}

theorem derives_oneOf_iff {ks : List Terminal} :
    Derives (oneOf ks) xs ↔ ∃ t : Token, (∃ k ∈ ks, t.kind = .terminal k) ∧ xs = [.leaf t] := by
  constructor
  · intro h
    cases h with
    | oneOf hk ht => exact ⟨_, ⟨_, hk, ht⟩, rfl⟩
  · intro hx
    obtain ⟨t, ⟨k, hk, ht⟩, rfl⟩ := hx
    exact .oneOf hk ht

theorem derives_rule_iff {r : Rule} :
    Derives (rule r) xs ↔ ∃ cs, Derives r.body cs ∧ xs = [r.wrap cs] := by
  constructor
  · intro h
    cases h with
    | rule h => exact ⟨_, h, rfl⟩
  · intro hx
    obtain ⟨cs, h, rfl⟩ := hx
    exact .rule h

theorem derives_seq_iff :
    Derives (seq p q) xs ↔ ∃ ys zs, Derives p ys ∧ Derives q zs ∧ xs = ys ++ zs := by
  constructor
  · intro h
    cases h with
    | seq hp hq => exact ⟨_, _, hp, hq, rfl⟩
  · intro hx
    obtain ⟨ys, zs, hp, hq, rfl⟩ := hx
    exact .seq hp hq

/-- Repetition is any list of readings, one after the other. -/
theorem derives_many_iff :
    Derives (many p) xs ↔ ∃ yss : List (List Tree), (∀ ys ∈ yss, Derives p ys) ∧ xs = yss.flatten := by
  constructor
  · intro h
    generalize hm : many p = m at h
    induction h with
    | done => exact ⟨[], by simp⟩
    | more hp _ _ ih =>
      obtain rfl : p = _ := Pattern.many.inj hm
      obtain ⟨yss, hy, rfl⟩ := ih rfl
      exact ⟨_ :: yss, by simpa using ⟨hp, hy⟩, rfl⟩
    | _ => cases hm
  · intro hx
    obtain ⟨yss, hy, rfl⟩ := hx
    induction yss with
    | nil => exact .done
    | cons ys yss ih =>
      simp only [List.mem_cons, forall_eq_or_imp] at hy
      exact .more hy.1 (ih hy.2)

end

/-- A derivation as the reader goes about it, before the tokens that are left: the tokens ahead
decide on every alternative and on every optional part. -/
inductive Reads : Pattern → List Tree → List Token → Prop where
  | empty {rest : List Token} : Reads empty [] rest
  | oneOf {ks : List Terminal} {k : Terminal} {t : Token} {rest : List Token} (hk : k ∈ ks)
      (ht : t.kind = .terminal k) : Reads (oneOf ks) [.leaf t] rest
  | rule {r : Rule} {cs : List Tree} {rest : List Token} (h : Reads r.body cs rest) :
      Reads (rule r) [r.wrap cs] rest
  | seq {p q : Pattern} {xs ys : List Tree} {rest : List Token}
      (hp : Reads p xs (Tree.tokensOf ys ++ rest)) (hq : Reads q ys rest) :
      Reads (seq p q) (xs ++ ys) rest
  | left {p q : Pattern} {xs : List Tree} {rest : List Token}
      (hs : p.starts (Tree.tokensOf xs ++ rest) = true) (h : Reads p xs rest) :
      Reads (alt p q) xs rest
  | right {p q : Pattern} {xs : List Tree} {rest : List Token}
      (hs : p.starts (Tree.tokensOf xs ++ rest) = false) (h : Reads q xs rest) :
      Reads (alt p q) xs rest
  | absent {p : Pattern} {rest : List Token} (hs : p.starts rest = false) :
      Reads (opt p) [] rest
  | present {p : Pattern} {xs : List Tree} {rest : List Token}
      (hs : p.starts (Tree.tokensOf xs ++ rest) = true) (h : Reads p xs rest) :
      Reads (opt p) xs rest
  | done {p : Pattern} {rest : List Token} (hs : p.starts rest = false) : Reads (many p) [] rest
  | more {p : Pattern} {xs ys : List Tree} {rest : List Token}
      (hs : p.starts (Tree.tokensOf xs ++ (Tree.tokensOf ys ++ rest)) = true)
      (hp : Reads p xs (Tree.tokensOf ys ++ rest)) (hq : Reads (many p) ys rest) :
      Reads (many p) (xs ++ ys) rest

theorem Reads.derives {p : Pattern} {xs : List Tree} {rest : List Token} (h : Reads p xs rest) :
    p.Derives xs := by
  induction h with
  | empty => exact .empty
  | oneOf hk ht => exact .oneOf hk ht
  | rule _ ih => exact .rule ih
  | seq _ _ ihp ihq => exact .seq ihp ihq
  | left _ _ ih => exact .left ih
  | right _ _ ih => exact .right ih
  | absent => exact .absent
  | present _ _ ih => exact .present ih
  | done => exact .done
  | more _ _ _ ihp ihq => exact .more ihp ihq

/-- The reader makes such derivations only, and their tokens are those that it takes. -/
theorem reads_of_read {n : Nat} {p : Pattern} {ts rest : List Token} {xs : List Tree}
    (h : read n p ts = .ok (xs, rest)) : p.Reads xs rest ∧ ts = Tree.tokensOf xs ++ rest := by
  induction n generalizing p ts xs rest with
  | zero => simp [read] at h
  | succ n ih =>
    cases p with
    | empty =>
      simp only [read, Except.ok.injEq, Prod.mk.injEq] at h
      obtain ⟨rfl, rfl⟩ := h
      exact ⟨.empty, rfl⟩
    | oneOf ks =>
      cases ts with
      | nil => simp [read] at h
      | cons t ts =>
        simp only [read] at h
        split at h
        · next hk =>
          simp only [Except.ok.injEq, Prod.mk.injEq] at h
          obtain ⟨rfl, rfl⟩ := h
          obtain ⟨k, hk, ht⟩ : ∃ k ∈ ks, t.kind = .terminal k := by simpa [nextIn] using hk
          exact ⟨.oneOf hk ht, rfl⟩
        · simp at h
    | rule r =>
      simp only [read] at h
      split at h
      · simp at h
      · next cs mid hb =>
        simp only [Except.ok.injEq, Prod.mk.injEq] at h
        obtain ⟨rfl, rfl⟩ := h
        obtain ⟨hd, ht⟩ := ih hb
        exact ⟨.rule hd, by rw [Tree.tokensOf_singleton, Rule.tokens_wrap, ht]⟩
    | seq p q =>
      simp only [read] at h
      split at h
      · simp at h
      · next ys mid hp =>
        split at h
        · simp at h
        · next zs rest' hq =>
          simp only [Except.ok.injEq, Prod.mk.injEq] at h
          obtain ⟨rfl, rfl⟩ := h
          obtain ⟨rp, rfl⟩ := ih hp
          obtain ⟨rq, rfl⟩ := ih hq
          exact ⟨.seq rp rq, by rw [Tree.tokensOf_append, List.append_assoc]⟩
    | alt p q =>
      simp only [read] at h
      split at h
      · next hs =>
        obtain ⟨rp, rfl⟩ := ih h
        exact ⟨.left hs rp, rfl⟩
      · next hs =>
        obtain ⟨rq, rfl⟩ := ih h
        exact ⟨.right (by simpa using hs) rq, rfl⟩
    | opt p =>
      simp only [read] at h
      split at h
      · next hs =>
        obtain ⟨rp, rfl⟩ := ih h
        exact ⟨.present hs rp, rfl⟩
      · next hs =>
        simp only [Except.ok.injEq, Prod.mk.injEq] at h
        obtain ⟨rfl, rfl⟩ := h
        exact ⟨.absent (by simpa using hs), rfl⟩
    | many p =>
      simp only [read] at h
      split at h
      · next hs =>
        split at h
        · simp at h
        · next ys mid hp =>
          split at h
          · simp at h
          · next zs rest' hq =>
            simp only [Except.ok.injEq, Prod.mk.injEq] at h
            obtain ⟨rfl, rfl⟩ := h
            obtain ⟨rp, rfl⟩ := ih hp
            obtain ⟨rq, rfl⟩ := ih hq
            exact ⟨.more hs rp rq, by rw [Tree.tokensOf_append, List.append_assoc]⟩
      · next hs =>
        simp only [Except.ok.injEq, Prod.mk.injEq] at h
        obtain ⟨rfl, rfl⟩ := h
        exact ⟨.done (by simpa using hs), rfl⟩

end Pattern

/-- A tree whose nodes all follow their rules and whose leaves are terminals. -/
inductive Tree.Conforms : Tree → Prop where
  | leaf {t : Token} {k : Terminal} (h : t.kind = .terminal k) : Conforms (.leaf t)
  | node {r : Rule} {cs : List Tree} (h : r.body.Derives cs) (hc : ∀ c ∈ cs, Conforms c) :
      Conforms (.node (.rule r) cs)

theorem Tree.Conforms.exists_terminal {t : Tree} (h : t.Conforms) {x : Token} (hx : x ∈ t.tokens) :
    ∃ k, x.kind = .terminal k := by
  induction h with
  | @leaf y k hk =>
    obtain rfl : x = y := by simpa [Tree.tokens] using hx
    exact ⟨k, hk⟩
  | node _ _ ih =>
    rw [Tree.tokens, Tree.tokensOf_eq_flatMap] at hx
    obtain ⟨c, hc, hx⟩ := List.mem_flatMap.1 hx
    exact ih c hc hx

theorem Tree.Conforms.exists_children {t : Tree} {r : Rule} (h : t.Conforms)
    (hk : t.kind = .rule r) : ∃ cs, t = .node (.rule r) cs := by
  cases h with
  | leaf ht => cases ht.symm.trans hk
  | @node _ cs => exact ⟨cs, by rw [show Kind.rule _ = .rule r from hk]⟩

theorem Rule.conforms_wrap {r : Rule} {cs : List Tree} (h : r.body.Derives cs)
    (hc : ∀ c ∈ cs, c.Conforms) : (r.wrap cs).Conforms := by
  unfold Rule.wrap
  split
  · split
    · exact hc _ (by simp)
    · exact .node h hc
  · exact .node h hc

theorem Pattern.Derives.conforms {p : Pattern} {xs : List Tree} (h : p.Derives xs) :
    ∀ x ∈ xs, x.Conforms := by
  induction h with
  | empty | absent | done => simp
  | oneOf hk ht => simpa using .leaf ht
  | rule hd ih => simpa using Rule.conforms_wrap hd ih
  | seq _ _ ihp ihq | more _ _ ihp ihq =>
    intro x hx
    rcases List.mem_append.1 hx with hx | hx
    · exact ihp x hx
    · exact ihq x hx
  | left _ ih | right _ ih | present _ ih => exact ih

theorem reads_of_parseTokens {ts : List Token} {t : Tree} (h : parseTokens ts = .ok t) :
    (Pattern.rule .file).Reads [t] [] ∧ t.tokens = ts := by
  unfold parseTokens at h
  split at h
  · cases h
  · next cs hread =>
    cases h
    obtain ⟨hr, ht⟩ := Pattern.reads_of_read hread
    exact ⟨.rule hr, by rw [Rule.tokens_wrap, ht, List.append_nil]⟩
  · cases h

theorem toOption_eq_some_iff {ε α : Type} {r : Except ε α} {a : α} :
    r.toOption = some a ↔ r = .ok a := by
  cases r <;> simp [Except.toOption]

/-- A text is read if its characters all make tokens and these are. -/
theorem parse_eq_ok_iff {source : String} {t : Tree} :
    parse source = .ok t ↔ (Lexer.scan source.toList).stop = none ∧
      parseTokens (Lexer.scan source.toList).tokens = .ok t := by
  constructor
  · intro h
    unfold parse parseChars at h
    simp only at h
    split at h <;> cases h
    next hs hp => exact ⟨hs, hp⟩
  · intro h
    obtain ⟨hs, hp⟩ := h
    simp only [parse, parseChars, hs, hp]

/-- A parsed tree is a file, follows the grammar, and holds the terminals of the text. -/
theorem conforms_of_parse {source : String} {t : Tree} (h : parse source = .ok t) :
    t.Conforms ∧ t.kind = .rule .file ∧ t.tokens = (Lexer.scan source.toList).tokens := by
  obtain ⟨hr, ht⟩ := reads_of_parseTokens (parse_eq_ok_iff.1 h).2
  have hd := hr.derives
  refine ⟨hd.conforms t List.mem_cons_self, ?_, ht⟩
  obtain ⟨cs, -, hcs⟩ := Pattern.derives_rule_iff.1 hd
  rw [(List.cons.inj hcs).1, Rule.wrap_of_not_inlines rfl]
  rfl

theorem standsIn_of_parse {source : String} {t : Tree} (h : parse source = .ok t) {x : Token}
    (hx : x ∈ t.tokens) : x.StandsIn source.toList := by
  rw [(conforms_of_parse h).2.2] at hx
  exact Lexer.standsIn_of_mem_scan hx

end Mykt
