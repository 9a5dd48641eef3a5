import Mykt.Proofs.Grammar.Decision
import Mykt.Proofs.Grammar.Greedy

/-!
The tree of a text is the only tree of the grammar over its tokens in which no statement ends too
early. Main statements: what is read is greedy, and a greedy derivation is read because the tokens
ahead confirm each of its choices.
-/

namespace Mykt

namespace Pattern

section

variable {p : Pattern} {xs : List Tree} {ks : List Terminal} {rest : List Token}

/-- What is read is greedy before the tokens that are left. -/
theorem Reads.stopsBefore (h : p.Reads xs rest) :
    ∀ y ∈ Tree.followedOf rest xs, y.1.StopsBefore y.2 := by
  induction h with
  | empty | absent | done => exact fun _ hy => nomatch hy
  | @oneOf _ _ t rest =>
    rw [Tree.followedOf_singleton]
    intro y hy
    obtain rfl := List.mem_singleton.1 hy
    exact Tree.stopsBefore_leaf t rest
  | @rule r cs rest h ih =>
    intro y hy
    rcases Tree.mem_followedOf_wrap hy with rfl | hy
    · obtain ⟨ks, ho, hn, -⟩ := h.exists_omits r.isClear_body
      exact ho.stopsBefore hn
    · exact ih y hy
  | seq _ _ ihp ihq | more _ _ _ ihp ihq =>
    rw [Tree.followedOf_append]
    exact List.forall_mem_append.2 ⟨ihp, ihq⟩
  | left _ _ ih | right _ _ ih | present _ _ ih => exact ih

/-- What may follow a reading does not go on with it: neither the trees after it, if they hold
tokens, nor the tokens that are left. -/
theorem nextIn_tokensOf_append {zs : List Tree} (hz : Tree.tokensOf zs ≠ [] →
    nextIn ks (Tree.tokensOf zs ++ rest) = false)
    (hn : nextIn (if Tree.tokensOf zs = [] then ks else []) rest = false) :
    nextIn ks (Tree.tokensOf zs ++ rest) = false := by
  by_cases he : Tree.tokensOf zs = []
  · rw [he, List.nil_append]
    rwa [if_pos he] at hn
  · exact hz he

/-- A derivation is read if its trees are greedy and nothing that it omits comes next. -/
theorem Omits.reads (h : p.Omits xs ks) (hp : p.isClear = true)
    (hg : ∀ y ∈ Tree.followedOf rest xs, y.1.StopsBefore y.2) (hn : nextIn ks rest = false) :
    p.Reads xs rest := by
  induction h generalizing rest with
  | empty => exact .empty
  | oneOf hk ht => exact .oneOf hk ht
  | @rule r cs _ _ ih =>
    have hg' : ∀ y ∈ Tree.followedOf rest cs, y.1.StopsBefore y.2 := by
      intro y hy
      exact hg y (Tree.followedOf_subset_wrap rest r cs hy)
    exact .rule (ih r.isClear_body hg' hn)
  | @seq p q ys zs _ _ hy hz ihp ihq =>
    simp only [isClear, Bool.and_eq_true] at hp
    rw [Tree.followedOf_append, List.forall_mem_append] at hg
    rw [nextIn_append_terminals, Bool.or_eq_false_iff] at hn
    refine .seq (ihp hp.1.1 hg.1 (nextIn_tokensOf_append ?_ hn.2)) (ihq hp.1.2 hg.2 hn.1)
    intro he
    rw [nextIn_append_of_ne_nil he]
    apply nextIn_eq_false_of_subset hy.subset_tails
    exact nextIn_eq_false_of_apart hp.2 (hz.derives.nextIn_heads he)
  | left h ih =>
    have hclear := hp
    simp only [isClear, Bool.and_eq_true] at hp
    exact .left (h.derives.starts_left hclear rest) (ih hp.1.1.1.1 hg hn)
  | right h ih =>
    have hclear := hp
    simp only [isClear, Bool.and_eq_true] at hp
    rw [nextIn_append_terminals, Bool.or_eq_false_iff] at hn
    exact .right (h.derives.starts_right hclear hn.2) (ih hp.1.1.1.2 hg hn.1)
  | absent =>
    simp only [isClear, Bool.and_eq_true] at hp
    exact .absent (by rwa [starts_eq_nextIn hp.2])
  | present h ih =>
    simp only [isClear, Bool.and_eq_true, Bool.not_eq_true'] at hp
    exact .present (h.derives.starts hp.2 hp.1.2 rest) (ih hp.1.1 hg hn)
  | done =>
    simp only [isClear, Bool.and_eq_true] at hp
    exact .done (by rwa [starts_eq_nextIn hp.1.2])
  | @more p ys zs _ _ hy hz ihp ihq =>
    have hm := hp
    simp only [isClear, Bool.and_eq_true, Bool.or_eq_true, Bool.not_eq_true',
      decide_eq_true_eq] at hp
    obtain ⟨⟨⟨hclear, hnull⟩, hheaded⟩, hlast⟩ := hp
    rw [Tree.followedOf_append, List.forall_mem_append] at hg
    rw [nextIn_append_terminals, Bool.or_eq_false_iff] at hn
    refine .more (hy.derives.starts hheaded hnull _)
      (ihp hclear hg.1 (nextIn_tokensOf_append ?_ hn.2)) (ihq hm hg.2 hn.1)
    intro he
    have hheads : nextIn p.heads (Tree.tokensOf zs ++ rest) = true := by
      rw [nextIn_append_of_ne_nil he]
      exact hz.derives.nextIn_heads he
    rcases hlast with hapart | rfl
    · exact nextIn_eq_false_of_subset hy.subset_tails (nextIn_eq_false_of_apart hapart hheads)
    · exact hy.nextIn_eq_false_of_stopsBefore hg.1 hheads

/-- The reader reads a file exactly if it follows the grammar and is greedy. -/
theorem reads_file_iff {t : Tree} :
    (rule .file).Reads [t] [] ↔ t.kind = .rule .file ∧ t.FollowsGrammar ∧ t.IsGreedy := by
  rw [← and_assoc, ← derives_file_iff]
  constructor
  · intro h
    refine ⟨h.derives, ?_⟩
    unfold Tree.IsGreedy
    rw [← Tree.followedOf_singleton]
    exact h.stopsBefore
  · intro h
    obtain ⟨hd, hg⟩ := h
    obtain ⟨ks, ho⟩ := hd.exists_omits
    unfold Tree.IsGreedy at hg
    rw [← Tree.followedOf_singleton] at hg
    exact ho.reads rfl hg rfl

end

end Pattern

theorem parseTokens_eq_ok_iff_reads {ts : List Token} {t : Tree} :
    parseTokens ts = .ok t ↔ (Pattern.rule .file).Reads [t] [] ∧ t.tokens = ts := by
  constructor
  · exact reads_of_parseTokens
  · intro h
    obtain ⟨hr, rfl⟩ := h
    generalize hx : [t] = xs at hr
    cases hr with
    | @rule _ cs _ hr =>
      obtain rfl : t = Rule.file.wrap cs := (List.cons.inj hx).1
      have hrun := hr.run_eq Rule.file.isProper_body (by decide)
      rw [List.append_nil] at hrun
      simp only [parseTokens, Rule.tokens_wrap, hrun]

/-- A file over the given tokens that the grammar allows and that is greedy. -/
structure Tree.IsReading (t : Tree) (ts : List Token) : Prop where
  isFile : t.kind = .rule .file
  followsGrammar : t.FollowsGrammar
  tokens_eq : t.walk.filterMap token? = ts
  isGreedy : t.IsGreedy

theorem parseTokens_eq_ok_iff {ts : List Token} {t : Tree} :
    parseTokens ts = .ok t ↔ t.IsReading ts := by
  rw [parseTokens_eq_ok_iff_reads, Pattern.reads_file_iff]
  constructor
  · intro h
    obtain ⟨⟨hfile, hgrammar, hgreedy⟩, htokens⟩ := h
    exact ⟨hfile, hgrammar, t.filterMap_walk.trans htokens, hgreedy⟩
  · intro h
    exact ⟨⟨h.isFile, h.followsGrammar, h.isGreedy⟩, t.filterMap_walk.symm.trans h.tokens_eq⟩

/-- Reading accepts exactly the greedy trees of the grammar over all the tokens, so tokens have at
most one tree; a text is read if its characters all make tokens. -/
theorem parse_iff_isReading :
    (∀ (ts : List Token) (t : Tree), parseTokens ts = .ok t ↔ t.IsReading ts) ∧
    (∀ (source : String) (t : Tree), parse source = .ok t ↔
      (Lexer.scan source.toList).stop = none ∧
        t.IsReading (Lexer.scan source.toList).tokens) ∧
    (∀ (ts : List Token) (t u : Tree), t.IsReading ts → u.IsReading ts → t = u) := by
  refine ⟨fun _ _ => parseTokens_eq_ok_iff, ?_, ?_⟩
  · intro source t
    rw [parse_eq_ok_iff, parseTokens_eq_ok_iff]
  · intro ts t u ht hu
    have hboth := (parseTokens_eq_ok_iff.2 ht).symm.trans (parseTokens_eq_ok_iff.2 hu)
    exact Except.ok.inj hboth

/-- The grammar alone would also read a call as two statements. -/
example :
    let token (k : Terminal) (text : String) : Tree := .leaf ⟨.terminal k, text, 1, 0⟩
    let name := Tree.node (.rule .simpleIdentifier) [token .name "f"]
    let value := Tree.node (.rule .parenthesizedExpression)
      [token .lpar "(", .node (.rule .literal) [token .int "1"], token .rpar ")"]
    ¬ (Tree.node (.rule .file) [.node (.rule .preamble) [], .node (.rule .statement) [name],
      .node (.rule .statement) [value]]).IsGreedy := by
  decide

end Mykt
