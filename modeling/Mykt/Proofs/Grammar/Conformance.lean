import Mykt.Proofs.Grammar.Derivation

/-!
The grammar read off a tree node by node: the kinds of a node's children match the pattern of its
rule. A rule that leaves its node out shows the node of a rule below it. Main statement: the trees
that follow the grammar in this sense are those that the grammar derives.
-/

namespace Mykt

namespace Rule

def primaryShows : List Rule := [simpleIdentifier, literal, parenthesizedExpression]

def postfixShows : List Rule := postfixExpression :: primaryShows

def prefixShows : List Rule := unaryExpression :: postfixShows

def multiplicativeShows : List Rule := multiplicative :: prefixShows

def additiveShows : List Rule := additive :: multiplicativeShows

def comparisonShows : List Rule := comparison :: additiveShows

def equalityShows : List Rule := equality :: comparisonShows

def conjunctionShows : List Rule := conjunction :: equalityShows

def expressionShows : List Rule := disjunction :: conjunctionShows

/-- The rules whose nodes stand where a rule is asked for. A level of expressions shows itself and
the tighter levels. -/
def shows : Rule → List Rule
  | disjunction => expressionShows
  | conjunction => conjunctionShows
  | equality => equalityShows
  | comparison => comparisonShows
  | additive => additiveShows
  | multiplicative => multiplicativeShows
  | prefixExpression => prefixShows
  | postfixExpression => postfixShows
  | primary => primaryShows
  | r => [r]

end Rule

/-- The lists of kinds that the children of a node may have. -/
inductive Pattern.Matches : Pattern → List Kind → Prop where
  | empty : Matches empty []
  | oneOf {ks : List Terminal} {k : Terminal} (hk : k ∈ ks) : Matches (oneOf ks) [.terminal k]
  | rule {r s : Rule} (hs : s ∈ r.shows) : Matches (rule r) [.rule s]
  | seq {p q : Pattern} {ks ls : List Kind} (hp : Matches p ks) (hq : Matches q ls) :
      Matches (seq p q) (ks ++ ls)
  | left {p q : Pattern} {ks : List Kind} (h : Matches p ks) : Matches (alt p q) ks
  | right {p q : Pattern} {ks : List Kind} (h : Matches q ks) : Matches (alt p q) ks
  | absent {p : Pattern} : Matches (opt p) []
  | present {p : Pattern} {ks : List Kind} (h : Matches p ks) : Matches (opt p) ks
  | done {p : Pattern} : Matches (many p) []
  | more {p : Pattern} {ks ls : List Kind} (hp : Matches p ks) (hq : Matches (many p) ls) :
      Matches (many p) (ks ++ ls)

/-- A tree whose leaves are terminals and whose nodes have the children that their rules ask for.
A rule that leaves out the node of a single child has no node with one. -/
inductive Tree.FollowsGrammar : Tree → Prop where
  | leaf {t : Token} {k : Terminal} (h : t.kind = .terminal k) : FollowsGrammar (.leaf t)
  | node {r : Rule} {cs : List Tree} (h : r.body.Matches (cs.map kind))
      (hl : r.inlines = true → cs.length ≠ 1) (hc : ∀ c ∈ cs, FollowsGrammar c) :
      FollowsGrammar (.node (.rule r) cs)

namespace Rule

theorem wrap_singleton {r : Rule} (h : r.inlines = true) (t : Tree) : r.wrap [t] = t := by
  simp [wrap, h]

theorem wrap_eq_node {r : Rule} {cs : List Tree} (h : r.inlines = true → cs.length ≠ 1) :
    r.wrap cs = .node (.rule r) cs := by
  unfold wrap
  split
  · split
    · next hi => exact absurd rfl (h hi)
    · rfl
  · rfl

end Rule

namespace Pattern

section

variable {r n s : Rule} {q : Pattern} {t : Tree} {ks : List Kind}

/-- An inlined rule is derived by its only child. -/
theorem derives_inlined (hr : r.inlines = true) (h : r.body.Derives [t]) :
    (rule r).Derives [t] := by
  have hrule : (rule r).Derives [r.wrap [t]] := .rule h
  rwa [Rule.wrap_singleton hr] at hrule

/-- What stands for an operand alone stands for the whole level. -/
theorem derives_of_operand (hr : r.inlines = true) (hb : r.body = seq (rule n) (many q))
    (h : (rule n).Derives [t]) : (rule r).Derives [t] := by
  apply derives_inlined hr
  rw [hb, ← List.append_nil [t]]
  exact .seq h .done

theorem derives_of_mem_level (hr : r.inlines = true) (hb : r.body = seq (rule n) (many q))
    (hn : ∀ s ∈ n.shows, (rule s).Derives [t] → (rule n).Derives [t]) (hs : s ∈ r :: n.shows)
    (h : (rule s).Derives [t]) : (rule r).Derives [t] := by
  rcases List.mem_cons.1 hs with rfl | hs
  · exact h
  · exact derives_of_operand hr hb (hn s hs h)

theorem derives_primary (hs : s ∈ Rule.primaryShows) (h : (rule s).Derives [t]) :
    (rule .primary).Derives [t] := by
  apply derives_inlined rfl
  simp only [Rule.primaryShows, List.mem_cons, List.not_mem_nil, or_false] at hs
  rcases hs with rfl | rfl | rfl
  · exact .left h
  · exact .right (.left h)
  · exact .right (.right h)

theorem derives_postfixExpression (hs : s ∈ Rule.postfixShows) (h : (rule s).Derives [t]) :
    (rule .postfixExpression).Derives [t] :=
  derives_of_mem_level rfl rfl (fun _ => derives_primary) hs h

theorem derives_prefixExpression (hs : s ∈ Rule.prefixShows) (h : (rule s).Derives [t]) :
    (rule .prefixExpression).Derives [t] := by
  apply derives_inlined rfl
  rcases List.mem_cons.1 hs with rfl | hs
  · exact .left h
  · exact .right (derives_postfixExpression hs h)

/-- A node that a rule shows stands for the rule. -/
theorem derives_of_mem_shows (hs : s ∈ r.shows) (h : (rule s).Derives [t]) :
    (rule r).Derives [t] := by
  have multiplicative (s) (hs : s ∈ Rule.multiplicative.shows) (h : (rule s).Derives [t]) :
      (rule .multiplicative).Derives [t] :=
    derives_of_mem_level rfl rfl (fun _ => derives_prefixExpression) hs h
  have additive (s) (hs : s ∈ Rule.additive.shows) (h : (rule s).Derives [t]) :
      (rule .additive).Derives [t] :=
    derives_of_mem_level rfl rfl multiplicative hs h
  have comparison (s) (hs : s ∈ Rule.comparison.shows) (h : (rule s).Derives [t]) :
      (rule .comparison).Derives [t] :=
    derives_of_mem_level rfl rfl additive hs h
  have equality (s) (hs : s ∈ Rule.equality.shows) (h : (rule s).Derives [t]) :
      (rule .equality).Derives [t] :=
    derives_of_mem_level rfl rfl comparison hs h
  have conjunction (s) (hs : s ∈ Rule.conjunction.shows) (h : (rule s).Derives [t]) :
      (rule .conjunction).Derives [t] :=
    derives_of_mem_level rfl rfl equality hs h
  cases r with
  | disjunction => exact derives_of_mem_level rfl rfl conjunction hs h
  | conjunction => exact conjunction s hs h
  | equality => exact equality s hs h
  | comparison => exact comparison s hs h
  | additive => exact additive s hs h
  | multiplicative => exact multiplicative s hs h
  | prefixExpression => exact derives_prefixExpression hs h
  | postfixExpression => exact derives_postfixExpression hs h
  | primary => exact derives_primary hs h
  | _ =>
    obtain rfl := List.mem_singleton.1 hs
    exact h

end

/-- Trees derive a pattern if their kinds match it and each stands for its own rule. -/
theorem Matches.derives {p : Pattern} {cs : List Tree} (h : p.Matches (cs.map Tree.kind))
    (hf : ∀ c ∈ cs, c.FollowsGrammar)
    (hc : ∀ c ∈ cs, ∀ s, c.kind = .rule s → (Pattern.rule s).Derives [c]) : p.Derives cs := by
  generalize hks : cs.map Tree.kind = ks at h
  induction h generalizing cs with
  | empty =>
    obtain rfl := List.map_eq_nil_iff.1 hks
    exact .empty
  | oneOf hk =>
    obtain ⟨c, rfl, hkind⟩ := List.map_eq_singleton_iff.1 hks
    cases hf c List.mem_cons_self with
    | leaf => exact .oneOf hk hkind
    | node => cases hkind
  | rule hs =>
    obtain ⟨c, rfl, hkind⟩ := List.map_eq_singleton_iff.1 hks
    exact derives_of_mem_shows hs (hc c List.mem_cons_self _ hkind)
  | seq _ _ ihp ihq =>
    obtain ⟨xs, ys, rfl, hx, hy⟩ := List.map_eq_append_iff.1 hks
    simp only [List.forall_mem_append] at hf hc
    exact .seq (ihp hf.1 hc.1 hx) (ihq hf.2 hc.2 hy)
  | left _ ih => exact .left (ih hf hc hks)
  | right _ ih => exact .right (ih hf hc hks)
  | absent =>
    obtain rfl := List.map_eq_nil_iff.1 hks
    exact .absent
  | present _ ih => exact .present (ih hf hc hks)
  | done =>
    obtain rfl := List.map_eq_nil_iff.1 hks
    exact .done
  | more _ _ ihp ihq =>
    obtain ⟨xs, ys, rfl, hx, hy⟩ := List.map_eq_append_iff.1 hks
    simp only [List.forall_mem_append] at hf hc
    exact .more (ihp hf.1 hc.1 hx) (ihq hf.2 hc.2 hy)

end Pattern

theorem Tree.FollowsGrammar.derives {t : Tree} (h : t.FollowsGrammar) {r : Rule}
    (hk : t.kind = .rule r) : (Pattern.rule r).Derives [t] := by
  induction h generalizing r with
  | leaf ht => cases ht.symm.trans hk
  | @node s cs hm hl hc ih =>
    obtain rfl : s = r := by simpa [Tree.kind] using hk
    have hbody : s.body.Derives cs := hm.derives hc fun c hmem _ => ih c hmem
    rw [← Rule.wrap_eq_node hl]
    exact .rule hbody

namespace Pattern

theorem matches_rule_iff {r : Rule} {ks : List Kind} :
    (rule r).Matches ks ↔ ∃ s ∈ r.shows, ks = [.rule s] := by
  constructor
  · intro h
    cases h with
    | rule hs => exact ⟨_, hs, rfl⟩
  · intro hx
    obtain ⟨s, hs, rfl⟩ := hx
    exact .rule hs

theorem matches_alt_iff {p q : Pattern} {ks : List Kind} :
    (alt p q).Matches ks ↔ p.Matches ks ∨ q.Matches ks := by
  constructor
  · intro h
    cases h with
    | left h => exact .inl h
    | right h => exact .inr h
  · intro h
    rcases h with h | h
    · exact .left h
    · exact .right h

/-- A single child of a level is its operand. -/
theorem exists_mem_shows_of_operand {n : Rule} {q : Pattern} {k : Kind}
    (h : (seq (rule n) (many q)).Matches [k]) : ∃ s ∈ n.shows, k = .rule s := by
  generalize hks : [k] = ks at h
  cases h with
  | seq hp _ =>
    obtain ⟨s, hs, rfl⟩ := matches_rule_iff.1 hp
    rw [List.singleton_append, List.cons.injEq] at hks
    exact ⟨s, hs, hks.1⟩

/-- The only child of a node that is left out is shown in its place. -/
theorem exists_mem_shows_of_inlines {r : Rule} {k : Kind} (hr : r.inlines = true)
    (h : r.body.Matches [k]) : ∃ s ∈ r.shows, k = .rule s := by
  have level {n : Rule} {q : Pattern} {rs : List Rule} (hrs : n.shows ⊆ rs)
      (h : (seq (rule n) (many q)).Matches [k]) : ∃ s ∈ rs, k = .rule s := by
    obtain ⟨s, hs, hk⟩ := exists_mem_shows_of_operand h
    exact ⟨s, hrs hs, hk⟩
  have only {n : Rule} {rs : List Rule} (hrs : n.shows ⊆ rs) (h : (rule n).Matches [k]) :
      ∃ s ∈ rs, k = .rule s := by
    obtain ⟨s, hs, hk⟩ := matches_rule_iff.1 h
    exact ⟨s, hrs hs, (List.cons.inj hk).1⟩
  cases r with
  | disjunction | conjunction | equality | comparison | additive | multiplicative
  | postfixExpression => exact level (List.subset_cons_self _ _) h
  | prefixExpression =>
    rcases matches_alt_iff.1 h with h | h
    · exact only (by decide) h
    · exact only (by decide) h
  | primary =>
    rcases matches_alt_iff.1 h with h | h
    · exact only (by decide) h
    · rcases matches_alt_iff.1 h with h | h
      · exact only (by decide) h
      · exact only (by decide) h
  | _ => cases hr

/-- Prefix expressions and primaries always have one child, so they have no nodes. -/
theorem mem_shows_of_length_ne_one {r : Rule} {ks : List Kind} (h : r.body.Matches ks)
    (hk : r.inlines = true → ks.length ≠ 1) : r ∈ r.shows := by
  have one {n : Rule} (h : (rule n).Matches ks) : ks.length = 1 := by
    obtain ⟨s, -, rfl⟩ := matches_rule_iff.1 h
    rfl
  cases r with
  | prefixExpression =>
    have hlength : ks.length = 1 := by
      rcases matches_alt_iff.1 h with h | h
      · exact one h
      · exact one h
    exact absurd hlength (hk rfl)
  | primary =>
    have hlength : ks.length = 1 := by
      rcases matches_alt_iff.1 h with h | h
      · exact one h
      · rcases matches_alt_iff.1 h with h | h
        · exact one h
        · exact one h
    exact absurd hlength (hk rfl)
  | _ => exact List.mem_cons_self

/-- Derived trees follow the grammar, and their kinds match the pattern. -/
theorem Derives.followsGrammar {p : Pattern} {xs : List Tree} (h : p.Derives xs) :
    (∀ x ∈ xs, x.FollowsGrammar) ∧ p.Matches (xs.map Tree.kind) := by
  induction h with
  | empty => exact ⟨by simp, .empty⟩
  | oneOf hk ht => exact ⟨by simpa using .leaf ht, by simpa [Tree.kind, ht] using .oneOf hk⟩
  | @rule r cs _ ih =>
    obtain ⟨hf, hm⟩ := ih
    by_cases hleft : r.inlines = true ∧ cs.length = 1
    · obtain ⟨hi, hlength⟩ := hleft
      obtain ⟨c, rfl⟩ := List.length_eq_one_iff.1 hlength
      obtain ⟨s, hs, hk⟩ := exists_mem_shows_of_inlines hi hm
      rw [Rule.wrap_singleton hi]
      exact ⟨hf, by simpa [hk] using .rule hs⟩
    · have hl : r.inlines = true → cs.length ≠ 1 := fun hi hlength => hleft ⟨hi, hlength⟩
      have hs : r ∈ r.shows := mem_shows_of_length_ne_one hm (by simpa using hl)
      rw [Rule.wrap_eq_node hl]
      exact ⟨by simpa using .node hm hl hf, .rule hs⟩
  | seq _ _ ihp ihq =>
    rw [List.forall_mem_append, List.map_append]
    exact ⟨⟨ihp.1, ihq.1⟩, .seq ihp.2 ihq.2⟩
  | left _ ih => exact ⟨ih.1, .left ih.2⟩
  | right _ ih => exact ⟨ih.1, .right ih.2⟩
  | absent => exact ⟨by simp, .absent⟩
  | present _ ih => exact ⟨ih.1, .present ih.2⟩
  | done => exact ⟨by simp, .done⟩
  | more _ _ ihp ihq =>
    rw [List.forall_mem_append, List.map_append]
    exact ⟨⟨ihp.1, ihq.1⟩, .more ihp.2 ihq.2⟩

/-- The grammar derives a file exactly if its nodes follow their rules. -/
theorem derives_file_iff {t : Tree} :
    (rule .file).Derives [t] ↔ t.kind = .rule .file ∧ t.FollowsGrammar := by
  constructor
  · intro h
    obtain ⟨hf, hm⟩ := h.followsGrammar
    obtain ⟨s, hs, hk⟩ := matches_rule_iff.1 hm
    obtain rfl : s = .file := List.mem_singleton.1 hs
    exact ⟨(List.cons.inj hk).1, hf t List.mem_cons_self⟩
  · intro h
    exact h.2.derives h.1

/-- The rules whose nodes stand among the children that a pattern asks for. -/
def parts : Pattern → List Rule
  | empty => []
  | oneOf _ => []
  | rule r => r.shows
  | seq p q => p.parts ++ q.parts
  | alt p q => p.parts ++ q.parts
  | opt p => p.parts
  | many p => p.parts

theorem Matches.mem_parts {p : Pattern} {ks : List Kind} (h : p.Matches ks) {s : Rule}
    (hs : Kind.rule s ∈ ks) : s ∈ p.parts := by
  induction h with
  | empty | absent | done => cases hs
  | oneOf => cases List.mem_singleton.1 hs
  | rule hr =>
    cases List.mem_singleton.1 hs
    exact hr
  | seq _ _ ihp ihq =>
    rcases List.mem_append.1 hs with hs | hs
    · exact List.mem_append_left _ (ihp hs)
    · exact List.mem_append_right _ (ihq hs)
  | left _ ih => exact List.mem_append_left _ (ih hs)
  | right _ ih => exact List.mem_append_right _ (ih hs)
  | present _ ih => exact ih hs
  | more _ _ ihp ihq =>
    rcases List.mem_append.1 hs with hs | hs
    · exact ihp hs
    · exact ihq hs

end Pattern

/-- A node of a rule stands below a rule that asks for it. -/
theorem Tree.Conforms.mem_parts {r s : Rule} {cs : List Tree} {c : Tree}
    (h : (Tree.node (.rule r) cs).Conforms) (hc : c ∈ cs) (hs : c.kind = .rule s) :
    s ∈ r.body.parts := by
  cases h with
  | node hd _ =>
    apply hd.followsGrammar.2.mem_parts
    rw [← hs]
    exact List.mem_map_of_mem hc

end Mykt
