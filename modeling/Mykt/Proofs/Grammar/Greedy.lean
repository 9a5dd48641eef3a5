import Mykt.Proofs.Grammar.Conformance
import Mykt.Proofs.Grammar.Lookahead
import Mykt.Proofs.Grammar.Shape

/-!
Greedy trees. Statements stand one after another with nothing between them, so a statement could
often end earlier than the text lets it go on. Main statements: an expression can always go on, and
a statement goes on with what begins another one only at its last expression or after a bare
`return`.
-/

namespace Mykt

namespace Tree

mutual

/-- A tree and its subtrees, each before its children, with the tokens that follow them. -/
def followed (after : List Token) : Tree → List (Tree × List Token)
  | leaf t => [(leaf t, after)]
  | node k cs => (node k cs, after) :: followedOf after cs

def followedOf (after : List Token) : List Tree → List (Tree × List Token)
  | [] => []
  | t :: ts => t.followed (tokensOf ts ++ after) ++ followedOf after ts

end

def isBareReturn (t : Tree) : Bool := t.kind = .rule .returnStatement && t.children.length = 1

/-- The last child stands right after the terminal. -/
def endsAfter (k : Terminal) (t : Tree) : Bool :=
  match t.children.reverse with
  | _ :: before :: _ => before.kind = .terminal k
  | _ => false

/-- What stands in a statement before its semicolon ends in an expression. The name of a variable
without a value is none. -/
def endsInExpression (t : Tree) : Bool :=
  match t.kind with
  | .rule .functionDeclaration => t.children.getLast?.any (endsAfter .equal)
  | .rule .variableDeclaration | .rule .assignment => t.endsAfter .equal
  | .rule .returnStatement => t.endsAfter .returnWord
  | .rule r => Rule.expressionShows.contains r
  | _ => false

/-- A statement that ends in an expression and has no semicolon. -/
def isOpenStatement (t : Tree) : Bool :=
  t.kind = .rule .statement &&
    match t.children with
    | [x] => x.endsInExpression
    | _ => false

/-- Terminals that begin statements, and that go on with what stands in a statement before its
semicolon. -/
def openings (t : Tree) : List Terminal :=
  if t.endsInExpression then [.lpar, .minus]
  else if t.isBareReturn then Rule.expressionStarts
  else []

/-- The tokens that follow a tree do not go on with it. -/
structure StopsBefore (t : Tree) (after : List Token) : Prop where
  bareReturn : t.isBareReturn = true → nextIn Rule.expressionStarts after = false
  openStatement : t.isOpenStatement = true → nextIn [.lpar, .minus] after = false

/-- No statement ends before tokens that it could go on with. -/
def IsGreedy (t : Tree) : Prop := ∀ x ∈ t.followed [], x.1.StopsBefore x.2

instance (t : Tree) (after : List Token) : Decidable (t.StopsBefore after) :=
  decidable_of_iff ((t.isBareReturn = true → nextIn Rule.expressionStarts after = false) ∧
    (t.isOpenStatement = true → nextIn [.lpar, .minus] after = false))
    ⟨fun h => ⟨h.1, h.2⟩, fun h => ⟨h.bareReturn, h.openStatement⟩⟩

instance (t : Tree) : Decidable t.IsGreedy :=
  inferInstanceAs (Decidable (∀ x ∈ t.followed [], x.1.StopsBefore x.2))

theorem followedOf_append (after : List Token) (xs ys : List Tree) :
    followedOf after (xs ++ ys) =
      followedOf (tokensOf ys ++ after) xs ++ followedOf after ys := by
  induction xs with
  | nil => rfl
  | cons x xs ih => simp [followedOf, ih, tokensOf_append]

theorem followedOf_singleton (after : List Token) (t : Tree) :
    followedOf after [t] = t.followed after := by
  simp [followedOf, tokensOf]

theorem mem_followed_self (after : List Token) (t : Tree) : (t, after) ∈ t.followed after := by
  cases t <;> simp [followed]

/-- Below a rule that leaves its node out nothing is lost. -/
theorem followedOf_subset_wrap (after : List Token) (r : Rule) (cs : List Tree) :
    followedOf after cs ⊆ followedOf after [r.wrap cs] := by
  rw [followedOf_singleton]
  unfold Rule.wrap
  split
  · split
    · simp [followedOf_singleton]
    · exact List.subset_cons_self _ _
  · exact List.subset_cons_self _ _

theorem mem_followedOf_wrap {after : List Token} {r : Rule} {cs : List Tree}
    {y : Tree × List Token} (h : y ∈ followedOf after [r.wrap cs]) :
    y = (node (.rule r) cs, after) ∨ y ∈ followedOf after cs := by
  rw [followedOf_singleton] at h
  unfold Rule.wrap at h
  split at h
  · split at h
    · rw [followedOf_singleton]
      exact .inr h
    · exact List.mem_cons.1 h
  · exact List.mem_cons.1 h

theorem stopsBefore_leaf (t : Token) (after : List Token) : (leaf t).StopsBefore after where
  bareReturn h := by simp [isBareReturn, children] at h
  openStatement h := by simp [isOpenStatement, children] at h

end Tree

namespace Rule

def clauses : List Rule :=
  [functionDeclaration, variableDeclaration, assignment, returnStatement, ifStatement,
    whileStatement, disjunction]

/-- What stands in a statement before its semicolon. -/
def clause : Pattern := .choice (clauses.map .rule)

end Rule

namespace Pattern

/-- A repetition that the terminal begins once more. -/
def repeatsOn (k : Terminal) : Pattern → Bool
  | many p => p.heads.contains k
  | _ => false

/-- Every reading with tokens can go on with the terminal. -/
def goesOn (k : Terminal) : Pattern → Bool
  | empty => true
  | oneOf _ => false
  | rule r => (r.inlines || r = .unaryExpression) && r.tails.contains k
  | seq p q => q.goesOn k && (p.goesOn k || !q.isNullable || q.repeatsOn k)
  | alt p q => p.goesOn k && q.goesOn k
  | opt p => p.goesOn k
  | many p => p.goesOn k || p.heads.contains k

end Pattern

theorem Rule.goesOn_body (r : Rule) (k : Terminal) (h : (Pattern.rule r).goesOn k = true) :
    r.body.goesOn k = true := by
  have table : ∀ r ∈ Rule.all, ∀ k ∈ Terminal.all,
      (Pattern.rule r).goesOn k = true → r.body.goesOn k = true := by decide
  exact table r r.mem_all k k.mem_all h

namespace Pattern

section

variable {p q : Pattern} {xs : List Tree} {ks : List Terminal} {k : Terminal}

theorem Omits.mem_of_repeatsOn (h : p.Omits xs ks) (hp : p.repeatsOn k = true) : k ∈ ks := by
  cases p with
  | many p => exact h.heads_subset_of_many (by simpa [repeatsOn] using hp)
  | _ => cases hp

/-- Where every reading can go on with a terminal, each derivation leaves out a part that it
begins. -/
theorem Omits.mem_of_goesOn (h : p.Omits xs ks) (hp : p.goesOn k = true)
    (hx : Tree.tokensOf xs ≠ []) : k ∈ ks := by
  induction h with
  | empty | absent | done => exact absurd rfl hx
  | oneOf => cases hp
  | @rule r cs ks _ ih =>
    rw [Tree.tokensOf_singleton, Rule.tokens_wrap] at hx
    exact ih (r.goesOn_body k hp) hx
  | @seq p q ys zs ks ls _ hq ihp ihq =>
    simp only [goesOn, Bool.and_eq_true, Bool.or_eq_true, Bool.not_eq_true'] at hp
    obtain ⟨hgoes, hlast⟩ := hp
    by_cases he : Tree.tokensOf zs = []
    · rw [if_pos he]
      rw [Tree.tokensOf_append, he, List.append_nil] at hx
      rcases hlast with (hgoes' | hn) | hrepeats
      · exact List.mem_append_right _ (ihp hgoes' hx)
      · exact absurd he (hq.derives.tokensOf_ne_nil hn)
      · exact List.mem_append_left _ (hq.mem_of_repeatsOn hrepeats)
    · exact List.mem_append_left _ (ihq hgoes he)
  | left _ ih =>
    simp only [goesOn, Bool.and_eq_true] at hp
    exact ih hp.1 hx
  | right _ ih =>
    simp only [goesOn, Bool.and_eq_true] at hp
    exact List.mem_append_left _ (ih hp.2 hx)
  | present _ ih => exact ih hp hx
  | @more p ys zs ks ls _ hq ihp ihq =>
    have hm := hp
    simp only [goesOn, Bool.or_eq_true] at hp
    by_cases he : Tree.tokensOf zs = []
    · rw [if_pos he]
      rw [Tree.tokensOf_append, he, List.append_nil] at hx
      rcases hp with hgoes | hheads
      · exact List.mem_append_right _ (ihp hgoes hx)
      · exact List.mem_append_left _ (hq.heads_subset_of_many (by simpa using hheads))
    · exact List.mem_append_left _ (ihq hm he)

end

/-- Of the terminals that begin a statement, those that go on with an expression. -/
theorem mem_omits_expression {xs : List Tree} {ks : List Terminal}
    (h : Rule.expression.Omits xs ks) (k : Terminal) (hk : k ∈ Rule.statementStarts) :
    k ∈ ks ↔ k ∈ [Terminal.lpar, .minus] := by
  have htokens : Tree.tokensOf xs ≠ [] := h.derives.tokensOf_ne_nil rfl
  have table : ∀ k ∈ Rule.statementStarts, k ∈ Rule.expressionTails →
      k ∈ [Terminal.lpar, .minus] := by decide
  constructor
  · intro hmem
    exact table k hk (h.subset_tails hmem)
  · intro hmem
    simp only [List.mem_cons, List.not_mem_nil, or_false] at hmem
    rcases hmem with rfl | rfl
    · exact h.mem_of_goesOn rfl htokens
    · exact h.mem_of_goesOn rfl htokens

theorem exists_eq_singleton_of_derives {r : Rule} {xs : List Tree} (h : (rule r).Derives xs) :
    ∃ t, xs = [t] := by
  obtain ⟨cs, -, rfl⟩ := derives_rule_iff.1 h
  exact ⟨_, rfl⟩

theorem exists_eq_singleton_of_choice (rs : List Rule) {xs : List Tree} (hr : rs ≠ [])
    (h : (choice (rs.map rule)).Derives xs) : ∃ t, xs = [t] := by
  induction rs with
  | nil => exact absurd rfl hr
  | cons r rs ih =>
    cases rs with
    | nil => exact exists_eq_singleton_of_derives h
    | cons s rs =>
      cases h with
      | left h => exact exists_eq_singleton_of_derives h
      | right h => exact ih (List.cons_ne_nil _ _) h

/-- A reading that ends in a terminal and an expression. -/
theorem omits_value {k : Terminal} {xs : List Tree} {ks : List Terminal}
    (h : (seq (oneOf [k]) Rule.expression).Omits xs ks) :
    ∃ t x, t.kind = .terminal k ∧ xs = [.leaf t, x] ∧ Rule.expression.Omits [x] ks := by
  obtain ⟨ys, zs, hy, hz, rfl⟩ := omits_seq_last h rfl
  obtain ⟨t, ⟨l, hl, ht⟩, rfl⟩ := derives_oneOf_iff.1 hy
  obtain ⟨x, rfl⟩ := exists_eq_singleton_of_derives hz.derives
  obtain rfl : l = k := List.mem_singleton.1 hl
  exact ⟨t, x, ht, rfl, hz⟩

end Pattern

namespace Tree

variable {t : Tree}

theorem endsAfter_append (l : Kind) (cs : List Tree) (x : Tree) {k : Terminal} {word : Token}
    (hw : word.kind = .terminal k) : (node l (cs ++ [leaf word, x])).endsAfter k = true := by
  simp [endsAfter, children, kind, hw]

theorem not_endsAfter_append (l : Kind) (cs : List Tree) (x : Tree) {j k : Terminal} {word : Token}
    (hw : word.kind = .terminal j) (hj : j ≠ k) :
    (node l (cs ++ [leaf word, x])).endsAfter k = false := by
  simp [endsAfter, children, kind, hw, hj]

theorem endsInExpression_functionDeclaration (cs : List Tree) (body : Tree) :
    (node (.rule .functionDeclaration) (cs ++ [body])).endsInExpression =
      body.endsAfter .equal := by
  simp [endsInExpression, kind, children]

theorem endsInExpression_of_kind {r : Rule} (h : t.kind = .rule r) (hr : r ∈ Rule.expressionShows) :
    t.endsInExpression = true := by
  simp only [endsInExpression, h]
  cases r with
  | functionDeclaration | variableDeclaration | assignment | returnStatement =>
    exact absurd hr (by decide)
  | _ => simpa using hr

theorem openings_of_endsInExpression (h : t.endsInExpression = true) :
    t.openings = [.lpar, .minus] := if_pos h

/-- The openings do not follow what stops before the tokens, in a statement that does too. -/
theorem nextIn_openings {rest : List Token} (hs : (node (.rule .statement) [t]).StopsBefore rest)
    (ht : t.StopsBefore rest) : nextIn t.openings rest = false := by
  unfold openings
  split
  · next hends =>
    have hopen : (node (.rule .statement) [t]).isOpenStatement = true := by
      simpa [isOpenStatement, kind, children] using hends
    exact hs.openStatement hopen
  · split
    · next hbare => exact ht.bareReturn hbare
    · cases rest <;> rfl

theorem openings_eq_nil (h : t.endsInExpression = false) (hr : t.isBareReturn = false) :
    t.openings = [] := by
  simp [openings, h, hr]

end Tree

namespace Pattern

section

variable {x : Tree} {cs : List Tree} {ks : List Terminal} {k : Terminal}

theorem mem_omits_of_endsInExpression {v : Tree} (hx : x.endsInExpression = true)
    (hv : Rule.expression.Omits [v] ks) (hk : k ∈ Rule.statementStarts) :
    k ∈ ks ↔ k ∈ x.openings := by
  rw [Tree.openings_of_endsInExpression hx]
  exact mem_omits_expression hv k hk

theorem mem_omits_functionDeclaration (h : Rule.functionDeclaration.body.Omits cs ks)
    (hk : k ∈ Rule.statementStarts) :
    k ∈ ks ↔ k ∈ (Tree.node (.rule .functionDeclaration) cs).openings := by
  obtain ⟨as, cs₁, -, h₁, rfl⟩ := omits_seq_last h rfl
  obtain ⟨bs, cs₂, -, h₂, rfl⟩ := omits_seq_last h₁ rfl
  obtain ⟨ds, cs₃, -, h₃, rfl⟩ := omits_seq_last h₂ rfl
  obtain ⟨es, cs₄, -, h₄, rfl⟩ := omits_seq_last h₃ rfl
  obtain ⟨body, hbody, rfl⟩ := omits_rule h₄
  rw [Rule.wrap_of_not_inlines rfl, ← List.append_assoc, ← List.append_assoc, ← List.append_assoc]
  rcases omits_alt hbody (by simp) with hblock | hvalue
  · obtain ⟨b, rfl⟩ := exists_eq_singleton_of_derives hblock.derives
    obtain rfl : ks = [] := List.subset_nil.1 hblock.subset_tails
    rw [Tree.openings_eq_nil (Tree.endsInExpression_functionDeclaration _ _) rfl]
  · obtain ⟨word, v, hw, rfl, hv⟩ := omits_value hvalue
    refine mem_omits_of_endsInExpression ?_ hv hk
    rw [Tree.endsInExpression_functionDeclaration]
    exact Tree.endsAfter_append _ [] v hw

theorem mem_omits_variableDeclaration (h : Rule.variableDeclaration.body.Omits cs ks)
    (hk : k ∈ Rule.statementStarts) :
    k ∈ ks ↔ k ∈ (Tree.node (.rule .variableDeclaration) cs).openings := by
  obtain ⟨as, cs₁, hword, h₁, rfl⟩ := omits_seq_last h rfl
  obtain ⟨bs, cs₂, ls, ms, hname, h₂, rfl, rfl⟩ := omits_seq h₁
  obtain ⟨ds, es, ns, vs, htype, hvalue, rfl, rfl⟩ := omits_seq h₂
  obtain ⟨n, -, rfl⟩ := derives_simpleIdentifier_iff.1 hname.derives
  obtain rfl : ls = [] := List.subset_nil.1 hname.subset_tails
  rw [ite_self, List.append_nil]
  rcases omits_opt hvalue with ⟨rfl, rfl⟩ | hvalue
  · obtain ⟨word, ⟨l, hl, hw⟩, rfl⟩ := derives_oneOf_iff.1 hword
    have hends : (Tree.node (.rule .variableDeclaration)
        ([.leaf word] ++ ([.ofName n] ++ (ds ++ [])))).endsInExpression = false := by
      rcases omits_opt htype with ⟨rfl, -⟩ | htype
      · have hequal : l ≠ .equal := by
          rintro rfl
          exact absurd hl (by decide)
        exact Tree.not_endsAfter_append (.rule .variableDeclaration) [] (.ofName n) hw hequal
      · obtain ⟨ys, zs, hy, hz, rfl⟩ := omits_seq_last htype rfl
        obtain ⟨colon, ⟨m, hm, hc⟩, rfl⟩ := derives_oneOf_iff.1 hy
        obtain ⟨type, rfl⟩ := exists_eq_singleton_of_derives hz.derives
        obtain rfl : m = .colon := List.mem_singleton.1 hm
        exact Tree.not_endsAfter_append (.rule .variableDeclaration) [.leaf word, .ofName n] type hc
          (by decide)
    have hcolon : ns ⊆ [.colon] := htype.subset_tails
    have table : ∀ k ∈ Rule.statementStarts, k ∉ [Terminal.equal, .colon] := by decide
    rw [Tree.openings_eq_nil hends rfl]
    refine iff_of_false ?_ List.not_mem_nil
    intro hmem
    rcases List.mem_append.1 hmem with hmem | hmem
    · exact table k hk (List.mem_append_left _ hmem)
    · exact table k hk (List.mem_cons_of_mem _ (hcolon hmem))
  · obtain ⟨word, v, hw, rfl, hv⟩ := omits_value hvalue
    have hends : (Tree.node (.rule .variableDeclaration)
        (as ++ ([.ofName n] ++ ds) ++ [.leaf word, v])).endsInExpression = true :=
      Tree.endsAfter_append _ _ v hw
    rw [if_neg (hvalue.derives.tokensOf_ne_nil rfl), List.append_nil]
    exact mem_omits_of_endsInExpression (by simpa using hends) hv hk

theorem mem_omits_assignment (h : Rule.assignment.body.Omits cs ks)
    (hk : k ∈ Rule.statementStarts) :
    k ∈ ks ↔ k ∈ (Tree.node (.rule .assignment) cs).openings := by
  obtain ⟨as, bs, -, hvalue, rfl⟩ := omits_seq_last h rfl
  obtain ⟨word, v, hw, rfl, hv⟩ := omits_value hvalue
  have hends : (Tree.node (.rule .assignment) (as ++ [.leaf word, v])).endsInExpression = true :=
    Tree.endsAfter_append _ as v hw
  exact mem_omits_of_endsInExpression hends hv hk

theorem mem_omits_returnStatement (h : Rule.returnStatement.body.Omits cs ks)
    (hk : k ∈ Rule.statementStarts) :
    k ∈ ks ↔ k ∈ (Tree.node (.rule .returnStatement) cs).openings := by
  obtain ⟨as, bs, ls, ms, hword, hvalue, rfl, rfl⟩ := omits_seq h
  obtain ⟨word, ⟨l, hl, hw⟩, rfl⟩ := derives_oneOf_iff.1 hword.derives
  obtain rfl : l = .returnWord := List.mem_singleton.1 hl
  obtain rfl : ls = [] := List.subset_nil.1 hword.subset_tails
  rw [ite_self, List.append_nil]
  rcases omits_opt hvalue with ⟨rfl, rfl⟩ | hv
  · exact Iff.rfl
  · obtain ⟨v, rfl⟩ := exists_eq_singleton_of_derives hv.derives
    have hends : (Tree.node (.rule .returnStatement) [.leaf word, v]).endsInExpression = true :=
      Tree.endsAfter_append (.rule .returnStatement) [] v hw
    exact mem_omits_of_endsInExpression hends hv hk

theorem mem_omits_expressionStatement (h : Rule.expression.Omits [x] ks)
    (hk : k ∈ Rule.statementStarts) : k ∈ ks ↔ k ∈ x.openings := by
  obtain ⟨s, hs, hkind⟩ := matches_rule_iff.1 h.derives.followsGrammar.2
  have hends := Tree.endsInExpression_of_kind (List.cons.inj hkind).1 hs
  exact mem_omits_of_endsInExpression hends h hk

/-- Of the terminals that begin a statement, exactly the openings go on with what stands in one. -/
theorem mem_omits_clause (h : Rule.clause.Omits [x] ks) (hk : k ∈ Rule.statementStarts) :
    k ∈ ks ↔ k ∈ x.openings := by
  -- An equals sign makes an assignment of a name, and begins no statement.
  have past {q : Pattern} {ls : List Terminal} (h : (alt (rule .assignment) q).Omits [x] ls) :
      (rule .assignment).Omits [x] ls ∨ ∃ ms, q.Omits [x] ms ∧ (k ∈ ls ↔ k ∈ ms) := by
    cases h with
    | left h => exact .inl h
    | @right _ _ _ ms h =>
      refine .inr ⟨ms, h, ?_⟩
      rw [List.mem_append, or_iff_left]
      intro hr
      have hequal : k = .equal := by simpa using rivals_subset _ _ hr
      rw [hequal] at hk
      exact absurd hk (by decide)
  have own {r : Rule} {ls : List Terminal} (hi : r.inlines = false)
      (hr : ∀ cs, r.body.Omits cs ls → (k ∈ ls ↔ k ∈ (Tree.node (.rule r) cs).openings))
      (h : (rule r).Omits [x] ls) : k ∈ ls ↔ k ∈ x.openings := by
    obtain ⟨cs, hb, hx⟩ := omits_rule h
    rw [(List.cons.inj hx).1, Rule.wrap_of_not_inlines hi]
    exact hr cs hb
  -- Neither an `if` nor a `while` ends in an expression.
  have closed {r : Rule} {ls : List Terminal} (hi : r.inlines = false)
      (ht : ∀ k ∈ Rule.statementStarts, k ∉ r.tails)
      (ho : ∀ cs, (Tree.node (.rule r) cs).openings = []) (h : (rule r).Omits [x] ls) :
      k ∈ ls ↔ k ∈ x.openings := by
    refine own hi (fun cs _ => ?_) h
    rw [ho cs]
    exact iff_of_false (fun hmem => ht k hk (h.subset_tails hmem)) List.not_mem_nil
  rcases omits_alt h (by simp) with h | h
  · exact own rfl (fun _ hb => mem_omits_functionDeclaration hb hk) h
  rcases omits_alt h (by simp) with h | h
  · exact own rfl (fun _ hb => mem_omits_variableDeclaration hb hk) h
  rcases past h with h | ⟨ls, h, hls⟩
  · exact own rfl (fun _ hb => mem_omits_assignment hb hk) h
  rw [hls]
  rcases omits_alt h (by simp) with h | h
  · exact own rfl (fun _ hb => mem_omits_returnStatement hb hk) h
  rcases omits_alt h (by simp) with h | h
  · exact closed rfl (by decide) (fun _ => rfl) h
  rcases omits_alt h (by simp) with h | h
  · exact closed rfl (by decide) (fun _ => rfl) h
  · exact mem_omits_expressionStatement h hk

/-- The children of a statement: what it consists of, and a semicolon if it has one. -/
theorem omits_statement (h : Rule.statement.body.Omits cs ks) :
    ∃ x ls, Rule.clause.Omits [x] ls ∧
      (cs = [x] ∧ ks = .semi :: ls ∨ ks = [] ∧ ∃ t, cs = [x, .leaf t]) := by
  obtain ⟨ys, zs, ls, ms, hy, hz, rfl, rfl⟩ := omits_seq h
  obtain ⟨x, rfl⟩ := exists_eq_singleton_of_choice Rule.clauses (by decide) hy.derives
  refine ⟨x, ls, hy, ?_⟩
  rcases omits_opt hz with ⟨rfl, rfl⟩ | hz
  · exact .inl ⟨rfl, rfl⟩
  · obtain ⟨t, -, rfl⟩ := derives_oneOf_iff.1 hz.derives
    obtain rfl : ms = [] := List.subset_nil.1 hz.subset_tails
    exact .inr ⟨rfl, t, rfl⟩

/-- Where none of the omitted terminals comes next, the tokens do not go on with the node. -/
theorem Omits.stopsBefore {r : Rule} {rest : List Token} (h : r.body.Omits cs ks)
    (hn : nextIn ks rest = false) : (Tree.node (.rule r) cs).StopsBefore rest where
  bareReturn := by
    intro hbare
    simp only [Tree.isBareReturn, Tree.kind, Tree.children, Bool.and_eq_true, decide_eq_true_eq,
      Kind.rule.injEq] at hbare
    obtain ⟨rfl, hlength⟩ := hbare
    obtain ⟨c, rfl⟩ := List.length_eq_one_iff.1 (of_decide_eq_true hlength)
    have hsubset : Rule.expressionStarts ⊆ ks := by
      intro k hk
      exact (mem_omits_returnStatement h (by revert k; decide)).2 hk
    exact nextIn_eq_false_of_subset hsubset hn
  openStatement := by
    intro hopen
    simp only [Tree.isOpenStatement, Tree.kind, Tree.children, Bool.and_eq_true, decide_eq_true_eq,
      Kind.rule.injEq] at hopen
    obtain ⟨rfl, hopen⟩ := hopen
    obtain ⟨x, ls, hx, ⟨rfl, rfl⟩ | ⟨-, t, rfl⟩⟩ := omits_statement h
    · have hsubset : [Terminal.lpar, .minus] ⊆ .semi :: ls := by
        intro k hk
        refine List.mem_cons_of_mem _ ((mem_omits_clause hx (by revert k; decide)).2 ?_)
        rwa [Tree.openings_of_endsInExpression hopen]
      exact nextIn_eq_false_of_subset hsubset hn
    · cases hopen

/-- A statement of a greedy tree ends before another one. -/
theorem Omits.nextIn_eq_false_of_stopsBefore {xs : List Tree} {rest : List Token}
    (h : (Pattern.rule .statement).Omits xs ks)
    (hg : ∀ y ∈ Tree.followedOf rest xs, y.1.StopsBefore y.2)
    (hs : nextIn Rule.statementStarts rest = true) : nextIn ks rest = false := by
  obtain ⟨cs, hb, rfl⟩ := omits_rule h
  rw [Rule.wrap_of_not_inlines rfl, Tree.followedOf_singleton] at hg
  obtain ⟨x, ls, hx, ⟨rfl, rfl⟩ | ⟨rfl, -⟩⟩ := omits_statement hb
  · have hstatement := hg _ (Tree.mem_followed_self _ _)
    have hclause : x.StopsBefore rest :=
      hg (x, rest) (by simp [Tree.followed, Tree.followedOf_singleton, Tree.mem_followed_self])
    have hopenings := Tree.nextIn_openings hstatement hclause
    apply Bool.eq_false_iff.2
    intro hnext
    cases rest with
    | nil => cases hs
    | cons t rest =>
      obtain ⟨k, hk, ht⟩ := nextIn_cons_iff.1 hnext
      obtain ⟨l, hl, htl⟩ := nextIn_cons_iff.1 hs
      obtain rfl : l = k := by simpa using htl.symm.trans ht
      rcases List.mem_cons.1 hk with rfl | hk
      · exact absurd hl (by decide)
      · have hopening := (mem_omits_clause hx hl).1 hk
        exact Bool.eq_false_iff.1 hopenings (nextIn_cons_iff.2 ⟨l, hopening, ht⟩)
  · cases rest <;> rfl

end

end Pattern

end Mykt
