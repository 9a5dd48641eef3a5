import Mykt.Grammar.Depth
import Mykt.Proofs.Grammar.Derivation

/-!
What the tokens ahead tell. The heads of a pattern are the terminals that begin what it allows; its
tails are the terminals that begin a part that may be left out at the end. Main statements: what is
derived begins with a head of its pattern, and omits at its end terminals among the tails.
-/

namespace Mykt

section

variable {ks ls : List Terminal} {t : Token} {ts us : List Token}

theorem nextIn_cons_iff : nextIn ks (t :: ts) = true ↔ ∃ k ∈ ks, t.kind = .terminal k := by
  simp [nextIn]

theorem nextIn_singleton_iff {k : Terminal} :
    nextIn [k] (t :: ts) = true ↔ t.kind = .terminal k := by
  simp [nextIn]

theorem nextIn_append_of_ne_nil (h : ts ≠ []) : nextIn ks (ts ++ us) = nextIn ks ts := by
  cases ts with
  | nil => exact absurd rfl h
  | cons t ts => rfl

theorem nextIn_append_terminals (ks ls : List Terminal) (ts : List Token) :
    nextIn (ks ++ ls) ts = (nextIn ks ts || nextIn ls ts) := by
  cases ts <;> simp [nextIn]

theorem nextIn_of_subset (hs : ks ⊆ ls) (h : nextIn ks ts = true) : nextIn ls ts = true := by
  cases ts with
  | nil => exact h
  | cons t ts =>
    obtain ⟨k, hk, ht⟩ := nextIn_cons_iff.1 h
    exact nextIn_cons_iff.2 ⟨k, hs hk, ht⟩

theorem nextIn_eq_false_of_subset (hs : ks ⊆ ls) (h : nextIn ls ts = false) :
    nextIn ks ts = false :=
  Bool.eq_false_iff.2 fun hk => Bool.eq_false_iff.1 h (nextIn_of_subset hs hk)

/-- No terminal is in both lists. -/
def apart (ks ls : List Terminal) : Bool := ks.all fun k => !ls.contains k

theorem nextIn_eq_false_of_apart (ha : apart ks ls = true) (h : nextIn ls ts = true) :
    nextIn ks ts = false := by
  cases ts with
  | nil => rfl
  | cons t ts =>
    obtain ⟨l, hl, ht⟩ := nextIn_cons_iff.1 h
    apply Bool.eq_false_iff.2
    intro hk
    obtain ⟨k, hk, ht'⟩ := nextIn_cons_iff.1 hk
    obtain rfl : k = l := by simpa using ht'.symm.trans ht
    simpa [hl] using List.all_eq_true.1 ha k hk

end

namespace Rule

open Terminal

def multiplicativeTails : List Terminal := [star, slash, percent, lpar]

def additiveTails : List Terminal := plus :: minus :: multiplicativeTails

def comparisonTails : List Terminal := lt :: gt :: le :: ge :: additiveTails

def equalityTails : List Terminal := eqEq :: notEq :: comparisonTails

def conjunctionTails : List Terminal := andAnd :: equalityTails

def expressionTails : List Terminal := orOr :: conjunctionTails

def statementTails : List Terminal :=
  semi :: colon :: equal :: elseWord :: expressionStarts ++ expressionTails

/-- The terminals that begin a part that a rule may leave out at its end. -/
def tails : Rule → List Terminal
  | file => importWord :: dot :: statementStarts ++ statementTails
  | preamble => [importWord, semi, dot]
  | importHeader => [semi, dot]
  | identifier => [dot]
  | statement => statementTails
  | functionDeclaration | functionBody | assignment | disjunction => expressionTails
  | variableDeclaration => colon :: equal :: expressionTails
  | returnStatement => expressionStarts ++ expressionTails
  | ifStatement => [elseWord]
  | conjunction => conjunctionTails
  | equality => equalityTails
  | comparison => comparisonTails
  | additive => additiveTails
  | multiplicative => multiplicativeTails
  | prefixExpression | unaryExpression | postfixExpression => [lpar]
  | simpleIdentifier | functionValueParameters | functionValueParameter | typeReference
  | whileStatement | block | callSuffix | primary | parenthesizedExpression | literal => []

end Rule

namespace Pattern

/-- The terminals that a reading with tokens begins with. -/
def heads : Pattern → List Terminal
  | empty => []
  | oneOf ks => ks
  | rule r => r.first
  | seq p q => p.heads ++ if p.isNullable then q.heads else []
  | alt p q => p.heads ++ q.heads
  | opt p => p.heads
  | many p => p.heads

/-- A single name is an assignment if an equals sign comes next. -/
def rivals (p : Pattern) (ts : List Token) : List Terminal :=
  if p = rule .assignment ∧ ts.length = 1 ∧ nextIn [.name] ts then [.equal] else []

/-- The terminals that begin a part that a pattern may leave out at its end. -/
def tails : Pattern → List Terminal
  | empty => []
  | oneOf _ => []
  | rule r => r.tails
  | seq p q => q.tails ++ if q.isNullable then p.tails else []
  | alt p q => p.tails ++ q.tails ++ if p = rule .assignment then [.equal] else []
  | opt p => p.heads ++ p.tails
  | many p => p.heads ++ p.tails

/-- The next token alone tells whether such a pattern begins. -/
def isHeaded : Pattern → Bool
  | oneOf _ => true
  | rule r => r ≠ .assignment
  | seq p _ => p.isHeaded && !p.isNullable
  | _ => false

end Pattern

theorem Rule.heads_body_subset (r : Rule) : r.body.heads ⊆ r.first := by
  cases r <;> decide

theorem Rule.tails_body_subset (r : Rule) : r.body.tails ⊆ r.tails := by
  cases r <;> decide

namespace Pattern

theorem starts_eq_nextIn {p : Pattern} (h : p.isHeaded = true) (ts : List Token) :
    p.starts ts = nextIn p.heads ts := by
  induction p with
  | oneOf ks => rfl
  | rule r =>
    have hr : r ≠ .assignment := by simpa [isHeaded] using h
    simp [starts, Rule.starts, heads, hr]
  | seq p q ihp =>
    simp only [isHeaded, Bool.and_eq_true, Bool.not_eq_true'] at h
    simp [starts, heads, h.2, ihp h.1]
  | empty | alt | opt | many => cases h

section

variable {p q : Pattern} {xs : List Tree}

theorem Derives.tokensOf_ne_nil (h : p.Derives xs) (hp : p.isNullable = false) :
    Tree.tokensOf xs ≠ [] := by
  induction h with
  | empty | absent | done => cases hp
  | oneOf => simp [Tree.tokensOf, Tree.tokens]
  | @rule r cs _ ih =>
    rw [Tree.tokensOf_singleton, Rule.tokens_wrap]
    exact ih (by simpa [isNullable, Rule.isNullable_body] using hp)
  | seq _ _ ihp ihq =>
    simp only [isNullable, Bool.and_eq_false_iff] at hp
    rw [Tree.tokensOf_append]
    intro he
    rw [List.append_eq_nil_iff] at he
    rcases hp with hp | hp
    · exact ihp hp he.1
    · exact ihq hp he.2
  | left _ ih =>
    simp only [isNullable, Bool.or_eq_false_iff] at hp
    exact ih hp.1
  | right _ ih =>
    simp only [isNullable, Bool.or_eq_false_iff] at hp
    exact ih hp.2
  | present | more => cases hp

/-- What is derived begins with a head of its pattern. -/
theorem Derives.nextIn_heads (h : p.Derives xs) (hx : Tree.tokensOf xs ≠ []) :
    nextIn p.heads (Tree.tokensOf xs) = true := by
  have either {ps qs : List Terminal} {ys zs : List Tree} (hs : Tree.tokensOf (ys ++ zs) ≠ [])
      (hy : Tree.tokensOf ys ≠ [] → nextIn ps (Tree.tokensOf ys) = true)
      (hz : Tree.tokensOf ys = [] → Tree.tokensOf zs ≠ [] → nextIn qs (Tree.tokensOf zs) = true) :
      nextIn (ps ++ qs) (Tree.tokensOf (ys ++ zs)) = true := by
    rw [Tree.tokensOf_append] at hs ⊢
    rw [nextIn_append_terminals, Bool.or_eq_true]
    by_cases he : Tree.tokensOf ys = []
    · rw [he, List.nil_append] at hs ⊢
      exact .inr (hz he hs)
    · rw [nextIn_append_of_ne_nil he, nextIn_append_of_ne_nil he]
      exact .inl (hy he)
  induction h with
  | empty | absent | done => exact absurd rfl hx
  | oneOf hk ht => exact nextIn_cons_iff.2 ⟨_, hk, ht⟩
  | @rule r cs _ ih =>
    rw [Tree.tokensOf_singleton, Rule.tokens_wrap] at hx ⊢
    exact nextIn_of_subset r.heads_body_subset (ih hx)
  | @seq p q ys zs hp _ ihp ihq =>
    refine either hx ihp ?_
    intro hy hz
    have hn : p.isNullable = true := by
      cases hn : p.isNullable with
      | true => rfl
      | false => exact absurd hy (hp.tokensOf_ne_nil hn)
    simpa [hn] using ihq hz
  | left _ ih =>
    rw [heads, nextIn_append_terminals, ih hx, Bool.true_or]
  | right _ ih =>
    rw [heads, nextIn_append_terminals, ih hx, Bool.or_true]
  | present _ ih => exact ih hx
  | more _ _ ihp ihq =>
    have := either hx ihp fun _ hz => ihq hz
    simpa [nextIn_append_terminals, heads] using this

end

/-- A derivation with the terminals that begin what it leaves out at its end. What stands before
trees counts for the end only if these hold no tokens. -/
inductive Omits : Pattern → List Tree → List Terminal → Prop where
  | empty : Omits empty [] []
  | oneOf {ks : List Terminal} {k : Terminal} {t : Token} (hk : k ∈ ks)
      (ht : t.kind = .terminal k) : Omits (oneOf ks) [.leaf t] []
  | rule {r : Rule} {cs : List Tree} {ks : List Terminal} (h : Omits r.body cs ks) :
      Omits (rule r) [r.wrap cs] ks
  | seq {p q : Pattern} {xs ys : List Tree} {ks ls : List Terminal} (hp : Omits p xs ks)
      (hq : Omits q ys ls) :
      Omits (seq p q) (xs ++ ys) (ls ++ if Tree.tokensOf ys = [] then ks else [])
  | left {p q : Pattern} {xs : List Tree} {ks : List Terminal} (h : Omits p xs ks) :
      Omits (alt p q) xs ks
  | right {p q : Pattern} {xs : List Tree} {ks : List Terminal} (h : Omits q xs ks) :
      Omits (alt p q) xs (ks ++ p.rivals (Tree.tokensOf xs))
  | absent {p : Pattern} : Omits (opt p) [] p.heads
  | present {p : Pattern} {xs : List Tree} {ks : List Terminal} (h : Omits p xs ks) :
      Omits (opt p) xs ks
  | done {p : Pattern} : Omits (many p) [] p.heads
  | more {p : Pattern} {xs ys : List Tree} {ks ls : List Terminal} (hp : Omits p xs ks)
      (hq : Omits (many p) ys ls) :
      Omits (many p) (xs ++ ys) (ls ++ if Tree.tokensOf ys = [] then ks else [])

section

variable {p q : Pattern} {xs : List Tree} {ks : List Terminal} {rest : List Token}

theorem Omits.derives (h : p.Omits xs ks) : p.Derives xs := by
  induction h with
  | empty => exact .empty
  | oneOf hk ht => exact .oneOf hk ht
  | rule _ ih => exact .rule ih
  | seq _ _ ihp ihq => exact .seq ihp ihq
  | left _ ih => exact .left ih
  | right _ ih => exact .right ih
  | absent => exact .absent
  | present _ ih => exact .present ih
  | done => exact .done
  | more _ _ ihp ihq => exact .more ihp ihq

theorem Derives.exists_omits (h : p.Derives xs) : ∃ ks, p.Omits xs ks := by
  induction h with
  | empty => exact ⟨_, .empty⟩
  | oneOf hk ht => exact ⟨_, .oneOf hk ht⟩
  | rule _ ih =>
    obtain ⟨ks, h⟩ := ih
    exact ⟨_, .rule h⟩
  | seq _ _ ihp ihq =>
    obtain ⟨ks, hp⟩ := ihp
    obtain ⟨ls, hq⟩ := ihq
    exact ⟨_, .seq hp hq⟩
  | left _ ih =>
    obtain ⟨ks, h⟩ := ih
    exact ⟨_, .left h⟩
  | right _ ih =>
    obtain ⟨ks, h⟩ := ih
    exact ⟨_, .right h⟩
  | absent => exact ⟨_, .absent⟩
  | present _ ih =>
    obtain ⟨ks, h⟩ := ih
    exact ⟨_, .present h⟩
  | done => exact ⟨_, .done⟩
  | more _ _ ihp ihq =>
    obtain ⟨ks, hp⟩ := ihp
    obtain ⟨ls, hq⟩ := ihq
    exact ⟨_, .more hp hq⟩

theorem rivals_subset (p : Pattern) (ts : List Token) :
    p.rivals ts ⊆ if p = rule .assignment then [.equal] else [] := by
  unfold rivals
  split
  · next h => simp [h.1]
  · exact List.nil_subset _

theorem Omits.subset_tails (h : p.Omits xs ks) : ks ⊆ p.tails := by
  have later {ls ms ns : List Terminal} {ys : List Tree} (hl : ls ⊆ ns)
      (hm : Tree.tokensOf ys = [] → ms ⊆ ns) :
      ls ++ (if Tree.tokensOf ys = [] then ms else []) ⊆ ns := by
    refine List.append_subset.2 ⟨hl, ?_⟩
    split
    · next he => exact hm he
    · exact List.nil_subset _
  induction h with
  | empty | oneOf => exact List.nil_subset _
  | @rule r _ _ _ ih => exact List.Subset.trans ih r.tails_body_subset
  | @seq p q _ ys _ _ _ hq ihp ihq =>
    refine later (List.Subset.trans ihq (List.subset_append_left _ _)) ?_
    intro he
    have hn : q.isNullable = true := by
      cases hn : q.isNullable with
      | true => rfl
      | false => exact absurd he (hq.derives.tokensOf_ne_nil hn)
    rw [tails, hn, if_pos rfl]
    exact List.Subset.trans ihp (List.subset_append_right _ _)
  | left _ ih =>
    rw [tails, List.append_assoc]
    exact List.Subset.trans ih (List.subset_append_left _ _)
  | @right p q ys _ _ ih =>
    rw [tails, List.append_assoc]
    refine List.Subset.trans (List.append_subset.2 ⟨?_, ?_⟩) (List.subset_append_right _ _)
    · exact List.Subset.trans ih (List.subset_append_left _ _)
    · exact List.Subset.trans (p.rivals_subset _) (List.subset_append_right _ _)
  | absent | done => exact List.subset_append_left _ _
  | present _ ih => exact List.Subset.trans ih (List.subset_append_right _ _)
  | more _ _ ihp ihq =>
    exact later ihq fun _ => List.Subset.trans ihp (List.subset_append_right _ _)

theorem omits_rule {r : Rule} (h : (rule r).Omits xs ks) :
    ∃ cs, r.body.Omits cs ks ∧ xs = [r.wrap cs] := by
  cases h with
  | rule h => exact ⟨_, h, rfl⟩

theorem omits_seq (h : (seq p q).Omits xs ks) :
    ∃ ys zs ls ms, p.Omits ys ls ∧ q.Omits zs ms ∧ xs = ys ++ zs ∧
      ks = ms ++ if Tree.tokensOf zs = [] then ls else [] := by
  cases h with
  | seq hp hq => exact ⟨_, _, _, _, hp, hq, rfl, rfl⟩

/-- Only the last part counts if it holds tokens. -/
theorem omits_seq_last (h : (seq p q).Omits xs ks) (hq : q.isNullable = false) :
    ∃ ys zs, p.Derives ys ∧ q.Omits zs ks ∧ xs = ys ++ zs := by
  obtain ⟨ys, zs, ls, ms, hy, hz, rfl, rfl⟩ := omits_seq h
  rw [if_neg (hz.derives.tokensOf_ne_nil hq), List.append_nil]
  exact ⟨ys, zs, hy.derives, hz, rfl⟩

theorem omits_opt (h : (opt p).Omits xs ks) : xs = [] ∧ ks = p.heads ∨ p.Omits xs ks := by
  cases h with
  | absent => exact .inl ⟨rfl, rfl⟩
  | present h => exact .inr h

theorem omits_alt (h : (alt p q).Omits xs ks) (hp : p ≠ rule .assignment) :
    p.Omits xs ks ∨ q.Omits xs ks := by
  cases h with
  | left h => exact .inl h
  | right h =>
    rw [show p.rivals _ = [] from if_neg fun hr => hp hr.1, List.append_nil]
    exact .inr h

theorem Omits.heads_subset_of_many (h : (many p).Omits xs ks) : p.heads ⊆ ks := by
  generalize hm : many p = m at h
  induction h with
  | done =>
    obtain rfl := many.inj hm
    exact List.Subset.refl _
  | more _ _ _ ih => exact List.subset_append_of_subset_left _ (ih hm)
  | _ => cases hm

end

end Pattern

end Mykt
