import Mykt.Proofs.Grammar.Juncture

/-!
What the reader takes. Main statements: the reader takes exactly the tokens that the grammar derives
and in which no `return` stands right before a name and an equals sign.
-/

namespace Mykt

namespace Rule

/-- Rules below which there is no semicolon and no `return`. -/
def isPhrase : Rule → Bool
  | file | preamble | importHeader | statement | functionDeclaration | functionBody
  | returnStatement | ifStatement | whileStatement | block => false
  | _ => true

end Rule

namespace Pattern

def isPhrase : Pattern → Bool
  | empty => true
  | oneOf ks => apart ks [.semi, .returnWord]
  | rule r => r.isPhrase
  | seq p q => p.isPhrase && q.isPhrase
  | alt p q => p.isPhrase && q.isPhrase
  | opt p => p.isPhrase
  | many p => p.isPhrase

/-- Each semicolon of such a pattern may be left out, each `return` begins a statement, and no
equals sign comes right behind a part with either. -/
def isSpaced : Pattern → Bool
  | empty => true
  | oneOf ks => apart ks [.semi, .returnWord]
  | rule _ => true
  | seq p q => p.isSpaced && q.isSpaced && (p.isPhrase || !q.heads.contains .equal)
  | alt p q => p.isSpaced && q.isSpaced
  | opt p => p = oneOf [.semi] || p.isSpaced
  | many p => p.isSpaced && (p.isPhrase || !p.heads.contains .equal)

end Pattern

theorem Rule.isPhrase_body (r : Rule) (h : r.isPhrase = true) : r.body.isPhrase = true := by
  revert h
  cases r <;> decide

theorem Rule.isSpaced_body (r : Rule) (h : r ≠ .returnStatement) : r.body.isSpaced = true := by
  revert h
  cases r <;> decide

namespace Pattern

section

variable {p q : Pattern} {xs ys : List Tree} {us vs rest : List Token} {t : Token}

theorem Derives.kind_ne_of_isPhrase (h : p.Derives xs) (hp : p.isPhrase = true)
    (ht : t ∈ Tree.tokensOf xs) {k : Terminal} (hk : k ∈ [.semi, .returnWord]) :
    t.kind ≠ .terminal k := by
  induction h with
  | empty | absent | done => cases ht
  | @oneOf ks l u hl hu =>
    obtain rfl : t = u := by simpa [Tree.tokensOf, Tree.tokens] using ht
    intro he
    obtain rfl : l = k := by simpa using hu.symm.trans he
    have hfree : l ∉ [.semi, .returnWord] := by simpa using List.all_eq_true.1 hp l hl
    exact hfree hk
  | @rule r _ _ ih =>
    rw [Tree.tokensOf_singleton, Rule.tokens_wrap] at ht
    exact ih (r.isPhrase_body hp) ht
  | seq _ _ ihp ihq =>
    simp only [isPhrase, Bool.and_eq_true] at hp
    rw [Tree.tokensOf_append, List.mem_append] at ht
    rcases ht with ht | ht
    · exact ihp hp.1 ht
    · exact ihq hp.2 ht
  | left _ ih =>
    simp only [isPhrase, Bool.and_eq_true] at hp
    exact ih hp.1 ht
  | right _ ih =>
    simp only [isPhrase, Bool.and_eq_true] at hp
    exact ih hp.2 ht
  | present _ ih => exact ih hp ht
  | more _ _ ihp ihq =>
    rw [Tree.tokensOf_append, List.mem_append] at ht
    rcases ht with ht | ht
    · exact ihp hp ht
    · exact ihq hp ht

/-- Behind a part with a semicolon or a `return` no equals sign comes. -/
theorem nextIn_equal_eq_false (hp : p.Derives xs) (hq : q.Derives ys)
    (hs : (p.isPhrase || !q.heads.contains .equal) = true) (ht : t ∈ Tree.tokensOf xs)
    {k : Terminal} (hk : k ∈ [.semi, .returnWord]) (hkind : t.kind = .terminal k) :
    nextIn [.equal] (Tree.tokensOf ys) = false := by
  rcases Bool.or_eq_true _ _ ▸ hs with hphrase | hheads
  · exact absurd hkind (hp.kind_ne_of_isPhrase hphrase ht hk)
  · by_cases he : Tree.tokensOf ys = []
    · rw [he]
      rfl
    · have hapart : apart [.equal] q.heads = true := by simpa [apart] using hheads
      exact nextIn_eq_false_of_apart hapart (hq.nextIn_heads he)

/-- In a phrase no `return` meets an assignment. -/
theorem Derives.meets_eq_false (h : p.Derives xs) (hp : p.isPhrase = true)
    (hu : us ⊆ Tree.tokensOf xs) : returnMeetsAssignment us vs = false := by
  apply Bool.eq_false_iff.2
  intro hm
  obtain ⟨t, ht, hkind⟩ := exists_mem_of_meets hm
  exact h.kind_ne_of_isPhrase hp (hu ht) (by decide) hkind

/-- A `return` of two parts is one of the first or one of the second. -/
theorem length_of_meets_append (hp : p.Derives xs) (hq : q.Derives ys)
    (hs : (p.isPhrase || !q.heads.contains .equal) = true)
    (hx : ∀ {us vs}, Tree.tokensOf xs = us ++ vs →
      returnMeetsAssignment us (vs ++ (Tree.tokensOf ys ++ rest)) = true → vs.length = 1)
    (hy : ∀ {us vs}, Tree.tokensOf ys = us ++ vs →
      returnMeetsAssignment us (vs ++ rest) = true → vs.length = 1)
    (ht : Tree.tokensOf (xs ++ ys) = us ++ vs)
    (hm : returnMeetsAssignment us (vs ++ rest) = true) : vs.length = 1 := by
  rw [Tree.tokensOf_append] at ht
  rcases List.append_eq_append_iff.1 ht with ⟨cs, rfl, hys⟩ | ⟨cs, hxs, rfl⟩
  · by_cases hcs : cs = []
    · subst hcs
      rw [List.append_nil] at hm
      rw [List.nil_append] at hys
      cases hx (List.append_nil _).symm (by rwa [List.nil_append, hys])
    · rw [returnMeetsAssignment_of_ne_nil hcs] at hm
      exact hy hys hm
  · rw [List.append_assoc] at hm
    have hlength := hx hxs hm
    obtain ⟨n, rfl⟩ := List.length_eq_one_iff.1 hlength
    by_cases he : Tree.tokensOf ys = []
    · rw [he, List.append_nil, hlength]
    · obtain ⟨t, hmem, hkind⟩ := exists_mem_of_meets hm
      have hequal : nextIn [.equal] (Tree.tokensOf ys ++ rest) = true := (starts_of_meets hm).2
      rw [nextIn_append_of_ne_nil he, nextIn_equal_eq_false hp hq hs (t := t)
        (by simp [hxs, hmem]) (by decide) hkind] at hequal
      cases hequal

/-- A bare `return` is not read before a name, and one with a value not before an equals sign,
unless the value is a name. -/
theorem length_of_meets_returnStatement (h : Rule.returnStatement.body.Reads xs rest)
    (ht : Tree.tokensOf xs = us ++ vs) (hm : returnMeetsAssignment us (vs ++ rest) = true) :
    vs.length = 1 := by
  cases h with
  | @seq _ _ xs ys _ hword hvalue =>
    obtain ⟨word, -, rfl⟩ := derives_oneOf_iff.1 hword.derives
    rw [Tree.tokensOf_append] at ht
    -- the word comes first, and no other `return` stands behind it
    obtain ⟨rfl, rfl⟩ : us = [word] ∧ vs = Tree.tokensOf ys := by
      cases us with
      | nil => cases hm
      | cons u us =>
        obtain ⟨rfl, htail⟩ : word = u ∧ Tree.tokensOf ys = us ++ vs := List.cons.inj ht
        by_cases hus : us = []
        · exact ⟨by rw [hus], by rw [htail, hus, List.nil_append]⟩
        · rw [← List.singleton_append, returnMeetsAssignment_of_ne_nil hus,
            hvalue.derives.meets_eq_false rfl (by simp [htail])] at hm
          cases hm
    obtain ⟨hname, hequal⟩ := starts_of_meets hm
    cases hvalue with
    | absent hs =>
      have hnone : nextIn Rule.expressionStarts rest = false := by
        rwa [starts_eq_nextIn rfl] at hs
      rw [Tree.tokensOf, List.nil_append] at hname
      exact absurd hname (Bool.eq_false_iff.1 (nextIn_eq_false_of_subset (by decide) hnone))
    | present _ hvalue =>
      cases hts : Tree.tokensOf ys with
      | nil => exact absurd hts (hvalue.derives.tokensOf_ne_nil rfl)
      | cons n others =>
        cases others with
        | nil => rfl
        | cons e others =>
          rw [hts] at hequal
          exact absurd (nextIn_singleton_iff.1 hequal)
            (hvalue.derives.kind_ne_equal rfl (by simp [hts]))

/-- Behind a `return` that is read, a name and an equals sign come only if the name is all that is
read. -/
theorem Reads.length_of_meets (h : p.Reads xs rest) (hp : p.isSpaced = true)
    (ht : Tree.tokensOf xs = us ++ vs) (hm : returnMeetsAssignment us (vs ++ rest) = true) :
    vs.length = 1 := by
  have hphrase {q : Pattern} {ys : List Tree} {us vs rest : List Token} (hq : q.Derives ys)
      (hp : q.isPhrase = true) (ht : Tree.tokensOf ys = us ++ vs)
      (hm : returnMeetsAssignment us (vs ++ rest) = true) : vs.length = 1 := by
    rw [hq.meets_eq_false hp (by simp [ht])] at hm
    cases hm
  induction h generalizing us vs with
  | empty | absent | done => exact hphrase .empty rfl ht hm
  | oneOf hk hu => exact hphrase (.oneOf hk hu) hp ht hm
  | @rule r cs rest h ih =>
    rw [Tree.tokensOf_singleton, Rule.tokens_wrap] at ht
    by_cases hr : r = .returnStatement
    · subst hr
      exact length_of_meets_returnStatement h ht hm
    · exact ih (r.isSpaced_body hr) ht hm
  | seq hy hz ihp ihq =>
    simp only [isSpaced, Bool.and_eq_true] at hp
    exact length_of_meets_append hy.derives hz.derives hp.2 (ihp hp.1.1) (ihq hp.1.2) ht hm
  | left _ _ ih =>
    simp only [isSpaced, Bool.and_eq_true] at hp
    exact ih hp.1 ht hm
  | right _ _ ih =>
    simp only [isSpaced, Bool.and_eq_true] at hp
    exact ih hp.2 ht hm
  | present _ h ih =>
    simp only [isSpaced, Bool.or_eq_true, decide_eq_true_eq] at hp
    rcases hp with rfl | hp
    · obtain ⟨t, ⟨k, hk, hsemi⟩, rfl⟩ := derives_oneOf_iff.1 h.derives
      obtain ⟨u, hu, hreturn⟩ := exists_mem_of_meets hm
      obtain rfl : u = t := by
        have hmem : u ∈ Tree.tokensOf [.leaf t] := ht ▸ List.mem_append_left vs hu
        simpa [Tree.tokensOf, Tree.tokens] using hmem
      obtain rfl := List.mem_singleton.1 hk
      cases hsemi.symm.trans hreturn
    · exact ih hp ht hm
  | more _ hy hz ihp ihq =>
    have hmany := hp
    simp only [isSpaced, Bool.and_eq_true] at hp
    exact length_of_meets_append hy.derives hz.derives hp.2 (ihp hp.1) (ihq hmany) ht hm

end

end Pattern

/-- The reader takes exactly the tokens that the grammar derives, unless a `return` meets an
assignment. -/
theorem exists_parseTokens_iff {ts : List Token} :
    (∃ t, parseTokens ts = .ok t) ↔
      (∃ xs, (Pattern.rule .file).Derives xs ∧ Tree.tokensOf xs = ts) ∧ ReturnsApart ts := by
  constructor
  · rintro ⟨t, ht⟩
    obtain ⟨hreads, rfl⟩ := parseTokens_eq_ok_iff_reads.1 ht
    refine ⟨⟨[t], hreads.derives, Tree.tokensOf_singleton t⟩, ?_⟩
    intro before behind hts
    apply Bool.eq_false_iff.2
    intro hm
    have hlength : behind.length = 1 :=
      hreads.length_of_meets rfl (by rw [Tree.tokensOf_singleton, hts]) (by simpa using hm)
    obtain ⟨n, rfl⟩ := List.length_eq_one_iff.1 hlength
    cases (starts_of_meets hm).2
  · rintro ⟨⟨xs, hd, rfl⟩, hapart⟩
    obtain ⟨ys, hy, htokens⟩ := hd.admits rfl hapart
    obtain ⟨t, rfl⟩ := Pattern.exists_eq_singleton_of_derives hy.derives
    refine ⟨t, parseTokens_eq_ok_iff_reads.2 ⟨hy [] rfl, ?_⟩⟩
    rw [← htokens, Tree.tokensOf_singleton]

end Mykt
