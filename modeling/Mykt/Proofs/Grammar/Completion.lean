import Mykt.Proofs.Grammar.Decision

/-!
Trees that are read before whatever does not go on with them. Main statements: parts that are
accepted are accepted as a whole; a pattern that is productive accepts a text that can be written.
-/

namespace Mykt

namespace Lexer

theorem exists_spells (k : Terminal) : ∃ cs, Spells k cs := by
  have words : ∀ w ∈ ['x'] :: Terminal.keywords.map (·.1),
      w.head?.any isNameStart = true ∧ w.tail.all isNamePart = true := by
    decide
  have written : k = .int ∨ k = .string ∨
      (∃ w ∈ ['x'] :: Terminal.keywords.map (·.1), wordTerminal w = k) ∨
      ∃ x ∈ Terminal.operators, x.2 = k := by
    cases k <;> decide
  rcases written with rfl | rfl | ⟨w, hw, rfl⟩ | ⟨x, hx, rfl⟩
  · have hdigits : ['0'].all isDigit = true := rfl
    exact ⟨['0'], .int (List.all_eq_true.1 hdigits)⟩
  · exact ⟨['"', '"'], @Spells.string ['"'] ['"'] [] rfl⟩
  · obtain ⟨hfirst, hrest⟩ := words w hw
    obtain ⟨c, hc, hstart⟩ := (Option.any_eq_true _ _).1 hfirst
    obtain ⟨rest, rfl⟩ := List.head?_eq_some_iff.1 hc
    exact ⟨_, .word ⟨c, rest, rfl, hstart, List.all_eq_true.1 hrest⟩⟩
  · exact ⟨x.1, .operator hx⟩

end Lexer

theorem Token.exists_isSpelled (k : Terminal) :
    ∃ x : Token, x.kind = .terminal k ∧ x.IsSpelled := by
  obtain ⟨cs, h⟩ := Lexer.exists_spells k
  exact ⟨⟨.terminal k, String.ofList cs, 1, 0⟩, rfl, k, rfl, by simpa using h⟩

namespace Pattern

/-- Trees that are read before all tokens with which the pattern could not go on. -/
def Accepts (p : Pattern) (xs : List Tree) : Prop :=
  ∀ rest, nextIn p.tails rest = false → p.Reads xs rest

namespace Accepts

variable {p q : Pattern} {xs ys : List Tree}

theorem derives (h : p.Accepts xs) : p.Derives xs := (h [] rfl).derives

theorem rule {r : Rule} (h : r.body.Accepts xs) : (rule r).Accepts [r.wrap xs] := by
  intro rest hr
  exact .rule (h rest (nextIn_eq_false_of_subset r.tails_body_subset hr))

/-- A first part is read before a second that it cannot go on with. -/
theorem seq_of_reads (hq : q.Accepts ys)
    (hp : ∀ rest, nextIn (seq p q).tails rest = false → p.Reads xs (Tree.tokensOf ys ++ rest)) :
    (seq p q).Accepts (xs ++ ys) := by
  intro rest hr
  have hlast := nextIn_eq_false_of_subset (List.subset_append_left _ _) hr
  exact .seq (hp rest hr) (hq rest hlast)

theorem seq (hc : (seq p q).isClear = true) (hp : p.Accepts xs) (hq : q.Accepts ys) :
    (seq p q).Accepts (xs ++ ys) := by
  apply hq.seq_of_reads
  intro rest hr
  apply hp
  by_cases he : Tree.tokensOf ys = []
  · have hnull : q.isNullable = true := by
      by_contra hnot
      exact hq.derives.tokensOf_ne_nil (by simpa using hnot) he
    rw [tails, hnull, if_pos rfl] at hr
    rw [he, List.nil_append]
    exact nextIn_eq_false_of_subset (List.subset_append_right _ _) hr
  · simp only [isClear, Bool.and_eq_true] at hc
    rw [nextIn_append_of_ne_nil he]
    exact nextIn_eq_false_of_apart hc.2 (hq.derives.nextIn_heads he)

theorem left (hc : (alt p q).isClear = true) (h : p.Accepts xs) : (alt p q).Accepts xs := by
  intro rest hr
  rw [tails, List.append_assoc] at hr
  have hown := nextIn_eq_false_of_subset (List.subset_append_left _ _) hr
  exact .left (h.derives.starts_left hc rest) (h rest hown)

theorem right (hc : (alt p q).isClear = true) (h : q.Accepts xs) : (alt p q).Accepts xs := by
  intro rest hr
  rw [tails, nextIn_append_terminals, nextIn_append_terminals, Bool.or_eq_false_iff,
    Bool.or_eq_false_iff] at hr
  have hrivals := nextIn_eq_false_of_subset (p.rivals_subset (Tree.tokensOf xs)) hr.2
  exact .right (h.derives.starts_right hc hrivals) (h rest hr.1.2)

theorem absent (hc : (opt p).isClear = true) : (opt p).Accepts [] := by
  intro rest hr
  simp only [isClear, Bool.and_eq_true] at hc
  have hheads := nextIn_eq_false_of_subset (List.subset_append_left _ _) hr
  exact .absent (by rwa [starts_eq_nextIn hc.2])

theorem present (hc : (opt p).isClear = true) (h : p.Accepts xs) : (opt p).Accepts xs := by
  intro rest hr
  simp only [isClear, Bool.and_eq_true, Bool.not_eq_true'] at hc
  have hown := nextIn_eq_false_of_subset (List.subset_append_right _ _) hr
  exact .present (h.derives.starts hc.2 hc.1.2 rest) (h rest hown)

theorem done (hc : (many p).isClear = true) : (many p).Accepts [] := by
  intro rest hr
  simp only [isClear, Bool.and_eq_true] at hc
  have hheads := nextIn_eq_false_of_subset (List.subset_append_left _ _) hr
  exact .done (by rwa [starts_eq_nextIn hc.1.2])

/-- One more part is read before others if it is read before what they hold. -/
theorem more_of_reads (hc : (many p).isClear = true) (hq : (many p).Accepts ys)
    (hp : ∀ rest, nextIn (many p).tails rest = false → p.Reads xs (Tree.tokensOf ys ++ rest)) :
    (many p).Accepts (xs ++ ys) := by
  intro rest hr
  simp only [isClear, Bool.and_eq_true, Bool.not_eq_true'] at hc
  have hread := hp rest hr
  exact .more (hread.derives.starts hc.1.2 hc.1.1.2 _) hread (hq rest hr)

theorem once (hc : (many p).isClear = true) (h : p.Accepts xs) : (many p).Accepts xs := by
  rw [← List.append_nil xs]
  apply (done hc).more_of_reads hc
  intro rest hr
  exact h rest (nextIn_eq_false_of_subset (List.subset_append_right _ _) hr)

end Accepts

/-- A text of the pattern is found within the given number of nested parts, if optional parts are
left out. -/
def isProductive : Nat → Pattern → Bool
  | 0, _ => false
  | _ + 1, empty => true
  | _ + 1, oneOf ks => !ks.isEmpty
  | n + 1, rule r => isProductive n r.body
  | n + 1, seq p q => isProductive n p && isProductive n q
  | n + 1, alt p q => isProductive n p || isProductive n q
  | _ + 1, opt _ => true
  | _ + 1, many _ => true

/-- A productive pattern accepts a text that can be written. -/
theorem exists_accepts {n : Nat} {p : Pattern} (h : p.isProductive n = true)
    (hp : p.isClear = true) :
    ∃ xs, p.Accepts xs ∧ ∀ x ∈ Tree.tokensOf xs, x.IsSpelled := by
  induction n generalizing p with
  | zero => cases h
  | succ n ih =>
    cases p with
    | empty => exact ⟨[], fun _ _ => .empty, fun _ hx => nomatch hx⟩
    | oneOf ks =>
      cases ks with
      | nil => cases h
      | cons k ks =>
        obtain ⟨x, hkind, hspelled⟩ := Token.exists_isSpelled k
        refine ⟨[.leaf x], fun _ _ => .oneOf List.mem_cons_self hkind, ?_⟩
        simpa [Tree.tokensOf, Tree.tokens] using hspelled
    | rule r =>
      obtain ⟨cs, haccepts, hspelled⟩ := ih h r.isClear_body
      refine ⟨[r.wrap cs], haccepts.rule, ?_⟩
      rwa [Tree.tokensOf_singleton, Rule.tokens_wrap]
    | seq p q =>
      have hclear := hp
      simp only [isClear, Bool.and_eq_true] at hp
      simp only [isProductive, Bool.and_eq_true] at h
      obtain ⟨xs, hx, hspelledX⟩ := ih h.1 hp.1.1
      obtain ⟨ys, hy, hspelledY⟩ := ih h.2 hp.1.2
      refine ⟨xs ++ ys, hx.seq hclear hy, ?_⟩
      rw [Tree.tokensOf_append]
      exact List.forall_mem_append.2 ⟨hspelledX, hspelledY⟩
    | alt p q =>
      have hclear := hp
      simp only [isClear, Bool.and_eq_true] at hp
      simp only [isProductive, Bool.or_eq_true] at h
      rcases h with h | h
      · obtain ⟨xs, hx, hspelled⟩ := ih h hp.1.1.1.1
        exact ⟨xs, hx.left hclear, hspelled⟩
      · obtain ⟨xs, hx, hspelled⟩ := ih h hp.1.1.1.2
        exact ⟨xs, hx.right hclear, hspelled⟩
    | opt p => exact ⟨[], .absent hp, fun _ hx => nomatch hx⟩
    | many p => exact ⟨[], .done hp, fun _ hx => nomatch hx⟩

end Pattern

end Mykt
