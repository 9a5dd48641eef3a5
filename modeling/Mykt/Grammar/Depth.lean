import Mykt.Grammar.Parser

/-!
How deep readings nest. The rank of a pattern bounds the readings that nest before a token is taken,
and no rank of the grammar reaches the depth that is given for each token. Main statement: a reading
obeys the equations of its pattern, in which no depth occurs.
-/

namespace Mykt

namespace Rule

/-- Rules that can be read without taking a token. -/
def isNullable : Rule → Bool
  | file | preamble => true
  | _ => false

def rank : Rule → Nat
  | file => 33
  | statement => 30
  | disjunction => 22
  | conjunction => 20
  | equality => 18
  | comparison => 16
  | additive => 14
  | multiplicative => 12
  | prefixExpression => 10
  | postfixExpression => 8
  | primary => 6
  | preamble | functionBody => 5
  | identifier | functionValueParameter | assignment => 4
  | simpleIdentifier | typeReference | literal => 2
  | _ => 3

end Rule

namespace Pattern

def isNullable : Pattern → Bool
  | empty => true
  | oneOf _ => false
  | rule r => r.isNullable
  | seq p q => p.isNullable && q.isNullable
  | alt p q => p.isNullable || q.isNullable
  | opt _ => true
  | many _ => true

def rank : Pattern → Nat
  | empty => 1
  | oneOf _ => 1
  | rule r => r.rank
  | seq p q => 1 + max p.rank (if p.isNullable then q.rank else 0)
  | alt p q => 1 + max p.rank q.rank
  | opt p => 1 + p.rank
  | many p => 1 + p.rank

/-- No part has a rank that reaches the depth for one token, and what is repeated takes tokens. -/
def isProper : Pattern → Bool
  | empty => true
  | oneOf _ => true
  | rule _ => true
  | seq p q => p.isProper && q.isProper && q.rank < 64
  | alt p q => p.isProper && q.isProper
  | opt p => p.isProper
  | many p => p.isProper && !p.isNullable && p.rank < 63

end Pattern

namespace Rule

theorem isNullable_body (r : Rule) : r.body.isNullable = r.isNullable := by
  cases r <;> decide

theorem rank_body_lt (r : Rule) : r.body.rank < r.rank := by
  cases r <;> decide

theorem rank_lt (r : Rule) : r.rank < 64 := by
  cases r <;> decide

theorem isProper_body (r : Rule) : r.body.isProper = true := by
  cases r <;> decide

end Rule

namespace Pattern

theorem rank_pos (p : Pattern) : 0 < p.rank := by
  cases p with
  | rule r => cases r <;> decide
  | _ =>
    rw [rank]
    omega

/-- A reading gives back no more than it was given, and less if the pattern takes a token. -/
theorem length_of_read {n : Nat} {p : Pattern} {ts rest : List Token} {xs : List Tree}
    (h : read n p ts = .ok (xs, rest)) :
    rest.length ≤ ts.length ∧ (p.isNullable = false → rest.length < ts.length) := by
  induction n generalizing p ts xs rest with
  | zero => simp [read] at h
  | succ n ih =>
    cases p with
    | empty =>
      simp only [read, Except.ok.injEq, Prod.mk.injEq] at h
      simp [h.2, isNullable]
    | oneOf ks =>
      cases ts with
      | nil => simp [read] at h
      | cons t ts =>
        simp only [read] at h
        split at h
        · simp only [Except.ok.injEq, Prod.mk.injEq] at h
          simp [← h.2]
        · simp at h
    | rule r =>
      simp only [read] at h
      split at h
      · simp at h
      · next cs mid hb =>
        simp only [Except.ok.injEq, Prod.mk.injEq] at h
        obtain ⟨_, rfl⟩ := h
        simpa [isNullable, Rule.isNullable_body] using ih hb
    | seq p q =>
      simp only [read] at h
      split at h
      · simp at h
      · next ys mid hp =>
        split at h
        · simp at h
        · next zs rest' hq =>
          simp only [Except.ok.injEq, Prod.mk.injEq] at h
          obtain ⟨_, rfl⟩ := h
          have hp := ih hp
          have hq := ih hq
          refine ⟨by omega, fun hn => ?_⟩
          simp only [isNullable, Bool.and_eq_false_iff] at hn
          rcases hn with hn | hn
          · have := hp.2 hn
            omega
          · have := hq.2 hn
            omega
    | alt p q =>
      simp only [read] at h
      split at h
      · have hp := ih h
        exact ⟨hp.1, fun hn => hp.2 (by simp_all [isNullable])⟩
      · have hq := ih h
        exact ⟨hq.1, fun hn => hq.2 (by simp_all [isNullable])⟩
    | opt p =>
      simp only [read] at h
      split at h
      · exact ⟨(ih h).1, by simp [isNullable]⟩
      · simp only [Except.ok.injEq, Prod.mk.injEq] at h
        simp [h.2, isNullable]
    | many p =>
      refine ⟨?_, by simp [isNullable]⟩
      simp only [read] at h
      split at h
      · split at h
        · simp at h
        · next ys mid hp =>
          split at h
          · simp at h
          · next zs rest' hq =>
            simp only [Except.ok.injEq, Prod.mk.injEq] at h
            obtain ⟨_, rfl⟩ := h
            have hp := ih hp
            have hq := ih hq
            omega
      · simp only [Except.ok.injEq, Prod.mk.injEq] at h
        simp [h.2]

/-- Depth beyond what the tokens and the rank ask for changes nothing. -/
theorem read_succ {n : Nat} {p : Pattern} {ts : List Token} (hp : p.isProper = true)
    (hn : 64 * ts.length + p.rank ≤ n) : read (n + 1) p ts = read n p ts := by
  induction n generalizing p ts with
  | zero =>
    have := p.rank_pos
    omega
  | succ n ih =>
    cases p with
    | empty => simp [read]
    | oneOf ks => cases ts <;> simp [read]
    | rule r =>
      have hr := r.rank_body_lt
      simp only [rank] at hn
      rw [read, read, ih r.isProper_body (by omega)]
    | seq p q =>
      simp only [isProper, Bool.and_eq_true, decide_eq_true_eq] at hp
      simp only [rank] at hn
      rw [read, read, ih hp.1.1 (by omega)]
      split
      · rfl
      · next xs mid hread =>
        have hl := length_of_read hread
        have hq : 64 * mid.length + q.rank ≤ n := by
          by_cases hnull : p.isNullable
          · simp only [hnull, if_true] at hn
            omega
          · have := hl.2 (by simpa using hnull)
            omega
        rw [ih hp.1.2 hq]
    | alt p q =>
      simp only [isProper, Bool.and_eq_true] at hp
      simp only [rank] at hn
      rw [read, read, ih hp.1 (by omega), ih hp.2 (by omega)]
    | opt p =>
      simp only [isProper] at hp
      simp only [rank] at hn
      rw [read, read, ih hp (by omega)]
    | many p =>
      have hm := hp
      simp only [isProper, Bool.and_eq_true, decide_eq_true_eq, Bool.not_eq_true'] at hp
      simp only [rank] at hn
      rw [read, read, ih hp.1.1 (by omega)]
      split
      · split
        · rfl
        · next xs mid hread =>
          have hl := (length_of_read hread).2 hp.1.2
          rw [ih hm (by simp only [rank]; omega)]
      · rfl

theorem read_eq_run {n : Nat} {p : Pattern} {ts : List Token} (hp : p.isProper = true)
    (hr : p.rank ≤ 64) (hn : 64 * ts.length + p.rank ≤ n) : read n p ts = p.run ts := by
  have key (m : Nat) (hm : 64 * ts.length + p.rank ≤ m) :
      read m p ts = read (64 * ts.length + p.rank) p ts := by
    obtain ⟨k, rfl⟩ := Nat.exists_eq_add_of_le hm
    induction k with
    | zero => rfl
    | succ k ih => rw [← Nat.add_assoc, read_succ hp (by omega), ih (by omega)]
  rw [key n hn, run, key (readingDepth ts) (by simp only [readingDepth]; omega)]

theorem run_eq_read (p : Pattern) (ts : List Token) :
    p.run ts = read (64 * ts.length + 63 + 1) p ts := by
  rw [run, readingDepth, Nat.mul_add]

theorem run_empty (ts : List Token) : run empty ts = .ok ([], ts) := by
  rw [run_eq_read, read]

theorem run_oneOf_nil (ks : List Terminal) : run (oneOf ks) [] = .error [] := by
  rw [run_eq_read, read]

theorem run_oneOf_cons (ks : List Terminal) (t : Token) (ts : List Token) :
    run (oneOf ks) (t :: ts) =
      if nextIn ks [t] then .ok ([.leaf t], ts) else .error (t :: ts) := by
  rw [run_eq_read, read]

theorem run_rule (r : Rule) (ts : List Token) :
    run (rule r) ts = (r.body.run ts).map fun x => ([r.wrap x.1], x.2) := by
  have h₁ := r.rank_body_lt
  have h₂ := r.rank_lt
  have h : read (64 * ts.length + 63) r.body ts = r.body.run ts :=
    read_eq_run r.isProper_body (by omega) (by omega)
  cases hread : r.body.run ts <;> simp [run_eq_read (rule r), read, h, hread, Except.map]

theorem run_seq {p q : Pattern} (hp : (seq p q).isProper = true) (hr : (seq p q).rank ≤ 64)
    (ts : List Token) :
    run (seq p q) ts =
      (p.run ts).bind fun x => (q.run x.2).map fun y => (x.1 ++ y.1, y.2) := by
  simp only [isProper, Bool.and_eq_true, decide_eq_true_eq] at hp
  simp only [rank] at hr
  have h : read (64 * ts.length + 63) p ts = p.run ts := read_eq_run hp.1.1 (by omega) (by omega)
  cases hread : p.run ts with
  | error e => simp [run_eq_read (seq p q), read, h, hread, Except.bind]
  | ok x =>
    obtain ⟨xs, mid⟩ := x
    have hl := length_of_read hread
    have hq : 64 * mid.length + q.rank ≤ 64 * ts.length + 63 := by
      by_cases hnull : p.isNullable
      · simp only [hnull, if_true] at hr
        omega
      · have := hl.2 (by simpa using hnull)
        omega
    have hrest := read_eq_run hp.1.2 (by omega) hq
    cases hmid : q.run mid <;>
      simp [run_eq_read (seq p q), read, h, hread, hrest, hmid, Except.bind, Except.map]

theorem run_alt {p q : Pattern} (hp : (alt p q).isProper = true) (hr : (alt p q).rank ≤ 64)
    (ts : List Token) :
    run (alt p q) ts = if p.starts ts then p.run ts else q.run ts := by
  simp only [isProper, Bool.and_eq_true] at hp
  simp only [rank] at hr
  rw [run_eq_read, read, read_eq_run hp.1 (by omega) (by omega),
    read_eq_run hp.2 (by omega) (by omega)]

theorem run_opt {p : Pattern} (hp : (opt p).isProper = true) (hr : (opt p).rank ≤ 64)
    (ts : List Token) :
    run (opt p) ts = if p.starts ts then p.run ts else .ok ([], ts) := by
  simp only [isProper] at hp
  simp only [rank] at hr
  rw [run_eq_read, read, read_eq_run hp (by omega) (by omega)]

theorem run_many {p : Pattern} (hp : (many p).isProper = true) (ts : List Token) :
    run (many p) ts =
      if p.starts ts then
        (p.run ts).bind fun x => (run (many p) x.2).map fun y => (x.1 ++ y.1, y.2)
      else .ok ([], ts) := by
  have hm := hp
  simp only [isProper, Bool.and_eq_true, decide_eq_true_eq, Bool.not_eq_true'] at hp
  have h : read (64 * ts.length + 63) p ts = p.run ts := read_eq_run hp.1.1 (by omega) (by omega)
  by_cases hs : p.starts ts
  · cases hread : p.run ts with
    | error e => simp [run_eq_read (many p) ts, read, h, hs, hread, Except.bind]
    | ok x =>
      obtain ⟨xs, mid⟩ := x
      have hl := (length_of_read hread).2 hp.1.2
      have hrank : (many p).rank = 1 + p.rank := rfl
      have hrest : read (64 * ts.length + 63) (many p) mid = run (many p) mid :=
        read_eq_run hm (by omega) (by omega)
      rw [run_eq_read (many p) ts, read]
      cases hmid : run (many p) mid <;>
        simp [h, hs, hread, hrest, hmid, Except.bind, Except.map]
  · simp [run_eq_read (many p) ts, read, hs]

/-- A run gives back no more than it was given, and less if the pattern takes a token. -/
theorem length_of_run {p : Pattern} {ts rest : List Token} {xs : List Tree}
    (h : p.run ts = .ok (xs, rest)) :
    rest.length ≤ ts.length ∧ (p.isNullable = false → rest.length < ts.length) :=
  length_of_read h

end Pattern

end Mykt
