import Mykt.Proofs.Token.Partition
import Mykt.Proofs.Token.Spacing

/-!
Layout means nothing. Main statements: reading looks at the kinds of tokens alone, so a change of
tokens that keeps their kinds changes the tree at its leaves only; texts with the same terminals
have the same tree but for the places, and so has the text of a tree's terminals with a blank
between them.
-/

namespace Mykt

namespace Tree

mutual

/-- The tree with another token at each leaf. -/
def relabel (f : Token → Token) : Tree → Tree
  | leaf x => leaf (f x)
  | node k cs => node k (relabelAll f cs)

def relabelAll (f : Token → Token) : List Tree → List Tree
  | [] => []
  | t :: ts => t.relabel f :: relabelAll f ts

end

/-- Kinds, shape and texts of a tree, wherever its tokens stand. -/
def unplaced (t : Tree) : Tree := t.relabel Token.unplaced

theorem relabelAll_eq_map (f : Token → Token) (ts : List Tree) :
    relabelAll f ts = ts.map (relabel f) := by
  induction ts with
  | nil => rfl
  | cons t ts ih => rw [relabelAll, ih, List.map_cons]

end Tree

section

variable {f : Token → Token} (hf : ∀ x, (f x).kind = x.kind)
include hf

theorem nextIn_map (ks : List Terminal) (ts : List Token) :
    nextIn ks (ts.map f) = nextIn ks ts := by
  cases ts with
  | nil => rfl
  | cons t ts => simp [nextIn, hf]

theorem Rule.starts_map (r : Rule) (ts : List Token) : r.starts (ts.map f) = r.starts ts := by
  rw [starts, starts, nextIn_map hf, ← List.map_tail, nextIn_map hf]

theorem Pattern.starts_map (p : Pattern) (ts : List Token) : p.starts (ts.map f) = p.starts ts := by
  induction p with
  | empty => rfl
  | oneOf ks => exact nextIn_map hf ks ts
  | rule r => exact r.starts_map hf ts
  | seq p q ihp ihq => exact ihp
  | alt p q ihp ihq => rw [starts, starts, ihp, ihq]
  | opt p ih => exact ih
  | many p ih => exact ih

end

theorem Rule.wrap_map (f : Token → Token) (r : Rule) (cs : List Tree) :
    r.wrap (cs.map (Tree.relabel f)) = (r.wrap cs).relabel f := by
  match cs with
  | [] => simp [wrap, Tree.relabel, Tree.relabelAll]
  | [t] =>
    rw [wrap, List.map_singleton, wrap]
    split <;> simp [Tree.relabel, Tree.relabelAll]
  | x :: y :: zs => simp [wrap, Tree.relabel, Tree.relabelAll_eq_map]

namespace Pattern

/-- What is read of other tokens of the same kinds. -/
def relabelResult (f : Token → Token) :
    Except (List Token) (List Tree × List Token) → Except (List Token) (List Tree × List Token)
  | .error ts => .error (ts.map f)
  | .ok (xs, ts) => .ok (xs.map (Tree.relabel f), ts.map f)

theorem read_map {f : Token → Token} (hf : ∀ x, (f x).kind = x.kind) (n : Nat) (p : Pattern)
    (ts : List Token) : read n p (ts.map f) = relabelResult f (read n p ts) := by
  induction n generalizing p ts with
  | zero => rfl
  | succ n ih =>
    cases p with
    | empty => rfl
    | oneOf ks =>
      cases ts with
      | nil => rfl
      | cons t ts =>
        have hnext := nextIn_map hf ks [t]
        rw [List.map_singleton] at hnext
        rw [List.map_cons, read, read, hnext]
        split <;> rfl
    | rule r =>
      rw [read, read, ih]
      cases read n r.body ts with
      | error e => rfl
      | ok x => simp [relabelResult, r.wrap_map]
    | seq p q =>
      rw [read, read, ih]
      cases read n p ts with
      | error e => rfl
      | ok x =>
        simp only [relabelResult, ih]
        cases read n q x.2 <;> simp
    | alt p q => rw [read, read, p.starts_map hf, ih, ih, apply_ite (relabelResult f)]
    | opt p =>
      rw [read, read, p.starts_map hf, ih, apply_ite (relabelResult f)]
      rfl
    | many p =>
      rw [read, read, p.starts_map hf, ih]
      split
      · cases read n p ts with
        | error e => rfl
        | ok x =>
          simp only [relabelResult, ih]
          cases read n (many p) x.2 <;> simp
      · rfl

end Pattern

theorem parseTokens_map {f : Token → Token} (hf : ∀ x, (f x).kind = x.kind) (ts : List Token) :
    (parseTokens (ts.map f)).toOption = (parseTokens ts).toOption.map (Tree.relabel f) := by
  have hdepth : readingDepth (ts.map f) = readingDepth ts := by
    rw [readingDepth, List.length_map, readingDepth]
  unfold parseTokens Pattern.run
  rw [hdepth, Pattern.read_map hf]
  cases Rule.file.body.read (readingDepth ts) ts with
  | error e => rfl
  | ok x =>
    match x with
    | (cs, []) => simp [Pattern.relabelResult, Except.toOption, Rule.wrap_map]
    | (cs, t :: rest) => simp [Pattern.relabelResult, Except.toOption]

theorem toOption_parse (source : String) :
    (parse source).toOption =
      if (Lexer.scan source.toList).stop = none then
        (parseTokens (Lexer.scan source.toList).tokens).toOption
      else none := by
  ext t
  rw [toOption_eq_some_iff, parse_eq_ok_iff]
  split <;> simp_all [toOption_eq_some_iff]

/-- Texts with the same terminals have the same tree but for the places of its tokens. -/
theorem parse_unplaced {a b : String}
    (htokens : (Lexer.scan a.toList).tokens.map Token.unplaced =
      (Lexer.scan b.toList).tokens.map Token.unplaced)
    (hstop : (Lexer.scan a.toList).stop = none ↔ (Lexer.scan b.toList).stop = none) :
    (parse a).toOption.map Tree.unplaced = (parse b).toOption.map Tree.unplaced := by
  have hread (source : String) :
      (parse source).toOption.map Tree.unplaced =
        if (Lexer.scan source.toList).stop = none then
          (parseTokens ((Lexer.scan source.toList).tokens.map Token.unplaced)).toOption
        else none := by
    rw [toOption_parse, parseTokens_map Token.kind_unplaced, apply_ite (Option.map Tree.unplaced)]
    rfl
  rw [hread, hread, htokens]
  simp only [hstop]

/-- A token is its kind and its text, wherever it stands. -/
theorem Token.map_unplaced_of_eq {xs ys : List Token}
    (h : xs.map (fun x => (x.kind, x.text)) = ys.map (fun x => (x.kind, x.text))) :
    xs.map unplaced = ys.map unplaced := by
  have hplace := congrArg (List.map fun x => (⟨x.1, x.2, 0, 0⟩ : Token)) h
  rwa [List.map_map, List.map_map] at hplace

/-- The tokens of a parsed tree, written with a blank between them, are its tokens again. -/
theorem scan_spaced_of_parse {source : String} {t : Tree} (h : parse source = .ok t) :
    (Lexer.scan (Token.spaced t.tokens)).stop = none ∧
      (Lexer.scan (Token.spaced t.tokens)).tokens.map Token.unplaced =
        t.tokens.map Token.unplaced := by
  refine Token.scanAt_spaced ?_ .start
  intro x hx
  obtain ⟨first, pieces, -, htokens, -, hlaid⟩ := Lexer.exists_laid_of_parse h
  rw [← htokens] at hx
  obtain ⟨_, _, -, hsits⟩ := hlaid.exists_sits hx
  exact ⟨hsits.spelled, by simpa using hsits.text_ne⟩

/-- Layout is insignificant: the terminals of a tree, written with a blank between them, are read as
the same tree but for the places of its tokens, and so are any two texts with the same terminals. -/
theorem parse_layout :
    (∀ source t, parse source = .ok t →
      ∃ t', parse (" ".intercalate ((t.walk.filterMap Tree.token?).map (·.text))) = .ok t' ∧
        t'.unplaced = t.unplaced) ∧
    ∀ a b : String,
      (Lexer.scan a.toList).tokens.map (fun x => (x.kind, x.text)) =
          (Lexer.scan b.toList).tokens.map (fun x => (x.kind, x.text)) →
        ((Lexer.scan a.toList).stop = none ↔ (Lexer.scan b.toList).stop = none) →
        (parse a).toOption.map Tree.unplaced = (parse b).toOption.map Tree.unplaced := by
  refine ⟨?_, ?_⟩
  · intro source t h
    have hspaced := scan_spaced_of_parse h
    rw [← Token.toList_intercalate, (conforms_of_parse h).2.2] at hspaced
    rw [t.filterMap_walk, (conforms_of_parse h).2.2]
    have hsame := parse_unplaced hspaced.2 (iff_of_true hspaced.1 (parse_eq_ok_iff.1 h).1)
    rw [h] at hsame
    obtain ⟨t', ht', hplaces⟩ := Option.map_eq_some_iff.1 hsame
    exact ⟨t', toOption_eq_some_iff.1 ht', hplaces⟩
  · intro a b htokens hstop
    exact parse_unplaced (Token.map_unplaced_of_eq htokens) hstop

/-- A comment between tokens, a string that looks like one, and two texts that are refused. -/
theorem parse_layout_commented :
    (∃ t t', parse "fun f(a:Int)=a/a//b\nval/**/s=\"/* \\\"\"" = .ok t ∧
      parse "fun f ( a : Int ) = a / a val s = \"/* \\\"\"" = .ok t' ∧
      t'.unplaced = t.unplaced) ∧
    (parse "val/**/= 1").toOption.map Tree.unplaced =
      (parse "val =1").toOption.map Tree.unplaced := by
  constructor
  · obtain ⟨t, ht, htext⟩ : ∃ t, parse "fun f(a:Int)=a/a//b\nval/**/s=\"/* \\\"\"" = .ok t ∧
        " ".intercalate ((t.walk.filterMap Tree.token?).map (·.text)) =
          "fun f ( a : Int ) = a / a val s = \"/* \\\"\"" := ⟨_, rfl, by decide +kernel⟩
    obtain ⟨t', ht', hsame⟩ := parse_layout.1 _ t ht
    rw [htext] at ht'
    exact ⟨t, t', ht, ht', hsame⟩
  · exact parse_layout.2 _ _ (by decide +kernel) (by decide +kernel)

end Mykt
