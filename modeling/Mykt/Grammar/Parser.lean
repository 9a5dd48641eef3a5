import Mykt.Grammar.Basic
import Mykt.Grammar.Error
import Mykt.Tree.Basic

/-!
Reading tokens by the grammar. An optional or repeated part is read whenever the next token begins
it, so a text has at most one tree; a reading that fails stops at the first token that cannot go on.
-/

namespace Mykt

/-- The node of a rule, or its only child where the rule leaves such nodes out. -/
def Rule.wrap (r : Rule) (cs : List Tree) : Tree :=
  match cs with
  | [t] => if r.inlines then t else .node (.rule r) [t]
  | _ => .node (.rule r) cs

/-- The trees read and the tokens left, or the tokens left where reading stopped. The number bounds
how deep readings nest. -/
@[grind =]
def Pattern.read : Nat → Pattern → List Token → Except (List Token) (List Tree × List Token)
  | 0, _, ts => .error ts
  | _ + 1, .empty, ts => .ok ([], ts)
  | _ + 1, .oneOf _, [] => .error []
  | _ + 1, .oneOf ks, t :: ts => if nextIn ks [t] then .ok ([.leaf t], ts) else .error (t :: ts)
  | n + 1, .rule r, ts =>
    match read n r.body ts with
    | .error e => .error e
    | .ok (cs, rest) => .ok ([r.wrap cs], rest)
  | n + 1, .seq p q, ts =>
    match read n p ts with
    | .error e => .error e
    | .ok (xs, mid) =>
      match read n q mid with
      | .error e => .error e
      | .ok (ys, rest) => .ok (xs ++ ys, rest)
  | n + 1, .alt p q, ts => if p.starts ts then read n p ts else read n q ts
  | n + 1, .opt p, ts => if p.starts ts then read n p ts else .ok ([], ts)
  | n + 1, .many p, ts =>
    if p.starts ts then
      match read n p ts with
      | .error e => .error e
      | .ok (xs, mid) =>
        match read n (.many p) mid with
        | .error e => .error e
        | .ok (ys, rest) => .ok (xs ++ ys, rest)
    else .ok ([], ts)

/-- Fewer than 64 readings nest between two tokens. -/
def readingDepth (ts : List Token) : Nat := 64 * (ts.length + 1)

/-- Reads tokens by a pattern. -/
def Pattern.run (p : Pattern) (ts : List Token) : Except (List Token) (List Tree × List Token) :=
  p.read (readingDepth ts) ts

/-- The tree of all the tokens, or the tokens left where reading stopped. -/
def parseTokens (ts : List Token) : Except (List Token) Tree :=
  match Rule.file.body.run ts with
  | .error rest => .error rest
  | .ok (cs, []) => .ok (Rule.file.wrap cs)
  | .ok (_, t :: rest) => .error (t :: rest)

def parseChars (cs : List Char) : Except ParseError Tree :=
  let s := Lexer.scan cs
  let unreadable (p : Place) : ParseError :=
    .character (cs.getD p.offset ' ') p (.ofOffset cs p.offset) s.tokens.getLast?
  match parseTokens s.tokens, s.stop with
  | .error (t :: _), _ => .error (.token t)
  | .error [], none => .error (.ending s.tokens.getLast?)
  | .error [], some p => .error (unreadable p)
  | .ok _, some p => .error (unreadable p)
  | .ok t, none => .ok t

def parse (source : String) : Except ParseError Tree := parseChars source.toList

end Mykt
