import Mykt.Token.Basic

/-!
The grammar as data: each rule has a pattern over terminals and rules. `Rule.starts` looks at the
tokens ahead to tell whether a rule begins there; two tokens are needed only to tell an assignment
from an expression.
-/

namespace Mykt

inductive Pattern where
  | empty
  | oneOf (ts : List Terminal)
  | rule (r : Rule)
  | seq (p q : Pattern)
  | alt (p q : Pattern)
  | opt (p : Pattern)
  | many (p : Pattern)
  deriving DecidableEq, Repr

namespace Pattern

instance : Coe Rule Pattern := ⟨rule⟩

instance : Coe Terminal Pattern := ⟨fun t => oneOf [t]⟩

def sequence : List Pattern → Pattern
  | [] => empty
  | [p] => p
  | p :: ps => seq p (sequence ps)

def choice : List Pattern → Pattern
  | [] => empty
  | [p] => p
  | p :: ps => alt p (choice ps)

/-- One or more `p` with `separator` between them. -/
def separated (separator p : Pattern) : Pattern := seq p (many (seq separator p))

end Pattern

namespace Rule

open Terminal Pattern

def expression : Pattern := rule disjunction

/-- The pattern that the children of a rule's node follow. -/
def body : Rule → Pattern
  | file => sequence [preamble, many statement]
  | preamble => many importHeader
  | importHeader => sequence [importWord, identifier, opt semi]
  | identifier => separated dot simpleIdentifier
  | simpleIdentifier => name
  | statement =>
    seq (choice [functionDeclaration, variableDeclaration, assignment, returnStatement,
      ifStatement, whileStatement, expression]) (opt semi)
  | functionDeclaration =>
    sequence [funWord, simpleIdentifier, functionValueParameters,
      opt (seq colon typeReference), functionBody]
  | functionValueParameters =>
    sequence [lpar, opt (separated comma functionValueParameter), rpar]
  | functionValueParameter => sequence [simpleIdentifier, colon, typeReference]
  | functionBody => alt block (seq equal expression)
  | variableDeclaration =>
    sequence [oneOf [valWord, varWord], simpleIdentifier, opt (seq colon typeReference),
      opt (seq equal expression)]
  | typeReference => name
  | assignment => sequence [simpleIdentifier, equal, expression]
  | returnStatement => seq returnWord (opt expression)
  | ifStatement =>
    sequence [ifWord, lpar, expression, rpar, block, opt (seq elseWord (alt block ifStatement))]
  | whileStatement => sequence [whileWord, lpar, expression, rpar, block]
  | block => sequence [lbrace, many statement, rbrace]
  | disjunction => separated orOr conjunction
  | conjunction => separated andAnd equality
  | equality => separated (oneOf [eqEq, notEq]) comparison
  | comparison => separated (oneOf [lt, gt, le, ge]) additive
  | additive => separated (oneOf [plus, minus]) multiplicative
  | multiplicative => separated (oneOf [star, slash, percent]) prefixExpression
  | prefixExpression => alt unaryExpression postfixExpression
  | unaryExpression => seq (oneOf [minus, bang]) prefixExpression
  | postfixExpression => seq primary (many callSuffix)
  | callSuffix => sequence [lpar, opt (separated comma expression), rpar]
  | primary => choice [simpleIdentifier, literal, parenthesizedExpression]
  | parenthesizedExpression => sequence [lpar, expression, rpar]
  | literal => oneOf [int, string, trueWord, falseWord]

/-- Rules whose node is left out when it would have a single child. -/
def inlines : Rule → Bool
  | disjunction | conjunction | equality | comparison | additive | multiplicative
  | prefixExpression | postfixExpression | primary => true
  | _ => false

def primaryStarts : List Terminal := [name, int, string, trueWord, falseWord, lpar]

def expressionStarts : List Terminal := minus :: bang :: primaryStarts

def statementStarts : List Terminal :=
  funWord :: valWord :: varWord :: returnWord :: ifWord :: whileWord :: expressionStarts

/-- The terminals that a rule can begin with. -/
def first : Rule → List Terminal
  | file => importWord :: statementStarts
  | preamble | importHeader => [importWord]
  | identifier | simpleIdentifier | functionValueParameter | typeReference | assignment => [name]
  | statement => statementStarts
  | functionDeclaration => [funWord]
  | functionValueParameters | callSuffix | parenthesizedExpression => [lpar]
  | functionBody => [lbrace, equal]
  | variableDeclaration => [valWord, varWord]
  | returnStatement => [returnWord]
  | ifStatement => [ifWord]
  | whileStatement => [whileWord]
  | block => [lbrace]
  | disjunction | conjunction | equality | comparison | additive | multiplicative
  | prefixExpression => expressionStarts
  | unaryExpression => [minus, bang]
  | postfixExpression | primary => primaryStarts
  | literal => [int, string, trueWord, falseWord]

end Rule

/-- Whether the next token is one of the given terminals. -/
def nextIn (ks : List Terminal) : List Token → Bool
  | [] => false
  | t :: _ => ks.any fun k => t.kind = .terminal k

/-- Whether a rule begins with the tokens ahead. -/
def Rule.starts (r : Rule) (ts : List Token) : Bool :=
  nextIn r.first ts && (r ≠ .assignment || nextIn [.equal] ts.tail)

/-- Whether a pattern other than the empty reading begins with the tokens ahead. -/
def Pattern.starts : Pattern → List Token → Bool
  | .empty, _ => false
  | .oneOf ks, ts => nextIn ks ts
  | .rule r, ts => r.starts ts
  | .seq p _, ts => p.starts ts
  | .alt p q, ts => p.starts ts || q.starts ts
  | .opt p, ts => p.starts ts
  | .many p, ts => p.starts ts

end Mykt
