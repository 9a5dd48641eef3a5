/-!
Terminals, rules and tokens of the mykt language. A kind is the label of a tree node: that of a
terminal, that of a grammar rule, or one that the grammar does not know.
-/

namespace Mykt

inductive Terminal where
  | importWord | funWord | valWord | varWord | returnWord | ifWord | elseWord | whileWord
  | trueWord | falseWord
  | name | int | string
  | eqEq | notEq | le | ge | andAnd | orOr
  | lt | gt | equal | bang | plus | minus | star | slash | percent
  | lpar | rpar | lbrace | rbrace | colon | comma | dot | semi
  deriving DecidableEq, Repr, Inhabited

namespace Terminal

def label : Terminal → String
  | importWord => "IMPORT" | funWord => "FUN" | valWord => "VAL" | varWord => "VAR"
  | returnWord => "RETURN" | ifWord => "IF" | elseWord => "ELSE" | whileWord => "WHILE"
  | trueWord => "TRUE" | falseWord => "FALSE"
  | name => "NAME" | int => "INT" | string => "STRING"
  | eqEq => "EQEQ" | notEq => "NOTEQ" | le => "LE" | ge => "GE"
  | andAnd => "ANDAND" | orOr => "OROR"
  | lt => "LT" | gt => "GT" | equal => "EQUAL" | bang => "BANG" | plus => "PLUS"
  | minus => "MINUS" | star => "STAR" | slash => "SLASH" | percent => "PERCENT"
  | lpar => "LPAR" | rpar => "RPAR" | lbrace => "LBRACE" | rbrace => "RBRACE"
  | colon => "COLON" | comma => "COMMA" | dot => "DOT" | semi => "SEMI"

def all : List Terminal :=
  [importWord, funWord, valWord, varWord, returnWord, ifWord, elseWord, whileWord, trueWord,
    falseWord, name, int, string, eqEq, notEq, le, ge, andAnd, orOr, lt, gt, equal, bang, plus,
    minus, star, slash, percent, lpar, rpar, lbrace, rbrace, colon, comma, dot, semi]

theorem mem_all (t : Terminal) : t ∈ all := by
  cases t <;> decide

/-- Words that are not names. -/
def keywords : List (List Char × Terminal) :=
  [(['i', 'm', 'p', 'o', 'r', 't'], importWord), (['f', 'u', 'n'], funWord),
    (['v', 'a', 'l'], valWord), (['v', 'a', 'r'], varWord),
    (['r', 'e', 't', 'u', 'r', 'n'], returnWord), (['i', 'f'], ifWord),
    (['e', 'l', 's', 'e'], elseWord), (['w', 'h', 'i', 'l', 'e'], whileWord),
    (['t', 'r', 'u', 'e'], trueWord), (['f', 'a', 'l', 's', 'e'], falseWord)]

/-- Operators and punctuation, the longer spellings first. -/
def operators : List (List Char × Terminal) :=
  [(['=', '='], eqEq), (['!', '='], notEq), (['<', '='], le), (['>', '='], ge),
    (['&', '&'], andAnd), (['|', '|'], orOr),
    (['<'], lt), (['>'], gt), (['='], equal), (['!'], bang), (['+'], plus), (['-'], minus),
    (['*'], star), (['/'], slash), (['%'], percent), (['('], lpar), ([')'], rpar),
    (['\x7b'], lbrace), (['\x7d'], rbrace), ([':'], colon), ([','], comma), (['.'], dot),
    ([';'], semi)]

end Terminal

inductive Rule where
  | file | preamble | importHeader | identifier | simpleIdentifier | statement
  | functionDeclaration | functionValueParameters | functionValueParameter | functionBody
  | variableDeclaration | typeReference | assignment | returnStatement | ifStatement
  | whileStatement | block
  | disjunction | conjunction | equality | comparison | additive | multiplicative
  | prefixExpression | unaryExpression | postfixExpression | callSuffix
  | primary | parenthesizedExpression | literal
  deriving DecidableEq, Repr, Inhabited

namespace Rule

def label : Rule → String
  | file => "kotlin_file" | preamble => "preamble" | importHeader => "import_header"
  | identifier => "identifier" | simpleIdentifier => "simple_identifier"
  | statement => "statement" | functionDeclaration => "function_declaration"
  | functionValueParameters => "function_value_parameters"
  | functionValueParameter => "function_value_parameter" | functionBody => "function_body"
  | variableDeclaration => "variable_declaration" | typeReference => "type_reference"
  | assignment => "assignment" | returnStatement => "return_statement"
  | ifStatement => "if_statement" | whileStatement => "while_statement" | block => "block"
  | disjunction => "disjunction" | conjunction => "conjunction" | equality => "equality"
  | comparison => "comparison" | additive => "additive" | multiplicative => "multiplicative"
  | prefixExpression => "prefix_expression" | unaryExpression => "unary_expression"
  | postfixExpression => "postfix_expression" | callSuffix => "call_suffix"
  | primary => "primary" | parenthesizedExpression => "parenthesized_expression"
  | literal => "literal"

def all : List Rule :=
  [file, preamble, importHeader, identifier, simpleIdentifier, statement, functionDeclaration,
    functionValueParameters, functionValueParameter, functionBody, variableDeclaration,
    typeReference, assignment, returnStatement, ifStatement, whileStatement, block, disjunction,
    conjunction, equality, comparison, additive, multiplicative, prefixExpression,
    unaryExpression, postfixExpression, callSuffix, primary, parenthesizedExpression, literal]

theorem mem_all (r : Rule) : r ∈ all := by
  cases r <;> decide

end Rule

inductive Kind where
  | terminal (t : Terminal)
  | rule (r : Rule)
  | other (label : String)
  deriving DecidableEq, Repr, Inhabited

namespace Kind

def label : Kind → String
  | terminal t => t.label
  | rule r => r.label
  | other s => s

def ofLabel (s : String) : Kind :=
  match Terminal.all.find? (·.label = s) with
  | some t => terminal t
  | none =>
    match Rule.all.find? (·.label = s) with
    | some r => rule r
    | none => other s

theorem label_ofLabel (s : String) : (ofLabel s).label = s := by
  unfold ofLabel
  split
  · next t h => simpa [label] using List.find?_some h
  · split
    · next r h => simpa [label] using List.find?_some h
    · rfl

end Kind

/-- A terminal of a text, or one made by hand. Lines count from one and columns from zero. -/
structure Token where
  kind : Kind
  text : String
  line : Int
  column : Int
  deriving DecidableEq, Repr, Inhabited

end Mykt
