import Mykt.Declaration
import Mykt.Import.Header
import Mykt.Proofs.Grammar.Derivation

/-!
The shape of the nodes that hold names. Main statements: a declaration holds its name in its first
simple identifier, a parameter holds no further declarations, and an import header holds simple
names with dots between them.
-/

namespace Mykt

namespace Token

theorem isName_iff {t : Token} : t.isName = true ↔ t.kind = .terminal .name := by
  simp [isName]

end Token

namespace Tree

/-- The node of a simple name. -/
def ofName (n : Token) : Tree := .node (.rule .simpleIdentifier) [.leaf n]

@[simp] theorem kind_ofName (n : Token) : (ofName n).kind = .rule .simpleIdentifier := rfl

@[simp] theorem tokens_ofName (n : Token) : (ofName n).tokens = [n] := rfl

@[simp] theorem text_ofName (n : Token) : (ofName n).text = n.text := by
  simp [text]

@[simp] theorem text_leaf (n : Token) : (leaf n).text = n.text := by
  simp [text, tokens]

theorem child?_cons_of_eq {k l : Kind} {t : Tree} {ts : List Tree} (h : t.kind = l) :
    (node k (t :: ts)).child? l = some t := by
  simp [child?, children, h]

theorem child?_cons_of_ne {k l : Kind} {t : Tree} {ts : List Tree} (h : t.kind ≠ l) :
    (node k (t :: ts)).child? l = (node k ts).child? l := by
  simp [child?, children, h]

end Tree

namespace Pattern

theorem derives_simpleIdentifier_iff {xs : List Tree} :
    Derives (rule .simpleIdentifier) xs ↔ ∃ n : Token, n.isName = true ∧ xs = [.ofName n] := by
  rw [derives_rule_iff]
  constructor
  · intro hx
    obtain ⟨cs, h, rfl⟩ := hx
    obtain ⟨n, ⟨k, hk, hn⟩, rfl⟩ := derives_oneOf_iff.1 h
    obtain rfl : k = .name := by simpa using hk
    exact ⟨n, Token.isName_iff.2 hn, rfl⟩
  · intro hx
    obtain ⟨n, hn, rfl⟩ := hx
    exact ⟨[.leaf n], .oneOf (List.mem_singleton.2 rfl) (Token.isName_iff.1 hn), rfl⟩

/-- A reading that starts with a simple name. -/
theorem name_cons_of_derives {q : Pattern} {xs : List Tree}
    (h : Derives (seq (rule .simpleIdentifier) q) xs) :
    ∃ n rest, n.isName = true ∧ Derives q rest ∧ xs = Tree.ofName n :: rest := by
  obtain ⟨ys, zs, hp, hq, rfl⟩ := derives_seq_iff.1 h
  obtain ⟨n, hn, rfl⟩ := derives_simpleIdentifier_iff.1 hp
  exact ⟨n, zs, hn, hq, rfl⟩

/-- A reading that starts with a terminal. -/
theorem leaf_cons_of_derives {ks : List Terminal} {q : Pattern} {xs : List Tree}
    (h : Derives (seq (oneOf ks) q) xs) :
    ∃ t k rest, t.kind = .terminal k ∧ Derives q rest ∧ xs = Tree.leaf t :: rest := by
  obtain ⟨ys, zs, hp, hq, rfl⟩ := derives_seq_iff.1 h
  obtain ⟨t, ⟨k, -, ht⟩, rfl⟩ := derives_oneOf_iff.1 hp
  exact ⟨t, k, zs, ht, hq, rfl⟩

end Pattern

/-- A node that declares has a name. -/
theorem exists_name_of_declares {r : Rule} {kind : SymbolKind} {cs : List Tree}
    (hr : Fold.declares (.rule r) = some kind) (h : r.body.Derives cs) :
    ∃ n, n.isName = true ∧
      (Tree.node (.rule r) cs).child? (.rule .simpleIdentifier) = some (.ofName n) := by
  have afterLeaf {q : Pattern} {ks : List Terminal} {cs : List Tree}
      (h : Pattern.Derives (.seq (.oneOf ks) (.seq (.rule .simpleIdentifier) q)) cs) :
      ∃ n, n.isName = true ∧
        (Tree.node (.rule r) cs).child? (.rule .simpleIdentifier) = some (.ofName n) := by
    obtain ⟨t, k, rest, ht, hq, rfl⟩ := Pattern.leaf_cons_of_derives h
    obtain ⟨n, rest, hn, -, rfl⟩ := Pattern.name_cons_of_derives hq
    refine ⟨n, hn, ?_⟩
    rw [Tree.child?_cons_of_ne (by simp [Tree.kind, ht]), Tree.child?_cons_of_eq (Tree.kind_ofName n)]
  cases r <;> simp only [Fold.declares, reduceCtorEq] at hr
  case functionDeclaration => exact afterLeaf h
  case functionValueParameter =>
    obtain ⟨n, rest, hn, -, rfl⟩ := Pattern.name_cons_of_derives h
    exact ⟨n, hn, Tree.child?_cons_of_eq rfl⟩
  case variableDeclaration => exact afterLeaf h

/-- Below a parameter stand its name, a colon, and its type. -/
theorem eq_of_derives_parameter {cs : List Tree}
    (h : Rule.functionValueParameter.body.Derives cs) :
    ∃ n colon type : Token, n.isName = true ∧
      cs = [.ofName n, .leaf colon, .node (.rule .typeReference) [.leaf type]] := by
  obtain ⟨n, rest, hn, hcolon, rfl⟩ := Pattern.name_cons_of_derives h
  obtain ⟨colon, -, rest, -, hrule, rfl⟩ := Pattern.leaf_cons_of_derives hcolon
  obtain ⟨ys, htype, rfl⟩ := Pattern.derives_rule_iff.1 hrule
  obtain ⟨type, -, rfl⟩ := Pattern.derives_oneOf_iff.1 htype
  exact ⟨n, colon, type, hn, rfl⟩

namespace Tree

/-- The simple names of an import header. -/
def importParts (header : Tree) : List String :=
  match header.child? (.rule .identifier) with
  | some i => (i.childrenOfKind (.rule .simpleIdentifier)).map text
  | none => []

end Tree

/-- The children of an identifier: a name, and names that each follow a dot. -/
def dotted (n : Token) (ms : List (Token × Token)) : List Tree :=
  .ofName n :: ms.flatMap fun (dot, m) => [.leaf dot, .ofName m]

theorem eq_dotted_of_derives {cs : List Tree} (h : Rule.identifier.body.Derives cs) :
    ∃ n ms, n.isName = true ∧ (∀ x ∈ ms, x.1.kind = .terminal .dot ∧ x.2.isName = true) ∧
      cs = dotted n ms := by
  obtain ⟨n, rest, hn, hrest, rfl⟩ := Pattern.name_cons_of_derives h
  obtain ⟨yss, hy, rfl⟩ := Pattern.derives_many_iff.1 hrest
  refine ⟨n, ?_⟩
  suffices ∃ ms : List (Token × Token),
      (∀ x ∈ ms, x.1.kind = .terminal .dot ∧ x.2.isName = true) ∧
        yss.flatten = ms.flatMap fun (dot, m) => [.leaf dot, .ofName m] by
    obtain ⟨ms, hm, he⟩ := this
    exact ⟨ms, hn, hm, by rw [dotted, he]⟩
  clear h hrest
  induction yss with
  | nil => exact ⟨[], by simp⟩
  | cons ys yss ih =>
    simp only [List.mem_cons, forall_eq_or_imp] at hy
    obtain ⟨ms, hm, he⟩ := ih hy.2
    obtain ⟨as, bs, ha, hb, rfl⟩ := Pattern.derives_seq_iff.1 hy.1
    obtain ⟨dot, ⟨k, hk, hd⟩, rfl⟩ := Pattern.derives_oneOf_iff.1 ha
    obtain ⟨m, hmn, rfl⟩ := Pattern.derives_simpleIdentifier_iff.1 hb
    obtain rfl : k = .dot := by simpa using hk
    refine ⟨(dot, m) :: ms, ?_, by simp [he]⟩
    simp only [List.mem_cons, forall_eq_or_imp]
    exact ⟨⟨hd, hmn⟩, hm⟩

theorem filter_dotted (n : Token) (ms : List (Token × Token))
    (hm : ∀ x ∈ ms, x.1.kind = .terminal .dot) :
    (dotted n ms).filter (·.kind = .rule .simpleIdentifier) =
      .ofName n :: ms.map fun x => .ofName x.2 := by
  have hrest : (ms.flatMap fun x => [Tree.leaf x.1, .ofName x.2]).filter
      (·.kind = .rule .simpleIdentifier) = ms.map fun x => .ofName x.2 := by
    induction ms with
    | nil => rfl
    | cons x ms ih =>
      simp only [List.mem_cons, forall_eq_or_imp] at hm
      have hleaf : (Tree.leaf x.1).kind = .terminal .dot := hm.1
      simpa [List.filter_cons, hleaf] using ih hm.2
  simpa [dotted] using hrest

theorem tokensOf_dotted (n : Token) (ms : List (Token × Token)) :
    Tree.tokensOf (dotted n ms) = n :: ms.flatMap fun x => [x.1, x.2] := by
  have hrest : Tree.tokensOf (ms.flatMap fun x => [Tree.leaf x.1, .ofName x.2]) =
      ms.flatMap fun x => [x.1, x.2] := by
    induction ms with
    | nil => rfl
    | cons x ms ih => simp [Tree.tokensOf, Tree.tokens, ih]
  simp [dotted, Tree.tokensOf, hrest]

theorem join_dotted (n : Token) (ms : List (Token × Token)) (hm : ∀ x ∈ ms, x.1.text = ".") :
    String.join ((Tree.tokensOf (dotted n ms)).map (·.text)) =
      ".".intercalate (n.text :: ms.map (·.2.text)) := by
  rw [tokensOf_dotted]
  induction ms generalizing n with
  | nil => simp
  | cons x ms ih =>
    simp only [List.mem_cons, forall_eq_or_imp] at hm
    have h := ih x.2 hm.2
    simp only [List.map_cons, String.join_cons] at h
    simp [hm.1, ← h, String.append_assoc]

theorem child?_identifier {k : Terminal} {word : Token} {cs rest : List Tree}
    (hw : word.kind = .terminal k) :
    (Tree.node (.rule .importHeader)
      (.leaf word :: .node (.rule .identifier) cs :: rest)).child? (.rule .identifier) =
        some (.node (.rule .identifier) cs) := by
  rw [Tree.child?_cons_of_ne (by simp [Tree.kind, hw])]
  exact Tree.child?_cons_of_eq rfl

/-- An import header names simple names with dots between them. -/
theorem importName_of_derives {cs : List Tree} (h : Rule.importHeader.body.Derives cs)
    (hs : ∀ x ∈ Tree.tokensOf cs, x.IsSpelled) :
    (Tree.node (.rule .importHeader) cs).importParts ≠ [] ∧
      (∀ s ∈ (Tree.node (.rule .importHeader) cs).importParts, Lexer.IsIdentifier s.toList) ∧
      (Tree.node (.rule .importHeader) cs).importName =
        .ok (".".intercalate (Tree.node (.rule .importHeader) cs).importParts) := by
  obtain ⟨word, k, rest, hw, hrest, rfl⟩ := Pattern.leaf_cons_of_derives h
  obtain ⟨ys, zs, hid, -, rfl⟩ := Pattern.derives_seq_iff.1 hrest
  obtain ⟨cs, hcs, rfl⟩ := Pattern.derives_rule_iff.1 hid
  obtain ⟨n, ms, hn, hm, rfl⟩ := eq_dotted_of_derives hcs
  rw [Rule.wrap_of_not_inlines rfl, List.singleton_append] at hs ⊢
  have hspelled : ∀ x ∈ n :: ms.flatMap fun x => [x.1, x.2], x.IsSpelled := by
    intro x hx
    rw [← tokensOf_dotted] at hx
    exact hs x (by simp [Tree.tokensOf, Tree.tokens, hx])
  have hparts : Tree.importParts (.node (.rule .importHeader)
      (.leaf word :: .node (.rule .identifier) (dotted n ms) :: zs)) =
        n.text :: ms.map (·.2.text) := by
    simp only [Tree.importParts, child?_identifier hw, Tree.childrenOfKind, Tree.children,
      filter_dotted n ms fun x hx => (hm x hx).1]
    simp
  rw [hparts]
  refine ⟨by simp, ?_, ?_⟩
  · intro s hsm
    rcases List.mem_cons.1 hsm with rfl | hsm
    · exact (hspelled n (by simp)).isIdentifier hn
    · obtain ⟨x, hx, rfl⟩ := List.mem_map.1 hsm
      have hmem : x.2 ∈ n :: ms.flatMap fun x => [x.1, x.2] :=
        List.mem_cons_of_mem _ (List.mem_flatMap.2 ⟨x, hx, by simp⟩)
      exact (hspelled x.2 hmem).isIdentifier (hm x hx).2
  · have hdots : ∀ x ∈ ms, x.1.text = "." := by
      intro x hx
      have hmem : x.1 ∈ n :: ms.flatMap fun x => [x.1, x.2] :=
        List.mem_cons_of_mem _ (List.mem_flatMap.2 ⟨x, hx, by simp⟩)
      exact (hspelled x.1 hmem).eq_dot (hm x hx).1
    simp only [Tree.importName, child?_identifier hw, Tree.text, Tree.tokens,
      join_dotted n ms hdots]

/-- The headers of a file are those of its preamble, and each follows its rule. -/
theorem derives_of_mem_importHeaders {t header : Tree} (ht : t.Conforms)
    (hk : t.kind = .rule .file) (hh : header ∈ t.importHeaders) :
    ∃ cs, header = .node (.rule .importHeader) cs ∧ Rule.importHeader.body.Derives cs ∧
      Tree.tokensOf cs ⊆ t.tokens := by
  cases ht with
  | leaf h => simp [Tree.kind, h] at hk
  | @node r cs h hc =>
    obtain rfl : r = .file := by simpa [Tree.kind] using hk
    obtain ⟨ys, zs, hpre, -, rfl⟩ := Pattern.derives_seq_iff.1 h
    obtain ⟨hs, hhs, rfl⟩ := Pattern.derives_rule_iff.1 hpre
    rw [Rule.wrap_of_not_inlines rfl, List.singleton_append] at hh ⊢
    simp only [Tree.importHeaders, Tree.child?_cons_of_eq (t := Tree.node (.rule .preamble) hs)
      (l := .rule .preamble) rfl, Tree.childrenOfKind, Tree.children, List.mem_filter] at hh
    obtain ⟨yss, hy, rfl⟩ := Pattern.derives_many_iff.1 hhs
    obtain ⟨ys, hys, hmem⟩ := List.mem_flatten.1 hh.1
    obtain ⟨cs, hcs, rfl⟩ := Pattern.derives_rule_iff.1 (hy ys hys)
    rw [Rule.wrap_of_not_inlines rfl, List.mem_singleton] at hmem
    refine ⟨cs, hmem, hcs, ?_⟩
    calc
      Tree.tokensOf cs = header.tokens := by rw [hmem]; rfl
      _ ⊆ Tree.tokensOf yss.flatten := Tree.tokens_subset_of_mem hh.1
      _ ⊆ _ := fun x hx => by simp [Tree.tokens, Tree.tokensOf, hx]

end Mykt
