import Mykt.Proofs.Definition.Extension
import Mykt.Proofs.Import.Order
import Mykt.Proofs.Import.Sites

/-!
The order of the headers of a document. Main statements: the trees that are visited for headers are
those of the files that the headers lead to, in any order of the headers; if no name is global in
two of these files, the order decides neither what is reached, nor what a global name stands for,
nor what is warned of as missing.
-/

namespace Mykt

/-- The names that are declared outside of routines. -/
def Tree.globals (t : Tree) : List String := (t.owned none).filterMap fun d => d.2.declaredName

theorem Tree.mem_globals_of_lastOwned {t : Tree} {name : String} {d : Trail × Tree}
    (h : t.lastOwned name none = some d) : name ∈ t.globals := by
  have hmem : d ∈ t.owned none := List.mem_of_mem_filter (List.mem_of_getLast? h)
  exact List.mem_filterMap.2 ⟨d, hmem, declaredName_of_lastOwned h⟩

/-- Symbols that stand for one declaration, if for any, are of one kind and in one place. -/
theorem Symbol.map_eq_of_rel {x y : Option Symbol} {d : Option (String × Tree)}
    (hx : Option.Rel (fun z d => z.StandsFor d.1 d.2) x d)
    (hy : Option.Rel (fun z d => z.StandsFor d.1 d.2) y d) :
    x.map (fun z => (z.kind, z.location)) = y.map (fun z => (z.kind, z.location)) := by
  cases hx with
  | none =>
    cases hy
    rfl
  | some hz =>
    cases hy with
    | some hz' =>
      obtain ⟨-, hkind, hlocation⟩ := hz.eq hz'
      simp [hkind, hlocation]

namespace Import

open Mykt.Graph

/-- The files that headers of a document name. -/
def named (o : Options) (p : Path) (hs : List Tree) : List Path :=
  hs.map fun h => p.parent.below (withExtension h.importParts o.extension)

/-- A file that can be loaded and that headers of a document lead to, through such files if their
headers are followed. -/
def IsReached (o : Options) (p : Path) (hs : List Tree) (f : Path) : Prop :=
  Good o p f ∧ ∃ g ∈ named o p hs, Relation.ReflTransGen (Leads (Good o p) (dependencies o)) g f

/-- No name is global in two of the files that headers of a document lead to. -/
def HasDistinctGlobals (o : Options) (p : Path) (hs : List Tree) : Prop :=
  ∀ f g t u name, IsReached o p hs f → IsReached o p hs g → load o.disk f = .ok t →
    load o.disk g = .ok u → name ∈ t.globals → name ∈ u.globals → f = g

/-- A header that was read from a short text. -/
def IsParsed (h : Tree) : Prop :=
  ∃ source t, parse source = .ok t ∧ source.length ≤ Position.limit ∧ h ∈ t.importHeaders

/-- The declaration of a name that was visited last of those outside of routines, with the address
of its document. -/
def lastGlobal (name : String) (xs : List (Path × String × Tree)) : Option (String × Tree) :=
  xs.reverse.findSome? fun x => (x.2.2.lastOwned name none).map fun d => (x.2.1, d.2)

section

variable {o : Options} {name : String} {xs ys : List (Path × String × Tree)}

/-- If at most one element gives a result, the order of the elements does not matter. -/
theorem findSome?_eq_of_perm {α β : Type} {f : α → Option β} {as bs : List α} (h : as.Perm bs)
    (hone : ∀ x ∈ as, ∀ y ∈ as, (f x).isSome = true → (f y).isSome = true → x = y) :
    as.findSome? f = bs.findSome? f := by
  induction h with
  | nil => rfl
  | cons x _ ih =>
    have htail := ih fun y hy z hz => hone y (by simp [hy]) z (by simp [hz])
    rw [List.findSome?_cons, List.findSome?_cons, htail]
  | swap x y as =>
    cases hx : f x with
    | none => simp [List.findSome?_cons, hx]
    | some b =>
      cases hy : f y with
      | none => simp [hx, hy]
      | some c =>
        have hsame : x = y := hone x (by simp) y (by simp) (by simp [hx]) (by simp [hy])
        rw [hsame]
  | trans h _ ih ih' =>
    rw [ih hone]
    refine ih' fun x hx y hy => ?_
    exact hone x (h.mem_iff.2 hx) y (h.mem_iff.2 hy)

theorem lastGlobal_eq_of_perm (h : xs.Perm ys)
    (hone : ∀ x ∈ xs, ∀ y ∈ xs, name ∈ x.2.2.globals → name ∈ y.2.2.globals → x = y) :
    lastGlobal name xs = lastGlobal name ys := by
  have global {x : Path × String × Tree}
      (hx : ((x.2.2.lastOwned name none).map fun d => (x.2.1, d.2)).isSome = true) :
      name ∈ x.2.2.globals := by
    rw [Option.isSome_map] at hx
    obtain ⟨d, hd⟩ := Option.isSome_iff_exists.1 hx
    exact Tree.mem_globals_of_lastOwned hd
  have hreversed : xs.reverse.Perm ys.reverse :=
    (List.reverse_perm xs).trans (h.trans (List.reverse_perm ys).symm)
  apply findSome?_eq_of_perm hreversed
  intro x hx y hy hsx hsy
  rw [List.mem_reverse] at hx hy
  exact hone x hx y hy (global hsx) (global hsy)

theorem lastGlobal_concat (name : String) (xs : List (Path × String × Tree))
    (y : Path × String × Tree) :
    lastGlobal name (xs ++ [y]) =
      ((y.2.2.lastOwned name none).map fun d => (y.2.1, d.2)).or (lastGlobal name xs) := by
  simp only [lastGlobal, List.reverse_append, List.reverse_singleton, List.singleton_append,
    List.findSome?_cons]
  cases y.2.2.lastOwned name none <;> rfl

/-- A global symbol stands for the declaration that was visited last. -/
theorem rel_lookup?_foldVisits (hx : ∀ y ∈ xs, Loaded o y) (name : String) :
    Option.Rel (fun z d => z.StandsFor d.1 d.2) ((foldVisits .empty xs).root.lookup? name)
      (lastGlobal name xs) := by
  induction xs using List.reverseRecOn with
  | nil => exact .none
  | append_singleton xs y ih =>
    have hxs : ∀ y ∈ xs, Loaded o y := by
      intro z hz
      exact hx z (by simp [hz])
    have hy : Loaded o y := hx y (by simp)
    obtain ⟨found, hf, hrel⟩ := hy.lookup?_visited (foldVisits .empty xs) name
    rw [foldVisits_append, lastGlobal_concat]
    show Option.Rel _ (((foldVisits .empty xs).visited y.2.1 y.2.2).root.lookup? name) _
    rw [hf]
    generalize y.2.2.lastOwned name none = d at hrel
    cases hrel with
    | none => exact ih hxs
    | some hz => exact .some hz

/-- Located trees of one path are the same, with the same address. -/
theorem Located.eq_of_path_eq {home : Path} {x y : Path × String × Tree} (hx : Located o home x)
    (hy : Located o home y) (h : x.1 = y.1) : x = y := by
  obtain ⟨names, n, hlies⟩ := hx.lies
  obtain ⟨names', n', hlies'⟩ := hy.lies
  have hnames : names ++ [n] = names' ++ [n'] := by
    have hpaths := hlies.path.symm.trans (h.trans hlies'.path)
    exact List.append_cancel_left (congrArg Path.names hpaths)
  have huri : x.2.1 = y.2.1 := by
    rw [hlies.uri, hlies'.uri, hnames]
  have htree : x.2.2 = y.2.2 := by
    have hload := hx.load_eq
    rw [h, hy.load_eq] at hload
    exact (Except.ok.inj hload).symm
  exact Prod.ext h (Prod.ext huri htree)

end

/-- What is known of a session that has resolved headers of a document, and of the trees that it has
visited for them. -/
structure Resolves (o : Options) (p : Path) (hs : List Tree) (xs : List (Path × String × Tree))
    (s : Session) : Prop where
  nodup : (xs.map (·.1)).Nodup
  reached : ∀ f, f ∈ xs.map (·.1) ↔ IsReached o p hs f
  located : ∀ x ∈ xs, Located o p.parent x
  table : s.fold.table = foldVisits .empty xs
  accounts : Accounts o (hs.map (Site.mk (Uri.ofPath p)) ++ innerSites o xs)
    (Session.start.note p) s

section

variable {o : Options} {p : Path} {hs hs' : List Tree} {s s' : Session}
  {xs ys : List (Path × String × Tree)}

theorem named_perm (h : hs.Perm hs') : (named o p hs).Perm (named o p hs') := h.map _

theorem isReached_iff_of_perm (h : hs.Perm hs') (f : Path) :
    IsReached o p hs f ↔ IsReached o p hs' f := by
  simp only [IsReached, (named_perm h).mem_iff]

/-- What headers lead to is within any files that hold those named and are closed under imports. -/
theorem IsReached.mem_of_closed {f : Path} (h : IsReached o p hs f) {files : List Path}
    (hn : ∀ g ∈ named o p hs, g ∈ files) (hc : ∀ g ∈ files, ∀ k ∈ dependencies o g, k ∈ files) :
    f ∈ files := by
  obtain ⟨-, g, hg, hr⟩ := h
  induction hr with
  | refl => exact hn g hg
  | tail _ hl ih => exact hc _ ih _ hl.2

/-- Headers of a document at a known address are resolved. -/
theorem Tame.exists_resolves (hp : Tame o p) (hn : ∀ m ∈ p.names, m ≠ "..") (hd : IsShort o.disk)
    (hh : ∀ h ∈ hs, IsParsed h) :
    ∃ s xs, resolve o hs (Uri.ofPath p) (Session.start.note p) = .ok () s ∧
      Resolves o p hs xs s := by
  have hheaders : ∀ h ∈ hs, IsHeader h := by
    intro h hm
    obtain ⟨source, t, ht, -, hmem⟩ := hh h hm
    exact isHeader_of_parse ht hmem
  have hranges : ∀ h ∈ hs, ∃ r, h.range = .ok r := by
    intro h hm
    obtain ⟨source, t, ht, hs, hmem⟩ := hh h hm
    exact exists_range_of_mem_importHeaders ht hs hmem
  have hparent : ∀ m ∈ p.parent.names, m ≠ ".." := by
    intro m hm
    exact hn m (List.dropLast_subset _ hm)
  have hplaced := hp.placed_document hheaders
  obtain ⟨acts, hr⟩ := exists_runs o hs (Uri.ofPath p) (Session.start.note p)
  obtain ⟨s, he⟩ := hr.succeeds hplaced hp.parent hd hranges
  obtain ⟨done, hdone, hex⟩ := hr.explores hplaced hp.parent hparent List.mem_cons_self he
  have hfolds := hr.folds hplaced hp.parent he
  change _ = done ++ [] at hdone
  rw [List.append_nil] at hdone
  have hseen : ∀ z ∈ [p], ¬ Good o p z := by simp [Good]
  refine ⟨s, visits acts, he, ?_, ?_, hfolds.located, hfolds.table, hr.accounts trivial he⟩
  · rw [hdone]
    exact hex.nodup_done
  · intro f
    rw [hdone]
    exact hex.mem_done_iff hseen

namespace Resolves

/-- The order of the headers decides in which order trees are visited, but not which ones. -/
theorem perm (h : Resolves o p hs xs s) (h' : Resolves o p hs' ys s') (hperm : hs.Perm hs') :
    xs.Perm ys := by
  have subset {hs hs' : List Tree} {xs ys : List (Path × String × Tree)} {s s' : Session}
      (h : Resolves o p hs xs s) (h' : Resolves o p hs' ys s') (hperm : hs.Perm hs') :
      xs ⊆ ys := by
    intro x hx
    have hreached := (h.reached x.1).1 (List.mem_map_of_mem hx)
    have hmem := (h'.reached x.1).2 ((isReached_iff_of_perm hperm x.1).1 hreached)
    obtain ⟨y, hy, hpath⟩ := List.mem_map.1 hmem
    have hsame := (h'.located y hy).eq_of_path_eq (h.located x hx) hpath
    rw [← hsame]
    exact hy
  refine (List.perm_ext_iff_of_nodup h.nodup.of_map h'.nodup.of_map).2 ?_
  intro x
  exact ⟨fun hx => subset h h' hperm hx, fun hx => subset h' h hperm.symm hx⟩

/-- Of the trees that are visited, only one declares a global name. -/
theorem eq_of_mem_globals (h : Resolves o p hs xs s) (hc : HasDistinctGlobals o p hs)
    {name : String} {x y : Path × String × Tree} (hx : x ∈ xs) (hy : y ∈ xs)
    (hgx : name ∈ x.2.2.globals) (hgy : name ∈ y.2.2.globals) : x = y := by
  have hlx := h.located x hx
  have hly := h.located y hy
  apply hlx.eq_of_path_eq hly
  have hrx := (h.reached x.1).1 (List.mem_map_of_mem hx)
  have hry := (h.reached y.1).1 (List.mem_map_of_mem hy)
  exact hc _ _ _ _ _ hrx hry hlx.load_eq hly.load_eq hgx hgy

/-- Without clashes a global name stands for the same in either order of the headers. -/
theorem lookup?_eq (h : Resolves o p hs xs s) (h' : Resolves o p hs' ys s') (hperm : hs.Perm hs')
    (hc : HasDistinctGlobals o p hs) (name : String) :
    (s.fold.table.root.lookup? name).map (fun x => (x.kind, x.location)) =
      (s'.fold.table.root.lookup? name).map (fun x => (x.kind, x.location)) := by
  have hlast : lastGlobal name xs = lastGlobal name ys := by
    apply lastGlobal_eq_of_perm (h.perm h' hperm)
    intro x hx y hy
    exact h.eq_of_mem_globals hc hx hy
  have hrel := rel_lookup?_foldVisits (fun x hx => (h.located x hx).loaded) name
  have hrel' := rel_lookup?_foldVisits (fun x hx => (h'.located x hx).loaded) name
  rw [h.table, h'.table]
  rw [hlast] at hrel
  exact Symbol.map_eq_of_rel hrel hrel'

/-- In either order of the headers the sites are the same. -/
theorem accounts_of_perm (h : Resolves o p hs xs s) (h' : Resolves o p hs' ys s')
    (hperm : hs.Perm hs') :
    Accounts o (hs'.map (Site.mk (Uri.ofPath p)) ++ innerSites o ys) (Session.start.note p) s := by
  have hinner : (innerSites o xs).Perm (innerSites o ys) := (h.perm h' hperm).flatMap_right _
  exact h.accounts.perm ((hperm.map _).append hinner)

end Resolves

/-- The order of the headers of a document does not matter, if they lead to no two files in which a
name is global. -/
theorem resolve_perm {o : Options} {p : Path} {hs hs' : List Tree} (hp : Tame o p)
    (hn : ∀ m ∈ p.names, m ≠ "..") (hd : IsShort o.disk) (hh : ∀ h ∈ hs, IsParsed h)
    (hperm : hs.Perm hs') (hc : HasDistinctGlobals o p hs) :
    ∃ marked s s', markVisited o.disk.cwd (Uri.ofPath p) .start = .ok () marked ∧
      resolve o hs (Uri.ofPath p) marked = .ok () s ∧
      resolve o hs' (Uri.ofPath p) marked = .ok () s' ∧
      (∀ k, k ∈ s.visited ↔ k ∈ s'.visited) ∧
      (∀ name, (s.fold.table.root.lookup? name).map (fun x => (x.kind, x.location)) =
        (s'.fold.table.root.lookup? name).map (fun x => (x.kind, x.location))) ∧
      (s.diagnostics.filter fun x => x.code = some "import-not-found").Perm
        (s'.diagnostics.filter fun x => x.code = some "import-not-found") := by
  have hmark := markVisited_of_ok (hp.toPath_eq o.disk.cwd) .start
  rw [normalize_eq_self hp.isAbsolute hn] at hmark
  have hh' : ∀ h ∈ hs', IsParsed h := by
    intro h hm
    exact hh h (hperm.mem_iff.2 hm)
  obtain ⟨s, xs, hr, hx⟩ := hp.exists_resolves hn hd hh
  obtain ⟨s', ys, hr', hy⟩ := hp.exists_resolves hn hd hh'
  have haccounts := hx.accounts_of_perm hy hperm
  refine ⟨_, s, s', hmark, hr, hr', ?_, hx.lookup?_eq hy hperm hc, ?_⟩
  · intro k
    rw [haccounts.visited, hy.accounts.visited]
  · exact haccounts.missing.trans hy.accounts.missing.symm

/-- Two files that import each other, in either order, with missing files named by the document and
by one of them. -/
theorem resolve_perm_cycle :
    let d : Disk := ⟨⟨1, ["m"]⟩, [(["m"], .directory),
      (["m", "a.mykt"], .file (Text.Utf8.encode "import b import x val u = 1".toList)),
      (["m", "b.mykt"], .file (Text.Utf8.encode "import a val v = 2".toList))]⟩
    let o : Options := ⟨d, ".mykt", true⟩
    let p : Path := ⟨1, ["m", "c.mykt"]⟩
    ∃ t marked s s', parse "import a import y import b" = .ok t ∧
      markVisited d.cwd (Uri.ofPath p) .start = .ok () marked ∧
      resolve o t.importHeaders (Uri.ofPath p) marked = .ok () s ∧
      resolve o t.importHeaders.reverse (Uri.ofPath p) marked = .ok () s' ∧
      (∀ k, k ∈ s.visited ↔ k ∈ s'.visited) ∧
      (s.fold.table.root.lookup? "u").map (fun x => (x.kind, x.location)) =
        (s'.fold.table.root.lookup? "u").map (fun x => (x.kind, x.location)) ∧
      (s.diagnostics.filter fun x => x.code = some "import-not-found").Perm
        (s'.diagnostics.filter fun x => x.code = some "import-not-found") := by
  intro d o p
  let a : Path := ⟨1, ["m", "a.mykt"]⟩
  let b : Path := ⟨1, ["m", "b.mykt"]⟩
  obtain ⟨t, ht, hnamed⟩ : ∃ t, parse "import a import y import b" = .ok t ∧
      named o p t.importHeaders = [a, ⟨1, ["m", "y.mykt"]⟩, b] := by
    refine ⟨_, rfl, ?_⟩
    decide +kernel
  have tame : Tame o p := ⟨⟨by decide, by decide⟩, by decide, by decide, by decide⟩
  have parsed : ∀ h ∈ t.importHeaders, IsParsed h := by
    intro h hm
    exact ⟨_, t, ht, by decide, hm⟩
  have within {f : Path} (h : IsReached o p t.importHeaders f) : f = a ∨ f = b := by
    have hmem : f ∈ [a, b, ⟨1, ["m", "x.mykt"]⟩, ⟨1, ["m", "y.mykt"]⟩] := by
      apply h.mem_of_closed
      · rw [hnamed]
        decide
      · decide +kernel
    have hgood : ∀ f ∈ [a, b, ⟨1, ["m", "x.mykt"]⟩, ⟨1, ["m", "y.mykt"]⟩], Good o p f →
        f = a ∨ f = b := by
      decide +kernel
    exact hgood f hmem h.1
  have globals {f : Path} {t : Tree} {names : List String} (h : load d f = .ok t)
      (he : (load d f).toOption.map Tree.globals = some names) : t.globals = names := by
    rw [h] at he
    exact Option.some.inj he
  have ofA : (load d a).toOption.map Tree.globals = some ["u"] := by decide +kernel
  have ofB : (load d b).toOption.map Tree.globals = some ["v"] := by decide +kernel
  have distinct : HasDistinctGlobals o p t.importHeaders := by
    intro f g t u name hf hg ht hu hnt hnu
    rcases within hf with rfl | rfl <;> rcases within hg with rfl | rfl
    · rfl
    · rw [globals ht ofA, List.mem_singleton] at hnt
      rw [globals hu ofB, List.mem_singleton] at hnu
      simp [hnt] at hnu
    · rw [globals ht ofB, List.mem_singleton] at hnt
      rw [globals hu ofA, List.mem_singleton] at hnu
      simp [hnt] at hnu
    · rfl
  obtain ⟨marked, s, s', hmark, hr, hr', hvisited, hlookup, hmissing⟩ :=
    resolve_perm tame (by decide) (isShort_of_hasShortFiles (by decide)) parsed
      t.importHeaders.reverse_perm.symm distinct
  exact ⟨t, marked, s, s', ht, hmark, hr, hr', hvisited, hlookup "u", hmissing⟩

end

end Import

end Mykt
