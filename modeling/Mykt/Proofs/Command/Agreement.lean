import Mathlib.Data.List.Forall2
import Mykt.Command.Run
import Mykt.Import.Graph
import Mykt.Proofs.Import.Target
import Mykt.Server

/-!
Settings that are asked for on a command line and by a client. Main statements: the arguments before
a command give its settings as they are written and leave its task alone; they agree with a client's
options exactly if the extension begins with a dot, and then every import leads to the same file;
otherwise none does.
-/

namespace Mykt

namespace Command

theorem bind_eq_ok_iff {ε α β : Type} {x : Except ε α} {f : α → Except ε β} {b : β} :
    x >>= f = .ok b ↔ ∃ a, x = .ok a ∧ f a = .ok b := by
  cases x <;> simp [bind, Except.bind]

namespace Grammar

variable {g : Grammar}

/-- What a single argument is taken for. -/
def word (g : Grammar) (s : String) : Except Stop Word :=
  if s.toList.head? = some '-' && s ≠ "-" then g.option s else .ok (.plain s)

theorem classify_cons {s : String} (h : s ≠ "--") (rest : List String) :
    g.classify (s :: rest) =
      g.word s >>= fun w => g.classify rest >>= fun ws => .ok (w :: ws) := by
  rw [classify.eq_3 g s rest h, word]
  split <;> rfl

theorem word_of_head {s : String} (h : s.toList.head? ≠ some '-') :
    g.word s = .ok (.plain s) := by
  simp [word, h]

theorem written_of_word {s : String} {w : Word} (h : g.word s = .ok w) : w.written = s := by
  unfold word option at h
  generalize splitValue s = parts at h
  obtain ⟨name, value⟩ := parts
  split at h
  · simp only at h
    split at h
    · cases h
      rfl
    · cases h
      rfl
    · split at h
      · cases h
        rfl
      · split at h <;> cases h <;> rfl
      · cases h
  · cases h
    rfl

theorem map_written {ss : List String} {ws : List Word} (h : g.classify ss = .ok ws) :
    ws.map Word.written = ss := by
  induction ss generalizing ws with
  | nil =>
    cases h
    rfl
  | cons s ss ih =>
    by_cases hs : s = "--"
    · subst hs
      cases h
      simp [Word.written, Function.comp_def]
    · rw [classify_cons hs] at h
      obtain ⟨w, hw, h⟩ := bind_eq_ok_iff.1 h
      obtain ⟨ws', hws, h⟩ := bind_eq_ok_iff.1 h
      cases h
      rw [List.map_cons, written_of_word hw, ih hws]

section

variable {f : Flag} {s v : String} {short : Bool} {before : Before} {r : Reading}
  {ws : List Word}

/-- An option that takes a value takes the next argument. -/
theorem read_value (hf : f.kind ≠ .none) :
    g.read (.option s (some ⟨f, none, short⟩) :: .plain v :: ws) before r =
      g.give r f v >>= g.read ws .other := by
  simp [read, hf]

/-- What is not taken for an argument is no value. -/
theorem read_missing (hf : f.kind ≠ .none) {w : Word} (hw : ∀ v, w ≠ .plain v) :
    g.read (.option s (some ⟨f, none, short⟩) :: w :: ws) before r =
      .error (.usage g.program (.missingValue f)) := by
  cases w with
  | plain v => exact absurd rfl (hw v)
  | dashes => simp [read, hf]
  | option t found => simp [read, hf]

theorem read_set (hf : f.kind = .none) :
    g.read (.option s (some ⟨f, none, short⟩) :: ws) before r =
      set r f >>= g.read ws .other := by
  cases ws with
  | nil => simp [read, hf]
  | cons w ws => cases w <;> simp [read, hf]

end

end Grammar

/-- Arguments that ask for settings. -/
def settingArguments (extension : String) (follow : Bool) (level : String) : List String :=
  "--extension" :: extension ::
    ((if follow then [] else ["--no-transitive-imports"]) ++ ["--log-level", level])

/-- What is read from arguments that ask for settings before a command. -/
def settingReading (extension : String) (follow : Bool) (level : String)
    (command : List String) : Reading where
  values := ("--log-level", .text level) ::
    ((if follow then [] else [("--no-transitive-imports", .set)]) ++
      [("--extension", .text extension)])
  awaited := []
  extras := []
  command := some command

theorem choicesOf_settingReading (extension : String) (follow : Bool) (level : String)
    (command : List String) :
    choicesOf (settingReading extension follow level command) =
      .ok ⟨some extension, follow, Text.lower level⟩ := by
  cases follow <;> rfl

theorem word_extension : mainGrammar.word "--extension" =
    .ok (.option "--extension" (some ⟨extensionFlag, none, false⟩)) := by
  decide +kernel

theorem word_direct : mainGrammar.word "--no-transitive-imports" =
    .ok (.option "--no-transitive-imports" (some ⟨directFlag, none, false⟩)) := by
  decide +kernel

theorem word_logLevel : mainGrammar.word "--log-level" =
    .ok (.option "--log-level" (some ⟨logLevelFlag, none, false⟩)) := by
  decide +kernel

/-- The name of a log level is no option. -/
theorem head?_ne_of_logLevel? {level : String} (h : (logLevel? level).isSome) :
    level.toList.head? ≠ some '-' := by
  intro hdash
  obtain ⟨cs, hcs⟩ := List.head?_eq_some_iff.1 hdash
  have hnone : logLevel? level = none := by
    rw [logLevel?, List.lookup_eq_none_iff, hcs]
    intro x hx
    have hhead : x.1.toList.head? ≠ some '-' := by
      revert x
      decide +kernel
    rw [bne_iff_ne]
    intro hname
    rw [← hname, String.toList_ofList] at hhead
    exact hhead rfl
  rw [hnone] at h
  cases h

theorem head?_ne_of_mem_commandNames {command : String} (h : command ∈ commandNames) :
    command.toList.head? ≠ some '-' := by
  revert command
  decide +kernel

theorem ne_dashes_of_head? {s : String} (h : s.toList.head? ≠ some '-') : s ≠ "--" := by
  rintro rfl
  exact h rfl

section

variable {command extension level : String} {words : List String} {ws : List Word} {task : Task}
  {follow : Bool} {i : Invocation}

theorem classify_command (hc : command ∈ commandNames) :
    mainGrammar.classify (command :: words) =
      mainGrammar.classify words >>= fun ws => .ok (.plain command :: ws) := by
  have hhead := head?_ne_of_mem_commandNames hc
  rw [Grammar.classify_cons (ne_dashes_of_head? hhead), Grammar.word_of_head hhead]
  rfl

/-- A command takes all that follows it. -/
theorem parse_command (hc : command ∈ commandNames) (hws : mainGrammar.classify words = .ok ws) :
    mainGrammar.parse (command :: words) = .ok ⟨[], [], [], some (command :: words)⟩ := by
  have hwritten := Grammar.map_written hws
  rw [Grammar.parse, classify_command hc, hws]
  simp only [bind, Except.bind, Grammar.read, hwritten]
  rfl

/-- The arguments that ask for settings are told apart. -/
theorem classify_settingArguments (hl : (logLevel? level).isSome) (hc : command ∈ commandNames)
    (hne : extension ≠ "--") (he : mainGrammar.word extension = .ok (.plain extension))
    (hws : mainGrammar.classify words = .ok ws) :
    mainGrammar.classify (settingArguments extension follow level ++ command :: words) =
      .ok (.option "--extension" (some ⟨extensionFlag, none, false⟩) :: .plain extension ::
        ((if follow then []
          else [.option "--no-transitive-imports" (some ⟨directFlag, none, false⟩)]) ++
        .option "--log-level" (some ⟨logLevelFlag, none, false⟩) :: .plain level ::
        .plain command :: ws)) := by
  have hlevel := head?_ne_of_logLevel? hl
  have hlast : mainGrammar.classify ("--log-level" :: level :: command :: words) =
      .ok (.option "--log-level" (some ⟨logLevelFlag, none, false⟩) :: .plain level ::
        .plain command :: ws) := by
    rw [Grammar.classify_cons (by decide +kernel), word_logLevel,
      Grammar.classify_cons (ne_dashes_of_head? hlevel), Grammar.word_of_head hlevel,
      classify_command hc, hws]
    rfl
  rw [settingArguments, List.cons_append, List.cons_append, List.append_assoc,
    Grammar.classify_cons (by decide +kernel), word_extension, Grammar.classify_cons hne, he]
  cases follow with
  | true =>
    simp only [List.cons_append, List.nil_append, hlast, bind, Except.bind, if_true]
  | false =>
    simp only [Bool.false_eq_true, if_false, List.cons_append, List.nil_append]
    rw [Grammar.classify_cons (by decide +kernel), word_direct, hlast]
    rfl

theorem give_text {g : Grammar} (r : Reading) {f : Flag} {s : String} (hs : s ≠ "--")
    (hf : f.kind = .text) : g.give r f s = .ok (r.put f.title (.text s)) := by
  simp [Grammar.give, Grammar.convertOrBlank, Grammar.convert, hs, hf, bind, Except.bind, pure,
    Except.pure]

theorem parse_settingArguments (hl : (logLevel? level).isSome) (hc : command ∈ commandNames)
    (hne : extension ≠ "--") (he : mainGrammar.word extension = .ok (.plain extension))
    (hws : mainGrammar.classify words = .ok ws) :
    mainGrammar.parse (settingArguments extension follow level ++ command :: words) =
      .ok (settingReading extension follow level (command :: words)) := by
  have hwritten := Grammar.map_written hws
  have hlevel := ne_dashes_of_head? (head?_ne_of_logLevel? hl)
  -- the log level and the command are read behind whatever the other settings are
  have hlast (r : Reading) :
      mainGrammar.read (.option "--log-level" (some ⟨logLevelFlag, none, false⟩) :: .plain level ::
        .plain command :: ws) .other r =
      .ok { r.put "--log-level" (.text level) with command := some (command :: words) } := by
    rw [Grammar.read_value (by decide), give_text r hlevel rfl]
    simp only [bind, Except.bind, Grammar.read, hwritten]
    rfl
  rw [Grammar.parse, classify_settingArguments hl hc hne he hws]
  change (mainGrammar.read _ .other _ >>= _) = _
  rw [Grammar.read_value (by decide), give_text _ hne rfl]
  cases follow with
  | true =>
    change (mainGrammar.read (.option "--log-level" _ :: _) .other _ >>= _) = _
    rw [hlast]
    rfl
  | false =>
    change (mainGrammar.read (.option "--no-transitive-imports" _ :: _) .other _ >>= _) = _
    rw [Grammar.read_set rfl]
    change (mainGrammar.read (.option "--log-level" _ :: _) .other _ >>= _) = _
    rw [hlast]
    rfl

theorem ofArguments_of_parse {arguments : List String} {r : Reading}
    (hr : mainGrammar.parse arguments = .ok r) (hcommand : r.command = some (command :: words))
    (hextras : r.extras = []) :
    Invocation.ofArguments arguments = taskOf command words >>= fun x =>
      match x.2 with
      | [] => choicesOf r >>= fun c => .ok ⟨c, x.1⟩
      | left => .error (.usage programName (.unrecognized left)) := by
  rw [Invocation.ofArguments, hr]
  simp only [bind, Except.bind, hcommand, hextras, List.nil_append]
  rfl

theorem taskOf_of_ofArguments (hc : command ∈ commandNames)
    (h : Invocation.ofArguments (command :: words) = .ok i) :
    (∃ ws, mainGrammar.classify words = .ok ws) ∧ taskOf command words = .ok (i.task, []) := by
  cases hws : mainGrammar.classify words with
  | error stop =>
    rw [Invocation.ofArguments, Grammar.parse, classify_command hc, hws] at h
    cases h
  | ok ws =>
    refine ⟨⟨ws, rfl⟩, ?_⟩
    rw [ofArguments_of_parse (parse_command hc hws) rfl rfl] at h
    obtain ⟨⟨task, left⟩, htask, h⟩ := bind_eq_ok_iff.1 h
    cases left with
    | nil =>
      obtain ⟨c, -, h⟩ := bind_eq_ok_iff.1 h
      cases h
      exact htask
    | cons s left => cases h

/-- An extension that is read stands for itself among the arguments. -/
theorem plain_of_ofArguments
    (h : Invocation.ofArguments (settingArguments extension follow level ++ words) = .ok i) :
    extension ≠ "--" ∧ mainGrammar.word extension = .ok (.plain extension) := by
  obtain ⟨r, hr, -⟩ := bind_eq_ok_iff.1 h
  obtain ⟨ws, hws, hr⟩ := bind_eq_ok_iff.1 hr
  obtain ⟨r', hr', -⟩ := bind_eq_ok_iff.1 hr
  rw [settingArguments, List.cons_append, Grammar.classify_cons (by decide +kernel),
    word_extension] at hws
  obtain ⟨w, hw, hws⟩ := bind_eq_ok_iff.1 hws
  cases hw
  obtain ⟨rest, hrest, hws⟩ := bind_eq_ok_iff.1 hws
  cases hws
  -- the option would miss its value
  have missing {w : Word} {rest' : List Word} (he : rest = w :: rest') : ∃ v, w = .plain v := by
    by_contra hplain
    rw [he, Grammar.read_missing (by decide) (by simpa using hplain)] at hr'
    cases hr'
  by_cases hdashes : extension = "--"
  · subst hdashes
    cases hrest
    obtain ⟨v, hv⟩ := missing rfl
    cases hv
  · refine ⟨hdashes, ?_⟩
    rw [List.cons_append, Grammar.classify_cons hdashes] at hrest
    obtain ⟨w, hw, hrest⟩ := bind_eq_ok_iff.1 hrest
    obtain ⟨rest', -, hrest⟩ := bind_eq_ok_iff.1 hrest
    cases hrest
    obtain ⟨v, rfl⟩ := missing rfl
    have hv : v = extension := Grammar.written_of_word hw
    rw [hw, hv]

/-- Settings before a command are taken as they are written, and the task is as without them. -/
theorem ofArguments_settingArguments_iff (hl : (logLevel? level).isSome)
    (hc : command ∈ commandNames) {alone : Invocation}
    (ha : Invocation.ofArguments (command :: words) = .ok alone) :
    Invocation.ofArguments (settingArguments extension follow level ++ command :: words) = .ok i ↔
      (extension ≠ "--" ∧ mainGrammar.word extension = .ok (.plain extension)) ∧
        i = ⟨⟨some extension, follow, Text.lower level⟩, alone.task⟩ := by
  obtain ⟨⟨ws, hws⟩, htask⟩ := taskOf_of_ofArguments hc ha
  have hgiven (hne : extension ≠ "--") (he : mainGrammar.word extension = .ok (.plain extension)) :
      Invocation.ofArguments (settingArguments extension follow level ++ command :: words) =
        .ok ⟨⟨some extension, follow, Text.lower level⟩, alone.task⟩ := by
    rw [ofArguments_of_parse (parse_settingArguments hl hc hne he hws) rfl rfl, htask]
    simp only [bind, Except.bind, choicesOf_settingReading]
  constructor
  · intro h
    obtain ⟨hne, he⟩ := plain_of_ofArguments h
    rw [hgiven hne he] at h
    cases h
    exact ⟨⟨hne, he⟩, rfl⟩
  · rintro ⟨⟨hne, he⟩, rfl⟩
    exact hgiven hne he

end

end Command

namespace Settings

/-- Options of a client that ask for settings. -/
def clientOptions (extension : String) (follow : Bool) (level : String) : Json :=
  .object [("fileExtension", .string extension), ("followTransitiveImports", .bool follow),
    ("logLevel", .string level)]

theorem merged_clientOptions {extension level : String} (s : Settings) (follow : Bool)
    (he : extension ≠ "") (hl : (logLevel? level).isSome) :
    s.merged (clientOptions extension follow level) =
      ⟨dotted extension, follow, Text.lower level⟩ := by
  have hextension : extensionOption? (clientOptions extension follow level) =
      some (dotted extension) := if_neg he
  have hlevel : logLevelOption? (clientOptions extension follow level) =
      some (Text.lower level) := if_pos hl
  rw [merged, hextension, hlevel]
  rfl

theorem dotted_eq_self_iff {extension : String} :
    dotted extension = extension ↔ extension.toList.head? = some '.' := by
  unfold dotted
  split
  · next h => exact iff_of_true rfl h
  · next h =>
    refine iff_of_false ?_ h
    intro he
    have := congrArg String.length he
    simp at this

end Settings

namespace Import

section

variable {header : Tree} {name extension : String}

/-- The first name of a path that begins with an identifier. -/
theorem head?_parts {s : String} (hs : Lexer.IsIdentifier s.toList) (cs : List Char) :
    (Path.parts (s.toList ++ cs)).head? =
      some (s ++ String.ofList (cs.takeWhile (· ≠ '/'))) := by
  have hslash : '/' ∉ (String.ofList (cs.takeWhile (· ≠ '/'))).toList := by
    rw [String.toList_ofList]
    intro hm
    simpa using List.mem_takeWhile_imp hm
  have hfirst := Path.parts_toList (isComponent_append hs hslash).1
  rw [String.toList_append, String.toList_ofList] at hfirst
  have hcs := List.takeWhile_append_dropWhile (p := (· ≠ '/')) (l := cs)
  generalize cs.takeWhile (· ≠ '/') = first at *
  cases hrest : cs.dropWhile (· ≠ '/') with
  | nil =>
    rw [hrest, List.append_nil] at hcs
    rw [← hcs, hfirst]
    rfl
  | cons c rest =>
    obtain rfl : c = '/' := by
      simpa using Lexer.head?_dropWhile_eq_false (· ≠ '/') cs c (by rw [hrest]; rfl)
    rw [← hcs, hrest, ← List.append_assoc, Path.parts_append, hfirst]
    rfl

/-- The names of an imported file end with those that the last simple name begins. -/
theorem target_relativePath (h : IsHeader header) (hname : header.importName = .ok name) :
    ∃ (init : List String) (last : String), Lexer.IsIdentifier last.toList ∧
      ∀ (directory : Path) (extension : String), (target directory (relativePath name extension)).names =
        directory.names ++ (init ++ Path.parts (last.toList ++ extension.toList)) := by
  obtain rfl : ".".intercalate header.importParts = name :=
    Except.ok.inj (h.importName.symm.trans hname)
  obtain ⟨init, last, hparts⟩ := exists_init_last h.parts_ne_nil
  have hid := h.isIdentifier
  rw [hparts] at hid
  refine ⟨init, last, hid last (by simp), ?_⟩
  intro directory extension
  have hcomponents : ∀ n ∈ init, Path.IsComponent n := by
    intro n hn
    simpa using (isComponent_append (t := "") (hid n (by simp [hn])) (by simp)).1
  change directory.names ++ Path.parts (relativePath _ extension).toList = _
  rw [relativePath_eq h.isIdentifier h.parts_ne_nil, hparts, withExtension,
    List.dropLast_concat, Path.toList_intercalate, Path.parts_slashed hcomponents]
  simp

/-- Without a dot before the extension an import leads elsewhere than with one. -/
theorem target_ne_dotted (h : IsHeader header) (hname : header.importName = .ok name)
    (he : extension.toList.head? ≠ some '.') (directory : Path) :
    target directory (relativePath name extension) ≠
      target directory (relativePath name (Settings.dotted extension)) := by
  obtain ⟨init, last, hlast, hnames⟩ := target_relativePath h hname
  intro hsame
  have hparts := congrArg Path.names hsame
  rw [hnames, hnames, List.append_cancel_left_eq, List.append_cancel_left_eq] at hparts
  have hheads := congrArg List.head? hparts
  rw [head?_parts hlast, head?_parts hlast, Option.some.injEq] at hheads
  have hlengths := congrArg String.length hheads
  simp [Settings.dotted, he] at hlengths

/-- The documents that a parsed file imports all lie elsewhere without a dot before the extension
than with one. -/
theorem edges_ne_dotted {source : String} {t : Tree} (h : parse source = .ok t)
    (he : extension.toList.head? ≠ some '.') (cwd : Path) (uri : String) :
    List.Forall₂ (fun x y => x.path ≠ y.path) (edges cwd extension uri t)
      (edges cwd (Settings.dotted extension) uri t) := by
  have hheaders : ∀ header ∈ t.importHeaders, IsHeader header :=
    fun header hh => isHeader_of_parse h hh
  unfold edges
  cases Uri.toPath cwd (Uri.base uri) with
  | error e => exact .nil
  | ok directory =>
    simp only
    generalize t.importHeaders = headers at hheaders ⊢
    induction headers with
    | nil => exact .nil
    | cons header headers ih =>
      obtain ⟨hheader, hrest⟩ := List.forall_mem_cons.1 hheaders
      simp only [List.filterMap_cons, hheader.importName]
      exact .cons (target_ne_dotted hheader hheader.importName he directory) (ih hrest)

end

end Import

namespace Command

/-- What a command line asks for is what the same options of a client give exactly if the extension
begins with a dot. Every import then leads to the same place for a command and for a server; without
the dot, each leads elsewhere. -/
theorem settings_agree_iff {extension level command : String} {words : List String}
    {alone : Invocation} (he : extension ≠ "") (hl : (logLevel? level).isSome)
    (hc : command ∈ commandNames) (ha : Invocation.ofArguments (command :: words) = .ok alone)
    (follow : Bool) (d : Disk) (heard : Nat) :
    let given := Invocation.ofArguments (settingArguments extension follow level ++ command :: words)
    let options := Settings.clientOptions extension follow level
    let server := ((Server.start {} heard).step d (.started options)).1
    server.cache.settings = ({} : Settings).merged options ∧
    ((∃ i, given = .ok i ∧ i.task = alone.task ∧ i.choices.settings = server.cache.settings) ↔
      extension.toList.head? = some '.') ∧
    ∀ i, given = .ok i → ∀ source t, parse source = .ok t → ∀ cwd uri,
      if extension.toList.head? = some '.' then
        Import.edges cwd i.choices.settings.fileExtension uri t =
          Import.edges cwd server.cache.settings.fileExtension uri t
      else
        List.Forall₂ (fun x y => x.path ≠ y.path)
          (Import.edges cwd i.choices.settings.fileExtension uri t)
          (Import.edges cwd server.cache.settings.fileExtension uri t) := by
  intro given options server
  have hserver : server.cache.settings = ⟨Settings.dotted extension, follow, Text.lower level⟩ :=
    Settings.merged_clientOptions {} follow he hl
  have hgiven {i : Invocation} : given = .ok i ↔ _ := ofArguments_settingArguments_iff hl hc ha
  refine ⟨rfl, ⟨?_, ?_⟩, ?_⟩
  · rintro ⟨i, hi, -, hsettings⟩
    obtain ⟨-, rfl⟩ := hgiven.1 hi
    rw [hserver] at hsettings
    exact Settings.dotted_eq_self_iff.1 (congrArg Settings.fileExtension hsettings).symm
  · intro hdot
    have hhead : extension.toList.head? ≠ some '-' := by
      rw [hdot]
      decide
    refine ⟨_, hgiven.2 ⟨⟨ne_dashes_of_head? hhead, Grammar.word_of_head hhead⟩, rfl⟩, rfl, ?_⟩
    rw [hserver, Settings.dotted_eq_self_iff.2 hdot]
    rfl
  · intro i hi source t ht cwd uri
    obtain ⟨-, rfl⟩ := hgiven.1 hi
    rw [hserver]
    split
    · next hdot =>
      rw [Settings.dotted_eq_self_iff.2 hdot]
      rfl
    · next hdot => exact Import.edges_ne_dotted ht hdot cwd uri

/-- An extension with a dot, direct imports only and a level in capitals. -/
theorem settings_agree_iff_dotted :
    ∃ i, Invocation.ofArguments
        ["--extension", ".kt", "--no-transitive-imports", "--log-level", "DEBUG", "symbols",
          "a.mykt"] = .ok i ∧
      i.task = .symbols ⟨0, ["a.mykt"]⟩ ∧
      i.choices.settings =
        ({} : Settings).merged (Settings.clientOptions ".kt" false "DEBUG") ∧
      i.choices.settings = ⟨".kt", false, "debug"⟩ := by
  have halone : Invocation.ofArguments ["symbols", "a.mykt"] =
      .ok ⟨⟨some ".mykt", true, "warning"⟩, .symbols ⟨0, ["a.mykt"]⟩⟩ := by
    decide +kernel
  obtain ⟨hserver, hagree, -⟩ := @settings_agree_iff ".kt" "DEBUG" "symbols" ["a.mykt"] _
    (by decide +kernel) (by decide +kernel) (by decide +kernel) halone false ⟨⟨1, []⟩, []⟩ 30
  obtain ⟨i, hi, htask, hsettings⟩ := hagree.2 (by decide +kernel)
  refine ⟨i, hi, htask, hsettings.trans hserver, ?_⟩
  rw [hsettings, hserver]
  decide +kernel

/-- Without a dot a command line and a client differ, and an import leads to another file. -/
theorem settings_differ_without_dot :
    ∃ i t, Invocation.ofArguments
        ["--extension", "kt", "--log-level", "warning", "symbols", "a.mykt"] = .ok i ∧
      parse "import b" = .ok t ∧
      i.choices.settings ≠
        ({} : Settings).merged (Settings.clientOptions "kt" true "warning") ∧
      (Import.edges ⟨1, []⟩ i.choices.settings.fileExtension "file:///a.mykt" t).map (·.path) =
        [⟨1, ["bkt"]⟩] ∧
      (Import.edges ⟨1, []⟩ (({} : Settings).merged
        (Settings.clientOptions "kt" true "warning")).fileExtension "file:///a.mykt" t).map
          (·.path) = [⟨1, ["b.kt"]⟩] := by
  refine ⟨⟨⟨some "kt", true, "warning"⟩, .symbols ⟨0, ["a.mykt"]⟩⟩, _, by decide +kernel, rfl,
    by decide +kernel, by decide +kernel, by decide +kernel⟩

end Command

end Mykt
