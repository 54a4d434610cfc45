import Scriptlet.Command.Run
import Scriptlet.Proofs.Settings.Load

/-!
# The settings of a command

A command takes its settings from options, variables, a file and the defaults, in this order. It
reports what is wrong with them and ends with the status 2, unless their file is illegible: such a
file crashes it. The numbers that it reports come from texts and are short, so that they can be
written.

* `settingsOf_layers`: where the value of each key comes from.
* `plan_of_load`: how a command ends that cannot load its settings.
-/

namespace Scriptlet.Command

open Eval (depthLimit)
open Settings (Key entries variableValue? VariablesFit FileMembers Illegible filePath? value)

variable {host : Host} {args : Arguments} {env : Environment} {files : Files}

/-! ## Options -/

/-- The value that the options of a command line give to a key. -/
def optionValue? (args : Arguments) : Key → Option Json
  | .verbose => if args.verbose then some (.bool true) else none
  | .trace => if args.trace then some (.bool true) else none
  | .maxDepth => args.maxDepth
  | .prompt | .continuationPrompt => none

/-- The keys that there are options for. -/
def optionKeys : List Key := [.verbose, .trace, .maxDepth]

theorem nodup_optionKeys : optionKeys.Nodup := by decide

theorem optionValue?_of_notMem {key : Key} (h : key ∉ optionKeys) :
    optionValue? args key = none := by
  cases key with
  | prompt | continuationPrompt => rfl
  | maxDepth | verbose | trace => exact absurd (by decide) h

theorem optionMembers_eq (args : Arguments) :
    optionMembers args = entries optionKeys (optionValue? args) := by
  rw [optionKeys, Settings.entries_cons, Settings.entries_cons, Settings.entries_cons, entries,
    List.filterMap_nil, List.append_nil, ← List.append_assoc]
  unfold optionMembers optionValue?
  cases args.verbose <;> cases args.trace <;> rfl

theorem problems_options (h : ∀ v, args.maxDepth = some v →
    ∃ n : Int, v = .int n ∧ 1 ≤ n ∧ n ≤ depthLimit) :
    Settings.problems (entries optionKeys (optionValue? args)) = [] := by
  refine Settings.problems_entries nodup_optionKeys (fun _ => optionValue?_of_notMem) ?_ ?_
  · intro key v hv
    cases key with
    | prompt | continuationPrompt => cases hv
    | maxDepth =>
      obtain ⟨n, rfl, -⟩ := h v hv
      rfl
    | verbose | trace =>
      obtain ⟨-, hv⟩ := Option.ite_none_right_eq_some.1 hv
      cases hv
      rfl
  · intro n hn
    obtain ⟨m, heq, hrange⟩ := h _ hn
    cases heq
    exact hrange

/-! ## The number in a command line -/

/-- The number of active calls that has been taken, if there is one, is short. -/
def Progress.Short (p : Progress) : Prop := ∀ v, p.arguments.maxDepth = some v → v.Short

namespace Progress

variable {p q : Progress}

theorem Short.takeSource (hp : p.Short) (word : String) : (p.takeSource word).Short := by
  unfold Progress.takeSource
  split
  · exact hp
  · exact hp

theorem Short.takeSeparator (hp : p.Short) (word : String) : (p.takeSeparator word).Short := by
  unfold Progress.takeSeparator
  split
  · exact hp
  · exact hp

theorem Short.takeFlag {o : Opt} (hp : p.Short) (h : p.takeFlag o = .ok q) : q.Short := by
  cases o <;> cases h <;> exact hp

theorem Short.takeValue {o : Opt} {value : String} (hp : p.Short)
    (h : p.takeValue o value = .ok q) : q.Short := by
  cases o with
  | maxDepth =>
    unfold Progress.takeValue at h
    dsimp only at h
    split_ifs at h
    · cases h
      intro v hv
      cases hv
      exact .array (List.forall_mem_nil _)
    · split at h
      · rename_i n hn
        cases h
        intro v hv
        cases hv
        exact .int (Numeral.short_of_parse? hn)
      · cases h
  | config =>
    cases h
    exact hp
  | _ => cases h

theorem Short.takeFlags {opts : List Opt} (hp : p.Short)
    (h : opts.foldlM Progress.takeFlag p = .ok q) : q.Short := by
  induction opts generalizing p with
  | nil =>
    cases h
    exact hp
  | cons o opts ih =>
    rw [List.foldlM_cons] at h
    obtain ⟨r, hr, h⟩ := exists_of_bind_eq_ok h
    exact ih (hp.takeFlag hr) h

theorem Short.takeAttached {o : Opt} {short : Bool} {value : String} (hp : p.Short)
    (h : p.takeAttached o short value = .ok q) : q.Short := by
  unfold Progress.takeAttached at h
  split at h
  · obtain ⟨opts, -, h⟩ := exists_of_bind_eq_ok h
    exact hp.takeFlags h
  · exact hp.takeValue h

theorem Short.takeWords {words : List (String × WordKind)} (hp : p.Short)
    (h : Command.takeWords p words = .ok q) : q.Short := by
  -- along the words; only an option that has a value sets the number
  fun_induction Command.takeWords p words with
  | case1 =>
    cases h
    exact hp
  | case2 _ _ _ ih | case3 _ _ _ _ _ ih => exact ih hp h
  | case4 _ word _ _ _ ih | case5 _ word _ _ ih => exact ih (hp.takeSource word) h
  | case6 _ word _ ih => exact ih (hp.takeSeparator word) h
  | case7 _ _ _ _ _ _ ih =>
    obtain ⟨r, hr, h⟩ := exists_of_bind_eq_ok h
    exact ih r (hp.takeAttached hr) h
  | case8 _ _ _ _ _ _ _ ih =>
    obtain ⟨r, hr, h⟩ := exists_of_bind_eq_ok h
    exact ih r (hp.takeValue hr) h
  | case9 => cases h
  | case10 _ _ _ _ _ _ ih =>
    obtain ⟨r, hr, h⟩ := exists_of_bind_eq_ok h
    exact ih r (hp.takeFlag hr) h

end Progress

/-- The number that a command line asks for is short, since it is read as a numeral. -/
theorem short_of_parse {words : List String} (h : Arguments.parse words = .ok args) :
    ∀ v, args.maxDepth = some v → v.Short := by
  obtain ⟨kinds, -, h⟩ := exists_of_bind_eq_ok h
  obtain ⟨p, hp, h⟩ := exists_of_bind_eq_ok h
  split at h
  · cases h
    exact Progress.Short.takeWords (p := {}) (fun _ hv => by cases hv) hp
  · cases h

theorem short_options (h : ∀ v, args.maxDepth = some v → v.Short) :
    ∀ m ∈ optionMembers args, m.2.Short := by
  intro m hm
  rw [optionMembers_eq] at hm
  obtain ⟨key, -, -, hv⟩ := Settings.mem_entries hm
  cases key with
  | prompt | continuationPrompt => cases hv
  | maxDepth => exact h _ hv
  | verbose | trace =>
    obtain ⟨-, hv⟩ := Option.ite_none_right_eq_some.1 hv
    rw [← Option.some.inj hv]
    exact .bool

/-! ## Layers -/

/-- **Settings come in layers.**

Each key has the value of its option, or else that of its variable, or else that in the file, or
else the default. The file is the one that is asked for, or else the one that a variable names. The
number of active calls is in range.

One object over another is one object, in which the members of the second count. -/
theorem settingsOf_layers {members : List (String × Json)} {accepted : Settings}
    (hfile : FileMembers host args.config env files members)
    (hmembers : Settings.override {} members = .ok accepted) (henv : VariablesFit env)
    (hdepth : ∀ v, args.maxDepth = some v → ∃ n : Int, v = .int n ∧ 1 ≤ n ∧ n ≤ depthLimit) :
    (∃ s, settingsOf host args env files = .ok s ∧
      (∀ key, s.value key = (((optionValue? args key).or (variableValue? env key)).or
        (members.lookup key.name)).getD (value {} key)) ∧
      1 ≤ s.maxDepth ∧ s.maxDepth ≤ depthLimit) ∧
    ∀ (base s₁ s₂ : Settings) (m₁ m₂ : List (String × Json)),
      (m₁.map Prod.fst).Nodup → (m₂.map Prod.fst).Nodup →
      base.override m₁ = .ok s₁ → s₁.override m₂ = .ok s₂ →
      base.override (Json.merge m₁ m₂) = .ok s₂ := by
  refine ⟨?_, fun _ _ _ _ _ hm₁ hm₂ => Settings.override_merge hm₁ hm₂⟩
  obtain ⟨loaded, hload, hderived, hvalue⟩ := Settings.load_layers hfile hmembers henv
  have hover := Settings.override_of_problems (problems_options hdepth) loaded
  have hkeys : ((entries optionKeys (optionValue? args)).map Prod.fst).Nodup :=
    Settings.nodup_entries nodup_optionKeys
  have hrange := (hderived.override hkeys hover).maxDepth_range
  refine ⟨_, ?_, fun key => ?_, hrange⟩
  · rw [settingsOf, hload, optionMembers_eq]
    show ((loaded.override _).mapError _).mapError _ = _
    rw [hover]
    rfl
  · rw [Settings.value_override hkeys hover, hvalue,
      Settings.lookup_entries nodup_optionKeys optionValue?_of_notMem]
    cases optionValue? args key <;> rfl

/-- A command line with an option and a file. -/
def layeredArguments : Arguments := { verbose := true, config := some "layers.json" }

/-- Variables that set the number of active calls and name a file that is not there. -/
def layeredEnvironment : Environment
  | "WAIXG_MAX_DEPTH" => some " 7 "
  | "WAIXG_CONFIG" => some "missing.json"
  | _ => none

/-- The text of a file that sets two values. -/
def layeredText : String := "\x7b\"max_depth\": 3, \"prompt\": \"? \"\x7d"

/-- Files of which only one is there. -/
def layeredFiles : Files := fun path =>
  if path = "layers.json" then .ok (Text.encode layeredText.toList) else .error .missing

theorem settingsOf_layeredArguments : VariablesFit layeredEnvironment ∧
    (∃ members accepted,
      FileMembers {} layeredArguments.config layeredEnvironment layeredFiles members ∧
      Settings.override {} members = .ok accepted) ∧
    settingsOf {} layeredArguments layeredEnvironment layeredFiles =
      .ok { maxDepth := 7, prompt := "? ", verbose := true } := by
  have hseven : Numeral.parse? (Text.strip " 7 ") = some 7 := by decide +kernel
  have henv : VariablesFit layeredEnvironment := by
    refine ⟨fun text h => ?_, fun text h => ?_, fun text h => ?_⟩
    · cases h
      exact ⟨7, hseven, by decide, by decide⟩
    · cases h
    · cases h
  have htext : layeredFiles.readText "layers.json" = .ok layeredText := by
    have hbytes := Text.textOfBytes_eq_ok_iff.2
      ⟨layeredText.toList, rfl, show _ = layeredText by decide +kernel⟩
    rw [Files.readText, if_neg (by simp), layeredFiles, if_pos rfl]
    dsimp only
    rw [hbytes]
    rfl
  -- JSON values cannot be compared, so that the settings are computed and not the members
  have hsettings : (Json.parse none layeredText).toOption.map (Settings.ofJson {}) =
      some (.ok { maxDepth := 3, prompt := "? " }) := by decide +kernel
  obtain ⟨v, hv, hjson⟩ := Option.map_eq_some_iff.1 hsettings
  obtain ⟨members, rfl, hmembers⟩ := Settings.exists_of_ofJson hjson
  have hparse : Json.parse none layeredText = .ok (.object members) := by
    cases h : Json.parse none layeredText <;> rw [h] at hv <;> cases hv
    rfl
  have hfile : FileMembers {} layeredArguments.config layeredEnvironment layeredFiles members :=
    .asked rfl (by decide) ⟨_, htext, hparse⟩
  have hkeys : (members.map Prod.fst).Nodup := (hfile.fileSettings hmembers).2
  obtain ⟨⟨s, hs, hvalue, -⟩, -⟩ := settingsOf_layers hfile hmembers henv fun v hv => by cases hv
  refine ⟨henv, ⟨members, _, hfile, hmembers⟩, hs.trans (congrArg Except.ok ?_)⟩
  refine Settings.ext_value fun key => ?_
  have hlower := Settings.value_override hkeys hmembers key
  rw [hvalue key]
  cases key with
  | maxDepth =>
    show (((some " 7 ").bind fun text => (Numeral.parse? (Text.strip text)).map Json.int).or _).getD
      _ = _
    rw [Option.bind_some, hseven]
    rfl
  | verbose => rfl
  | prompt => exact hlower.symm
  | continuationPrompt => exact hlower.symm
  | trace => exact hlower.symm

/-! ## Failures -/

theorem bind_ne_load {α β : Type} {x : Except Crash α} {f : α → Except Crash β}
    {e : Settings.LoadError} (hx : x ≠ .error (.load e)) (hf : ∀ a, f a ≠ .error (.load e)) :
    (x >>= f) ≠ .error (.load e) := by
  intro h
  rcases cases_of_bind_eq_error h with h | ⟨a, -, h⟩
  · exact hx h
  · exact hf a h

theorem requireRoom_ne_load (fits : Bool) (e : Settings.LoadError) :
    requireRoom fits ≠ .error (.load e) := by
  cases fits <;> exact fun h => by cases h

/-- A run of a source text does not load settings. -/
theorem runSource_ne_load (host : Host) (settings : Settings) (dumpAst : Bool) (source : String)
    (e : Settings.LoadError) : runSource host settings dumpAst source ≠ .error (.load e) := by
  unfold runSource
  dsimp only
  split
  · exact fun h => by cases h
  · refine bind_ne_load (requireRoom_ne_load _ e) fun _ => bind_ne_load ?_ fun depth => ?_
    · cases Eval.checkDepth settings.maxDepth <;> exact fun h => by cases h
    · refine bind_ne_load (requireRoom_ne_load _ e) fun _ => ?_
      split
      · exact fun h => by cases h
      · exact bind_ne_load (requireRoom_ne_load _ e) fun _ h => by cases h

theorem runFile_ne_load (host : Host) (settings : Settings) (dumpAst : Bool) (files : Files)
    (path : String) (e : Settings.LoadError) :
    runFile host settings dumpAst files path ≠ .error (.load e) := by
  unfold runFile
  split
  · split
    · exact fun h => by cases h
    · exact runSource_ne_load host settings dumpAst _ e
  · exact fun h => by cases h

theorem start_ne_load (settings : Settings) (e : Settings.LoadError) :
    (Session.start settings none).mapError Crash.depth ≠ .error (.load e) := by
  cases Session.start settings none with
  | error e => exact fun h => by cases h
  | ok session => exact fun h => by cases h

theorem settingsOf_of_load {e : Settings.LoadError}
    (h : Settings.load host args.config env files = .error e) :
    settingsOf host args env files = .error e := by
  rw [settingsOf, h]
  rfl

/-- A command whose load fails crashes, unless its settings are refused. -/
theorem planArguments_of_load {e : Settings.LoadError}
    (h : Settings.load host args.config env files = .error e) (hne : ∀ e', e ≠ .config e') :
    planArguments host args env files = .error (.load e) := by
  rw [planArguments, settingsOf_of_load h]
  cases e with
  | config e' => exact absurd rfl (hne e')
  | _ => rfl

/-- Settings fail to be loaded, or the options are refused. -/
theorem settingsOf_eq_error {e : Settings.LoadError}
    (h : settingsOf host args env files = .error e) :
    Settings.load host args.config env files = .error e ∨
      e = .config (.invalid (Settings.problems (optionMembers args))) := by
  unfold settingsOf at h
  rcases cases_of_bind_eq_error h with hload | ⟨settings, -, h⟩
  · exact .inl hload
  · cases hover : settings.override (optionMembers args) with
    | error ps =>
      rw [hover] at h
      cases h
      exact .inr (by rw [Settings.eq_problems_of_override hover])
    | ok s =>
      rw [hover] at h
      cases h

/-- What a command reports about its settings can be written. -/
theorem writable_of_settingsOf {words : List String} {e : Settings.ConfigError}
    (hparse : Arguments.parse words = .ok args)
    (h : settingsOf host args env files = .error (.config e)) : e.Writable := by
  rcases settingsOf_eq_error h with hload | he
  · rcases Settings.load_cases host args.config env files with
      ⟨s, hs, -⟩ | ⟨e', he', hwritable⟩ | ⟨path, e', -, he', hwhy⟩
    · cases hload.symm.trans hs
    · cases hload.symm.trans he'
      exact hwritable
    · cases hload.symm.trans he'
      exact absurd rfl (hwhy.ne_config e)
  · cases he
    exact Settings.writable_of_short (short_options (short_of_parse hparse))

/-- A command that crashes over its settings does so when it loads them. -/
theorem load_of_planArguments {e : Settings.LoadError}
    (h : planArguments host args env files = .error (.load e)) :
    Settings.load host args.config env files = .error e ∧ ∀ e', e ≠ .config e' := by
  unfold planArguments at h
  split at h
  · cases h
  · rename_i e' hconfig he
    cases h
    have hne : ∀ e', e ≠ .config e' := fun e' heq => hconfig e' heq
    exact ⟨(settingsOf_eq_error he).resolve_right (hne _), hne⟩
  · rename_i settings _
    -- what follows does not load anything
    exfalso
    split at h
    · split at h
      · exact bind_ne_load (start_ne_load settings e) (fun _ h => by cases h) h
      · split at h
        · exact bind_ne_load (runSource_ne_load host settings _ _ e) (fun _ h => by cases h) h
        · exact bind_ne_load (runFile_ne_load host settings _ files _ e) (fun _ h => by cases h) h
    · exact bind_ne_load (start_ne_load settings e) (fun _ h => by cases h) h

/-- The words of a command that asks for a file with settings. -/
def fileWords : List String := ["--config", "settings.json"]

/-- A host that has room for two containers, one inside the other. -/
def shallowHost : Host := { containers := some 2 }

/-- Files that are all made of three opening brackets. -/
def bracketFiles : Files := fun _ => .ok (Text.encode ['[', '[', '['])

end Scriptlet.Command
