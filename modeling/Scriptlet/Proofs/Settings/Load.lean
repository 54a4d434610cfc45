import Scriptlet.Proofs.Json.Reader
import Scriptlet.Proofs.Run
import Scriptlet.Proofs.Settings.Layers
import Scriptlet.Proofs.Text.Utf8
import Scriptlet.Settings.Load

/-!
# What loading settings comes to

Settings are loaded, or they are refused, or their file cannot be read as the text of a value: its
path has a NUL character, it is not UTF-8, it has too many digits for an integer, or it has more
opening brackets than the host has room for.

* `Illegible`: these four, each with the error that it leads to.
* `load_cases`: there is no other way for a load to end.
* `load_layers`: the settings that are loaded have the values of variables over those of a file.
-/

namespace Scriptlet.Settings

open Eval (depthLimit)

variable {host : Host} {asked : Option String} {env : Environment} {files : Files}
  {base : Settings} {path : String}

/-! ## Variables -/

/-- The value of an integer variable, if it is there and has one. -/
def integerVariable? (env : Environment) (name : String) : Option Json :=
  (env name).bind fun text => (Numeral.parse? (Text.strip text)).map .int

/-- The value of a boolean variable, if it is there and has one. -/
def booleanVariable? (env : Environment) (name : String) : Option Json :=
  (env name).bind fun text => (truth? text).map .bool

/-- The value that the variables give to a key. -/
def variableValue? (env : Environment) : Key → Option Json
  | .maxDepth => integerVariable? env "WAIXG_MAX_DEPTH"
  | .verbose => booleanVariable? env "WAIXG_VERBOSE"
  | .trace => booleanVariable? env "WAIXG_TRACE"
  | .prompt | .continuationPrompt => none

/-- The keys that there are variables for. -/
def variableKeys : List Key := [.maxDepth, .verbose, .trace]

/-- The variables that are there have values, and the one for active calls is in range. -/
structure VariablesFit (env : Environment) : Prop where
  maxDepth : ∀ text, env "WAIXG_MAX_DEPTH" = some text →
    ∃ n, Numeral.parse? (Text.strip text) = some n ∧ 1 ≤ n ∧ n ≤ depthLimit
  verbose : ∀ text, env "WAIXG_VERBOSE" = some text → ∃ b, truth? text = some b
  trace : ∀ text, env "WAIXG_TRACE" = some text → ∃ b, truth? text = some b

theorem integerMember_eq_ok {key : Key} {name : String} {members : List (String × Json)}
    (h : integerMember env key name = .ok members) :
    members = ((integerVariable? env name).map (key.name, ·)).toList := by
  unfold integerMember at h
  unfold integerVariable?
  cases htext : env name with
  | none =>
    rw [htext] at h
    cases h
    rfl
  | some text =>
    simp only [htext] at h
    split at h
    · rename_i n hn
      cases h
      rw [Option.bind_some, hn]
      rfl
    · cases h

theorem booleanMember_eq_ok {key : Key} {name : String} {members : List (String × Json)}
    (h : booleanMember env key name = .ok members) :
    members = ((booleanVariable? env name).map (key.name, ·)).toList := by
  unfold booleanMember at h
  unfold booleanVariable?
  cases htext : env name with
  | none =>
    rw [htext] at h
    cases h
    rfl
  | some text =>
    simp only [htext] at h
    split at h
    · rename_i b hb
      cases h
      rw [Option.bind_some, hb]
      rfl
    · cases h

theorem environmentMembers_eq_ok {members : List (String × Json)}
    (h : environmentMembers env = .ok members) :
    members = entries variableKeys (variableValue? env) := by
  obtain ⟨depth, hdepth, h⟩ := exists_of_bind_eq_ok h
  obtain ⟨verbose, hverbose, h⟩ := exists_of_bind_eq_ok h
  obtain ⟨trace, htrace, h⟩ := exists_of_bind_eq_ok h
  cases h
  rw [integerMember_eq_ok hdepth, booleanMember_eq_ok hverbose, booleanMember_eq_ok htrace,
    variableKeys, entries_cons, entries_cons, entries_cons, entries, List.filterMap_nil,
    List.append_nil, List.append_assoc]
  rfl

theorem VariablesFit.environmentMembers (h : VariablesFit env) :
    Settings.environmentMembers env = .ok (entries variableKeys (variableValue? env)) := by
  have hdepth : ∃ members, integerMember env .maxDepth "WAIXG_MAX_DEPTH" = .ok members := by
    unfold integerMember
    split
    · exact ⟨_, rfl⟩
    · rename_i text htext
      obtain ⟨n, hn, -⟩ := h.maxDepth text htext
      rw [hn]
      exact ⟨_, rfl⟩
  have hboolean : ∀ key name, (∀ text, env name = some text → ∃ b, truth? text = some b) →
      ∃ members, booleanMember env key name = .ok members := by
    intro key name hname
    unfold booleanMember
    split
    · exact ⟨_, rfl⟩
    · rename_i text htext
      obtain ⟨b, hb⟩ := hname text htext
      rw [hb]
      exact ⟨_, rfl⟩
  obtain ⟨depth, hdepth⟩ := hdepth
  obtain ⟨verbose, hverbose⟩ := hboolean .verbose "WAIXG_VERBOSE" h.verbose
  obtain ⟨trace, htrace⟩ := hboolean .trace "WAIXG_TRACE" h.trace
  have hmembers : Settings.environmentMembers env = .ok (depth ++ verbose ++ trace) := by
    rw [Settings.environmentMembers, hdepth, hverbose, htrace]
    rfl
  rw [hmembers, environmentMembers_eq_ok hmembers]

theorem nodup_variableKeys : variableKeys.Nodup := by decide

theorem variableValue?_of_notMem {key : Key} (h : key ∉ variableKeys) :
    variableValue? env key = none := by
  cases key with
  | prompt | continuationPrompt => rfl
  | maxDepth | verbose | trace => exact absurd (by decide) h

theorem problems_variables (h : VariablesFit env) :
    problems (entries variableKeys (variableValue? env)) = [] := by
  refine problems_entries nodup_variableKeys (fun _ => variableValue?_of_notMem) ?_ ?_
  · intro key v hv
    cases key with
    | prompt | continuationPrompt => cases hv
    | maxDepth | verbose | trace =>
      obtain ⟨text, -, htext⟩ := Option.bind_eq_some_iff.1 hv
      obtain ⟨_, -, rfl⟩ := Option.map_eq_some_iff.1 htext
      rfl
  · intro n hn
    obtain ⟨text, htext, hn⟩ := Option.bind_eq_some_iff.1 hn
    obtain ⟨m, hm, heq⟩ := Option.map_eq_some_iff.1 hn
    obtain ⟨k, hk, hrange⟩ := h.maxDepth text htext
    rw [hm] at hk
    cases hk
    cases heq
    exact hrange

/-! ## Numbers in problems

A number is written out where it is reported, and one with too many digits cannot be. -/

/-- The number in a problem, if there is one, has no more digits than a numeral may have. -/
def Problem.Writable : Problem → Prop
  | notPositive n | tooLarge n => Numeral.Short n
  | _ => True

/-- All problems of an error are writable. -/
def ConfigError.Writable (e : ConfigError) : Prop := ∀ p ∈ e.problems, p.Writable

theorem writable_of_short {members : List (String × Json)} (h : ∀ m ∈ members, m.2.Short) :
    (ConfigError.invalid (problems members)).Writable := by
  intro p hp
  rcases List.mem_append.1 hp with hp | hp
  · -- a member as such is reported by its name and its type
    obtain ⟨m, -, hm⟩ := List.mem_filterMap.1 hp
    unfold memberProblem? at hm
    split at hm
    · cases hm
      trivial
    · obtain ⟨-, hm⟩ := Option.ite_none_left_eq_some.1 hm
      cases hm
      trivial
  · -- a number out of range is reported as it stands in its member
    unfold depthProblem? at hp
    split at hp
    · rename_i n hlookup
      have hn : Numeral.Short n := by
        cases h _ (mem_of_lookup hlookup) with
        | int hn => exact hn
      split_ifs at hp <;> cases Option.mem_toList.1 hp <;> exact hn
    · cases Option.mem_toList.1 hp

theorem short_variables : ∀ m ∈ entries variableKeys (variableValue? env), m.2.Short := by
  intro m hm
  obtain ⟨key, -, -, hv⟩ := mem_entries hm
  cases key with
  | prompt | continuationPrompt => cases hv
  | maxDepth =>
    obtain ⟨text, -, hv⟩ := Option.bind_eq_some_iff.1 hv
    obtain ⟨n, hn, hv⟩ := Option.map_eq_some_iff.1 hv
    rw [← hv]
    exact .int (Numeral.short_of_parse? hn)
  | verbose | trace =>
    obtain ⟨text, -, hv⟩ := Option.bind_eq_some_iff.1 hv
    obtain ⟨b, -, hv⟩ := Option.map_eq_some_iff.1 hv
    rw [← hv]
    exact .bool

theorem writable_badVariable {p : Problem} (h : p.Writable) :
    (ConfigError.badVariable p).Writable :=
  List.forall_mem_singleton.2 h

theorem writable_of_integerMember {key : Key} {name : String} {e : ConfigError}
    (h : integerMember env key name = .error e) : e.Writable := by
  unfold integerMember at h
  split at h
  · cases h
  · split at h
    · cases h
    · cases h
      exact writable_badVariable trivial

theorem writable_of_booleanMember {key : Key} {name : String} {e : ConfigError}
    (h : booleanMember env key name = .error e) : e.Writable := by
  unfold booleanMember at h
  split at h
  · cases h
  · split at h
    · cases h
    · cases h
      exact writable_badVariable trivial

theorem writable_of_environmentMembers {e : ConfigError}
    (h : environmentMembers env = .error e) : e.Writable := by
  unfold environmentMembers at h
  rcases cases_of_bind_eq_error h with hdepth | ⟨_, -, h⟩
  · exact writable_of_integerMember hdepth
  rcases cases_of_bind_eq_error h with hverbose | ⟨_, -, h⟩
  · exact writable_of_booleanMember hverbose
  rcases cases_of_bind_eq_error h with htrace | ⟨_, -, h⟩
  · exact writable_of_booleanMember htrace
  · cases h

/-! ## The file -/

/-- Why a file cannot be read as the text of a value, and the error that this leads to. -/
inductive Illegible (host : Host) (files : Files) (path : String) : LoadError → Prop
  | nulInPath : path.contains '\x00' = true → Illegible host files path .nulInPath
  | encoding {bytes : List UInt8} {fault : Text.Utf8Fault} : path.contains '\x00' = false →
      files path = .ok bytes → (∀ cs, bytes ≠ Text.encode cs) →
      Illegible host files path (.encoding fault)
  | hugeInteger {cs digits : List Char} : path.contains '\x00' = false →
      files path = .ok (Text.encode cs) → Json.LongRun cs digits →
      Illegible host files path (.hugeInteger digits.length)
  | tooNested {cs : List Char} {room : Nat} {inside : Json.Container} :
      path.contains '\x00' = false → files path = .ok (Text.encode cs) →
      host.containers = some room → room < cs.countP Json.isOpening →
      Illegible host files path (.tooNested inside)

theorem longRun_of_unifyNewlines {cs digits : List Char}
    (h : Json.LongRun (Text.unifyNewlines cs) digits) : Json.LongRun cs digits := by
  have hline : '\n' ∉ digits := fun hmem => absurd (h.digit '\n' hmem) (by decide)
  exact ⟨Text.infix_of_unifyNewlines hline h.stand, h.digit, h.long⟩

theorem exists_of_ofJson {v : Json} {s : Settings} (h : base.ofJson v = .ok s) :
    ∃ members, v = .object members ∧ base.override members = .ok s := by
  cases v with
  | object members =>
    refine ⟨members, rfl, ?_⟩
    rw [ofJson] at h
    cases hover : base.override members with
    | error problems =>
      rw [hover] at h
      cases h
    | ok s' =>
      rw [hover] at h
      exact congrArg Except.ok (Except.ok.inj h)
  | _ => cases h

theorem eq_problems_of_override {members : List (String × Json)} {ps : List Problem}
    (h : base.override members = .error ps) : ps = problems members := by
  unfold override at h
  split_ifs at h
  exact (Except.error.inj h).symm

theorem ofJson_cases (hbase : base.Derived) {v : Json} (hv : v.WellRead) :
    (∃ s, base.ofJson v = .ok s ∧ s.Derived) ∨
      ∃ e, base.ofJson v = .error e ∧ e.Writable := by
  obtain ⟨hdistinct, hshort⟩ := hv
  cases hshort with
  | @object members hshort =>
    cases h : base.override members with
    | error ps =>
      have hps := eq_problems_of_override h
      refine .inr ⟨.invalid ps, ?_, hps ▸ writable_of_short hshort⟩
      rw [ofJson, h]
      rfl
    | ok s =>
      refine .inl ⟨s, ?_, .override hbase hdistinct h⟩
      rw [ofJson, h]
      rfl
  | _ => exact .inr ⟨.notObject, rfl, List.forall_mem_nil _⟩

/-- What a file is read as: a text, unless it cannot be read at all or not as text. -/
theorem readText_cases (files : Files) (path : String) :
    (∃ cs, files.readText path = .ok (String.ofList (Text.unifyNewlines cs)) ∧
      path.contains '\x00' = false ∧ files path = .ok (Text.encode cs)) ∨
    (∃ e, files.readText path = .error (.file path e)) ∨
    (files.readText path = .error .nulInPath ∧ path.contains '\x00' = true) ∨
    ∃ fault bytes, files.readText path = .error (.encoding fault) ∧
      path.contains '\x00' = false ∧ files path = .ok bytes ∧ ∀ cs, bytes ≠ Text.encode cs := by
  unfold Files.readText
  cases hnul : path.contains '\x00' with
  | true => exact .inr (.inr (.inl ⟨rfl, rfl⟩))
  | false =>
    rw [if_neg Bool.false_ne_true]
    cases hbytes : files path with
    | error e => exact .inr (.inl ⟨e, rfl⟩)
    | ok bytes =>
      cases htext : Text.textOfBytes bytes with
      | error fault =>
        refine .inr (.inr (.inr ⟨fault, bytes, ?_, rfl, rfl, fun cs hcs => ?_⟩))
        · show (Text.textOfBytes bytes).mapError _ = _
          rw [htext]
          rfl
        · have hok := Text.textOfBytes_eq_ok_iff.2 ⟨cs, hcs, rfl⟩
          rw [htext] at hok
          cases hok
      | ok text =>
        obtain ⟨cs, rfl, rfl⟩ := Text.textOfBytes_eq_ok_iff.1 htext
        refine .inl ⟨cs, ?_, rfl, rfl⟩
        show (Text.textOfBytes _).mapError _ = _
        rw [htext]
        rfl

theorem readText_of_encode {cs : List Char} (hnul : path.contains '\x00' = false)
    (hbytes : files path = .ok (Text.encode cs)) :
    files.readText path = .ok (String.ofList (Text.unifyNewlines cs)) := by
  rw [Files.readText, hnul, if_neg Bool.false_ne_true, hbytes]
  dsimp only
  rw [Text.textOfBytes_eq_ok_iff.2 ⟨cs, rfl, rfl⟩]
  rfl

/-- The error of a load whose file cannot be read as text. -/
def LoadError.ofText : TextError → LoadError
  | .file path e => .config (.unreadable path e)
  | .nulInPath => .nulInPath
  | .encoding fault => .encoding fault

/-- The error of a load whose file has a text that is no value. -/
def LoadError.ofRead (path : String) : Json.ReadError → LoadError
  | .malformed what line column offset => .config (.malformed path what line column offset)
  | .hugeInteger digits => .hugeInteger digits
  | .tooNested inside => .tooNested inside

theorem ofFile_of_textError {e : TextError} (h : files.readText path = .error e) :
    ofFile host base files path = .error (.ofText e) := by
  unfold ofFile
  rw [h]
  cases e <;> rfl

theorem ofFile_of_readError {text : String} {e : Json.ReadError}
    (h : files.readText path = .ok text) (he : Json.parse host.containers text = .error e) :
    ofFile host base files path = .error (.ofRead path e) := by
  simp only [ofFile, h, he]
  cases e <;> rfl

theorem ofFile_of_value {text : String} {v : Json} (h : files.readText path = .ok text)
    (hv : Json.parse host.containers text = .ok v) :
    ofFile host base files path = (base.ofJson v).mapError .config := by
  simp only [ofFile, h, hv]

theorem ofFile_cases (host : Host) (hbase : base.Derived) (files : Files) (path : String) :
    (∃ s, ofFile host base files path = .ok s ∧ s.Derived) ∨
    (∃ e, ofFile host base files path = .error (.config e) ∧ e.Writable) ∨
    ∃ e, ofFile host base files path = .error e ∧ Illegible host files path e := by
  rcases readText_cases files path with
    ⟨cs, htext, hnul, hbytes⟩ | ⟨e, he⟩ | ⟨he, hnul⟩ | ⟨fault, bytes, he, hnul, hbytes, hcs⟩
  · rcases Json.parse_cases host.containers (String.ofList (Text.unifyNewlines cs)) with
      ⟨v, hv, hread⟩ | ⟨what, line, column, offset, he⟩ | ⟨digits, he, hrun⟩ |
      ⟨inside, room, he, hlimit, hroom⟩
    · rw [ofFile_of_value htext hv]
      rcases ofJson_cases hbase hread with ⟨s, hs, hderived⟩ | ⟨e, he, hwritable⟩
      · rw [hs]
        exact .inl ⟨s, rfl, hderived⟩
      · rw [he]
        exact .inr (.inl ⟨e, rfl, hwritable⟩)
    · exact .inr (.inl ⟨_, ofFile_of_readError htext he, List.forall_mem_nil _⟩)
    · -- digits do not end lines, so that the run stands in the file as well
      rw [String.toList_ofList] at hrun
      have hlong := longRun_of_unifyNewlines hrun
      exact .inr (.inr ⟨_, ofFile_of_readError htext he, .hugeInteger hnul hbytes hlong⟩)
    · rw [String.toList_ofList, Text.countP_unifyNewlines rfl rfl] at hroom
      exact .inr (.inr ⟨_, ofFile_of_readError htext he, .tooNested hnul hbytes hlimit hroom⟩)
  · exact .inr (.inl ⟨_, ofFile_of_textError he, List.forall_mem_nil _⟩)
  · exact .inr (.inr ⟨_, ofFile_of_textError he, .nulInPath hnul⟩)
  · exact .inr (.inr ⟨_, ofFile_of_textError he, .encoding hnul hbytes hcs⟩)

/-! ## All layers -/

/-- The settings of the file, or the defaults if there is none. -/
def fileSettings (host : Host) (asked : Option String) (env : Environment) (files : Files) :
    Except LoadError Settings :=
  match filePath? asked env with
  | some path => ofFile host {} files path
  | none => .ok {}

/-- Settings with the variables over them. -/
def withVariables (base : Settings) (env : Environment) : Except LoadError Settings := do
  let members ← (environmentMembers env).mapError .config
  ((base.override members).mapError .invalid).mapError .config

theorem load_eq (host : Host) (asked : Option String) (env : Environment) (files : Files) :
    load host asked env files = fileSettings host asked env files >>= (withVariables · env) := by
  unfold load fileSettings
  cases filePath? asked env <;> rfl

theorem load_of_textError {e : TextError} (hpath : filePath? asked env = some path)
    (h : files.readText path = .error e) : load host asked env files = .error (.ofText e) := by
  rw [load_eq, fileSettings, hpath]
  dsimp only
  rw [ofFile_of_textError h]
  rfl

/-- A file of opening brackets, one more than the host has room for. -/
theorem load_of_brackets {room : Nat} (hpath : filePath? asked env = some path)
    (hnul : path.contains '\x00' = false) (hlimit : host.containers = some room)
    (hbytes : files path = .ok (Text.encode (List.replicate (room + 1) '['))) :
    load host asked env files = .error (.tooNested .array) := by
  have hreturn : '\r' ∉ List.replicate (room + 1) '[' := by simp [List.mem_replicate]
  have htext := readText_of_encode hnul hbytes
  rw [Text.unifyNewlines_of_notMem hreturn] at htext
  have hparse := Json.parse_brackets room
  rw [← hlimit] at hparse
  rw [load_eq, fileSettings, hpath]
  dsimp only
  rw [ofFile_of_readError htext hparse]
  rfl

theorem withVariables_of_members {members : List (String × Json)}
    (h : environmentMembers env = .ok members) :
    withVariables base env = ((base.override members).mapError .invalid).mapError .config := by
  rw [withVariables, h]
  rfl

/-- Variables are refused like an object, and do not get the settings out of range. -/
theorem withVariables_cases (hbase : base.Derived) (env : Environment) :
    (∃ s, withVariables base env = .ok s ∧ s.Derived) ∨
      ∃ e, withVariables base env = .error (.config e) ∧ e.Writable := by
  cases hmembers : environmentMembers env with
  | error e =>
    refine .inr ⟨e, ?_, writable_of_environmentMembers hmembers⟩
    rw [withVariables, hmembers]
    rfl
  | ok members =>
    rw [withVariables_of_members hmembers, environmentMembers_eq_ok hmembers]
    cases hs : base.override (entries variableKeys (variableValue? env)) with
    | error ps =>
      have hps := eq_problems_of_override hs
      exact .inr ⟨.invalid ps, rfl, hps ▸ writable_of_short short_variables⟩
    | ok s => exact .inl ⟨s, rfl, .override hbase (nodup_entries nodup_variableKeys) hs⟩

/-- **A load ends with settings, or refuses some for reasons that can be written, unless its file is
illegible.** -/
theorem load_cases (host : Host) (asked : Option String) (env : Environment) (files : Files) :
    (∃ s, load host asked env files = .ok s ∧ s.Derived) ∨
    (∃ e, load host asked env files = .error (.config e) ∧ e.Writable) ∨
    ∃ path e, filePath? asked env = some path ∧ load host asked env files = .error e ∧
      Illegible host files path e := by
  rw [load_eq, fileSettings]
  cases hpath : filePath? asked env with
  | none => exact (withVariables_cases .default env).imp_right .inl
  | some path =>
    dsimp only
    rcases ofFile_cases host .default files path with
      ⟨s, hs, hderived⟩ | ⟨e, he, hwritable⟩ | ⟨e, he, hwhy⟩
    · rw [hs]
      exact (withVariables_cases hderived env).imp_right .inl
    · rw [he]
      exact .inr (.inl ⟨e, rfl, hwritable⟩)
    · rw [he]
      exact .inr (.inr ⟨path, e, rfl, rfl, hwhy⟩)

theorem Illegible.ne_config {e : LoadError} (h : Illegible host files path e) (e' : ConfigError) :
    e ≠ .config e' := by
  cases h <;> exact fun heq => by cases heq

/-- A path is refused with an error of its own exactly if it has a NUL character. -/
theorem load_eq_nulInPath_iff : load host asked env files = .error .nulInPath ↔
    ∃ path, filePath? asked env = some path ∧ path.contains '\x00' = true := by
  constructor
  · intro h
    rcases load_cases host asked env files with
      ⟨s, hs, -⟩ | ⟨e, he, -⟩ | ⟨path, e, hpath, he, hwhy⟩
    · cases h.symm.trans hs
    · cases h.symm.trans he
    · cases h.symm.trans he
      cases hwhy with
      | nulInPath hnul => exact ⟨path, hpath, hnul⟩
  · rintro ⟨path, hpath, hnul⟩
    have hread : files.readText path = .error .nulInPath := by
      rw [Files.readText, if_pos hnul]
    exact load_of_textError hpath hread

/-- A file is refused as a text with an error of its own exactly if it is not UTF-8. -/
theorem load_eq_encoding_iff : (∃ fault, load host asked env files = .error (.encoding fault)) ↔
    ∃ path bytes, filePath? asked env = some path ∧ path.contains '\x00' = false ∧
      files path = .ok bytes ∧ ∀ cs, bytes ≠ Text.encode cs := by
  constructor
  · rintro ⟨fault, h⟩
    rcases load_cases host asked env files with
      ⟨s, hs, -⟩ | ⟨e, he, -⟩ | ⟨path, e, hpath, he, hwhy⟩
    · cases h.symm.trans hs
    · cases h.symm.trans he
    · cases h.symm.trans he
      cases hwhy with
      | encoding hnul hbytes hcs => exact ⟨path, _, hpath, hnul, hbytes, hcs⟩
  · rintro ⟨path, bytes, hpath, hnul, hbytes, hcs⟩
    rcases readText_cases files path with
      ⟨cs, -, -, hbytes'⟩ | ⟨e, he⟩ | ⟨-, hnul'⟩ | ⟨fault, -, he, -⟩
    · cases hbytes.symm.trans hbytes'
      exact absurd rfl (hcs cs)
    · rw [Files.readText, hnul, hbytes] at he
      cases htext : Text.textOfBytes bytes <;> simp [htext, Except.mapError] at he
    · cases hnul.symm.trans hnul'
    · exact ⟨fault, load_of_textError hpath he⟩

/-! ## The values of settings -/

/-- A file has the text of an object with the given members. -/
def Holds (host : Host) (files : Files) (path : String) (members : List (String × Json)) : Prop :=
  ∃ text, files.readText path = .ok text ∧ Json.parse host.containers text = .ok (.object members)

/-- The members of the file that settings come from: the one that is asked for, or else the one that
a variable names, or else none. An empty path asks for none and names none. -/
inductive FileMembers (host : Host) (asked : Option String) (env : Environment) (files : Files) :
    List (String × Json) → Prop
  | asked {path : String} {members : List (String × Json)} : asked = some path → path ≠ "" →
      Holds host files path members → FileMembers host asked env files members
  | named {path : String} {members : List (String × Json)} : asked = none ∨ asked = some "" →
      env "WAIXG_CONFIG" = some path → path ≠ "" → Holds host files path members →
      FileMembers host asked env files members
  | nowhere : asked = none ∨ asked = some "" →
      env "WAIXG_CONFIG" = none ∨ env "WAIXG_CONFIG" = some "" → FileMembers host asked env files []

theorem nonempty?_of_ne (h : path ≠ "") : nonempty? (some path) = some path := by
  unfold nonempty?
  split
  · rename_i heq
    exact absurd (Option.some.inj heq) h
  · rfl

theorem nonempty?_of_empty {text : Option String} (h : text = none ∨ text = some "") :
    nonempty? text = none := by
  rcases h with rfl | rfl <;> rfl

theorem Holds.distinct {members : List (String × Json)} (h : Holds host files path members) :
    (members.map Prod.fst).Nodup := by
  obtain ⟨text, -, hparse⟩ := h
  rcases Json.parse_cases host.containers text with
    ⟨v, hv, hread⟩ | ⟨_, _, _, _, he⟩ | ⟨_, he, -⟩ | ⟨_, _, he, -⟩
  · cases hparse.symm.trans hv
    exact hread.distinct
  · cases hparse.symm.trans he
  · cases hparse.symm.trans he
  · cases hparse.symm.trans he

theorem Holds.fileSettings {members : List (String × Json)} (h : Holds host files path members)
    (hpath : filePath? asked env = some path) (hbase : override {} members = .ok base) :
    Settings.fileSettings host asked env files = .ok base := by
  obtain ⟨text, htext, hparse⟩ := h
  rw [Settings.fileSettings, hpath]
  dsimp only
  rw [ofFile_of_value htext hparse, ofJson, hbase]
  rfl

theorem FileMembers.fileSettings {members : List (String × Json)}
    (h : FileMembers host asked env files members) (hbase : override {} members = .ok base) :
    Settings.fileSettings host asked env files = .ok base ∧ (members.map Prod.fst).Nodup := by
  cases h with
  | @asked path _ hasked hne hholds =>
    have hpath : filePath? asked env = some path := by
      rw [filePath?, hasked, nonempty?_of_ne hne]
      rfl
    exact ⟨hholds.fileSettings hpath hbase, hholds.distinct⟩
  | @named path _ hasked hnamed hne hholds =>
    have hpath : filePath? asked env = some path := by
      rw [filePath?, nonempty?_of_empty hasked, hnamed, nonempty?_of_ne hne]
      rfl
    exact ⟨hholds.fileSettings hpath hbase, hholds.distinct⟩
  | nowhere hasked hnamed =>
    have hpath : filePath? asked env = none := by
      rw [filePath?, nonempty?_of_empty hasked, nonempty?_of_empty hnamed]
      rfl
    cases hbase
    rw [Settings.fileSettings, hpath]
    exact ⟨rfl, List.nodup_nil⟩

/-- **Loaded settings have the value of a variable, or else that of the file, or else the
default.** -/
theorem load_layers {members : List (String × Json)}
    (hfile : FileMembers host asked env files members)
    (hbase : override {} members = .ok base) (henv : VariablesFit env) :
    ∃ s, load host asked env files = .ok s ∧ s.Derived ∧ ∀ key, s.value key =
      ((variableValue? env key).or (members.lookup key.name)).getD (value {} key) := by
  obtain ⟨hload, hkeys⟩ := hfile.fileSettings hbase
  have hover := override_of_problems (problems_variables henv) base
  have hkeys' : ((entries variableKeys (variableValue? env)).map Prod.fst).Nodup :=
    nodup_entries nodup_variableKeys
  refine ⟨_, ?_, .override (.override .default hkeys hbase) hkeys' hover, fun key => ?_⟩
  · rw [load_eq, hload]
    show withVariables base env = _
    rw [withVariables_of_members henv.environmentMembers, hover]
    rfl
  · rw [value_override hkeys' hover, value_override hkeys hbase,
      lookup_entries nodup_variableKeys variableValue?_of_notMem]
    cases variableValue? env key <;> rfl

end Scriptlet.Settings
