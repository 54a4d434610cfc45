import Mathlib.Data.List.Forall2
import Scriptlet.Proofs.Settings.Layers
import Scriptlet.Settings.Load

/-!
# What is wrong with an object of settings

An object is refused exactly if something is wrong with one of its members: its key is no setting,
its value has not the type of the key, or it asks for a number of active calls out of range. All
that is wrong is reported, once for each key. An object that is not refused replaces the values of
its keys, in whatever order these come.

* `Misfit`, `OutOfRange`: what can be wrong with a member, with the problem that is reported.
* `Reports`: problems that report all that is wrong, in their order.
* `reports_problems`: so do the problems of an object.
* `ofJson_members`: the main statement.
-/

namespace Scriptlet.Settings

open List (Forall₂)

variable {s : Settings} {members : List (String × Json)} {m : String × Json} {p : Problem}

/-! ## Members -/

/-- Whether a value has the type of a key. A truth value is no integer. -/
def Key.fits : Key → Json → Bool
  | .maxDepth, .int _ => true
  | .prompt, .string _ => true
  | .continuationPrompt, .string _ => true
  | .verbose, .bool _ => true
  | .trace, .bool _ => true
  | _, _ => false

/-- A member of no known key, or with a value of another type than its key. -/
inductive Misfit : String × Json → Problem → Prop
  | unknown {name : String} {v : Json} : (∀ key : Key, name ≠ key.name) →
      Misfit (name, v) (.unknownKey name)
  | wrongType {key : Key} {v : Json} : key.fits v = false →
      Misfit (key.name, v) (.wrongType key v.typeName)

/-- An integer for the number of active calls that is not between 1 and 500. -/
inductive OutOfRange : String × Json → Problem → Prop
  | notPositive {n : Int} : n < 1 → OutOfRange ("max_depth", .int n) (.notPositive n)
  | tooLarge {n : Int} : 500 < n → OutOfRange ("max_depth", .int n) (.tooLarge n)

theorem isSome_set?_eq_fits (key : Key) (v : Json) : (set? {} key v).isSome = key.fits v := by
  cases key <;> cases v <;> rfl

theorem ofName?_eq_none_iff {name : String} :
    Key.ofName? name = none ↔ ∀ key : Key, name ≠ key.name := by
  constructor
  · rintro h key rfl
    rw [ofName?_name] at h
    cases h
  · intro h
    cases hname : Key.ofName? name with
    | none => rfl
    | some key => exact absurd (eq_name_of_ofName? hname) (h key)

theorem memberProblem?_eq_some_iff : memberProblem? m = some p ↔ Misfit m p := by
  obtain ⟨name, v⟩ := m
  unfold memberProblem?
  constructor
  · intro h
    cases hname : Key.ofName? name with
    | none =>
      simp only [hname, Option.some.injEq] at h
      subst h
      exact .unknown (ofName?_eq_none_iff.1 hname)
    | some key =>
      simp only [hname, isSome_set?_eq_fits] at h
      split at h
      · cases h
      · rename_i hfits
        cases h
        rw [eq_name_of_ofName? hname]
        exact .wrongType (Bool.eq_false_iff.2 hfits)
  · intro h
    cases h with
    | unknown hkeys => simp only [ofName?_eq_none_iff.2 hkeys]
    | @wrongType key v hfits => simp [ofName?_name, isSome_set?_eq_fits, hfits]

/-- The number of active calls is looked up once, since its key is there once at most. -/
theorem depthProblem?_eq_some_iff (hkeys : (members.map Prod.fst).Nodup) :
    depthProblem? members = some p ↔ ∃ m ∈ members, OutOfRange m p := by
  have hlimit : (Eval.depthLimit : Int) = 500 := rfl
  constructor
  · intro h
    unfold depthProblem? at h
    split at h
    · rename_i n hlookup
      refine ⟨_, mem_of_lookup hlookup, ?_⟩
      split_ifs at h with hpos hle
      · cases h
        exact .notPositive hpos
      · cases h
        exact .tooLarge (by omega)
    · cases h
  · rintro ⟨m, hm, hrange⟩
    cases hrange with
    | @notPositive n hn =>
      have hlookup : members.lookup Key.maxDepth.name = some (.int n) := lookup_of_mem hkeys hm
      simp only [depthProblem?, hlookup, if_pos hn]
    | @tooLarge n hn =>
      have hlookup : members.lookup Key.maxDepth.name = some (.int n) := lookup_of_mem hkeys hm
      simp only [depthProblem?, hlookup]
      rw [if_neg (by omega), if_pos (by omega)]

/-- An integer has the type of the number of active calls, whatever it is. -/
theorem Misfit.not_outOfRange {q : Problem} (h : Misfit m p) : ¬ OutOfRange m q := by
  intro hrange
  have hproblem := memberProblem?_eq_some_iff.2 h
  cases hrange <;> cases hproblem

/-- The wording of the problem starts with the key of the member. -/
def Names (m : String × Json) (p : Problem) : Prop := ∃ what, p.message = m.1 ++ ": " ++ what

theorem Misfit.names (h : Misfit m p) : Names m p := by
  cases h with
  | @unknown name v =>
    refine ⟨"unknown setting", ?_⟩
    rw [String.append_assoc]
    rfl
  | @wrongType key v =>
    refine ⟨"expected " ++ key.typeName ++ ", got " ++ v.typeName, ?_⟩
    have hmessage : (Problem.wrongType key v.typeName).message =
        key.name ++ (": " ++ "expected ") ++ key.typeName ++ ", got " ++ v.typeName := rfl
    rw [hmessage]
    simp only [String.append_assoc]

theorem OutOfRange.names (h : OutOfRange m p) : Names m p := by
  cases h with
  | @notPositive n =>
    refine ⟨"must be positive, got " ++ toString n, ?_⟩
    have hmessage : (Problem.notPositive n).message =
        "max_depth" ++ ": " ++ "must be positive, got " ++ toString n := rfl
    rw [hmessage, String.append_assoc]
  | @tooLarge n =>
    refine ⟨"must be at most " ++ toString Eval.depthLimit ++ ", got " ++ toString n, ?_⟩
    have hmessage : (Problem.tooLarge n).message = "max_depth" ++ ": " ++ "must be at most " ++
        toString Eval.depthLimit ++ ", got " ++ toString n := rfl
    rw [hmessage]
    simp only [String.append_assoc]

/-! ## Objects -/

/-- Something is wrong with a member. -/
def Offends (m : String × Json) : Prop := ∃ p, Misfit m p ∨ OutOfRange m p

/-- The problems report all that is wrong with the members, once for each key: first the members
`early`, which do not fit, and then `late`, which are out of range, both in the order of the
object. -/
structure Reports (members early late : List (String × Json)) (ps : List Problem) : Prop where
  early_sublist : early.Sublist members
  late_sublist : late.Sublist members
  once : ((early ++ late).map Prod.fst).Nodup
  all : ∀ m, m ∈ early ++ late ↔ m ∈ members ∧ Offends m
  entries : ∃ qs rs, ps = qs ++ rs ∧ Forall₂ Misfit early qs ∧ Forall₂ OutOfRange late rs
  names : Forall₂ Names (early ++ late) ps

theorem forall₂_filterMap (members : List (String × Json)) :
    Forall₂ Misfit (members.filter fun m => (memberProblem? m).isSome)
      (members.filterMap memberProblem?) := by
  induction members with
  | nil => exact .nil
  | cons m members ih =>
    cases hm : memberProblem? m with
    | none => simpa [hm] using ih
    | some p =>
      have hmisfit := memberProblem?_eq_some_iff.1 hm
      simpa [hm] using And.intro hmisfit ih

theorem OutOfRange.key (h : OutOfRange m p) : m.1 = "max_depth" := by
  cases h <;> rfl

/-- At most one member is out of range. -/
theorem exists_late (hkeys : (members.map Prod.fst).Nodup) :
    ∃ late, late.Sublist members ∧ Forall₂ OutOfRange late (depthProblem? members).toList ∧
      ∀ m, m ∈ late ↔ m ∈ members ∧ ∃ p, OutOfRange m p := by
  cases hdepth : depthProblem? members with
  | none =>
    refine ⟨[], List.nil_sublist _, .nil, fun m => ?_⟩
    simp only [List.not_mem_nil, false_iff, not_and]
    rintro hm ⟨p, hrange⟩
    rw [(depthProblem?_eq_some_iff hkeys).2 ⟨m, hm, hrange⟩] at hdepth
    cases hdepth
  | some p =>
    obtain ⟨m, hm, hrange⟩ := (depthProblem?_eq_some_iff hkeys).1 hdepth
    refine ⟨[m], List.singleton_sublist.2 hm, .cons hrange .nil, fun m' => ?_⟩
    rw [List.mem_singleton]
    constructor
    · rintro rfl
      exact ⟨hm, p, hrange⟩
    · rintro ⟨hm', p', hrange'⟩
      exact List.inj_on_of_nodup_map hkeys hm' hm (hrange'.key.trans hrange.key.symm)

/-- **All that is wrong with an object is reported**, and nothing else. -/
theorem reports_problems (hkeys : (members.map Prod.fst).Nodup) :
    ∃ early late, Reports members early late (problems members) := by
  obtain ⟨late, hlate, hrange, hmemLate⟩ := exists_late hkeys
  have hmisfit := forall₂_filterMap members
  have hmemEarly (m : String × Json) :
      m ∈ members.filter (fun m => (memberProblem? m).isSome) ↔ m ∈ members ∧ ∃ p, Misfit m p := by
    rw [List.mem_filter, Option.isSome_iff_exists]
    simp only [memberProblem?_eq_some_iff]
  refine ⟨members.filter fun m => (memberProblem? m).isSome, late, List.filter_sublist, hlate, ?_,
    fun m => ?_, ⟨_, _, rfl, hmisfit, hrange⟩, ?_⟩
  · -- a key on both sides would be that of one member, which cannot be wrong in both ways
    rw [List.map_append, List.nodup_append]
    refine ⟨hkeys.sublist (List.filter_sublist.map _), hkeys.sublist (hlate.map _), ?_⟩
    intro name hname name' hname' heq
    obtain ⟨m, hm, rfl⟩ := List.mem_map.1 hname
    obtain ⟨m', hm', rfl⟩ := List.mem_map.1 hname'
    obtain ⟨hm, p, hmisfit⟩ := (hmemEarly m).1 hm
    obtain ⟨hm', p', hrange⟩ := (hmemLate m').1 hm'
    rw [List.inj_on_of_nodup_map hkeys hm hm' heq] at hmisfit
    exact hmisfit.not_outOfRange hrange
  · rw [List.mem_append, hmemEarly, hmemLate, ← and_or_left, ← exists_or]
    rfl
  · exact List.rel_append (hmisfit.imp fun _ _ => Misfit.names)
      (hrange.imp fun _ _ => OutOfRange.names)

theorem problems_eq_nil_iff_offends (hkeys : (members.map Prod.fst).Nodup) :
    problems members = [] ↔ ∀ m ∈ members, ¬ Offends m := by
  obtain ⟨early, late, hreports⟩ := reports_problems hkeys
  have hlength := hreports.names.length_eq
  rw [← List.length_eq_zero_iff, ← hlength, List.length_eq_zero_iff,
    List.eq_nil_iff_forall_not_mem]
  simp only [hreports.all, not_and]

theorem ofJson_of_problems (h : problems members = []) :
    s.ofJson (.object members) = .ok (members.foldl setMember s) := by
  rw [ofJson, override_of_problems h]
  rfl

theorem ofJson_of_problems_ne (h : problems members ≠ []) :
    s.ofJson (.object members) = .error (.invalid (problems members)) := by
  have hoverride : s.override members = .error (problems members) :=
    if_neg (mt List.isEmpty_iff.1 h)
  rw [ofJson, hoverride]
  rfl

/-! ## The order of the members -/

theorem lookup_perm {members' : List (String × Json)} (hkeys : (members.map Prod.fst).Nodup)
    (h : members'.Perm members) (key : String) : members'.lookup key = members.lookup key := by
  have hkeys' : (members'.map Prod.fst).Nodup := (h.map Prod.fst).nodup_iff.2 hkeys
  by_cases hmem : key ∈ members.map Prod.fst
  · obtain ⟨⟨name, v⟩, hv, rfl⟩ := List.mem_map.1 hmem
    rw [lookup_of_mem hkeys hv, lookup_of_mem hkeys' (h.mem_iff.2 hv)]
  · have hmem' : key ∉ members'.map Prod.fst := mt (h.map Prod.fst).mem_iff.1 hmem
    rw [Json.lookup_eq_none_of_notMem hmem, Json.lookup_eq_none_of_notMem hmem']

/-- Members that nothing is wrong with give the same settings in every order. -/
theorem ofJson_perm {members' : List (String × Json)} (hkeys : (members.map Prod.fst).Nodup)
    (h : members'.Perm members) (hproblems : problems members = []) :
    s.ofJson (.object members') = s.ofJson (.object members) := by
  have hkeys' : (members'.map Prod.fst).Nodup := (h.map Prod.fst).nodup_iff.2 hkeys
  have hproblems' : problems members' = [] := by
    rw [problems_eq_nil_iff_offends hkeys']
    intro m hm
    exact (problems_eq_nil_iff_offends hkeys).1 hproblems m (h.mem_iff.1 hm)
  rw [ofJson_of_problems hproblems, ofJson_of_problems hproblems']
  refine congrArg Except.ok (ext_value fun key => ?_)
  rw [value_override hkeys' (override_of_problems hproblems' s),
    value_override hkeys (override_of_problems hproblems s), lookup_perm hkeys h]

/-- **An object of settings is refused exactly if a member offends, with one problem for each that
does; otherwise it replaces the values of its keys, in whatever order they come.** -/
theorem ofJson_members (base : Settings) (members : List (String × Json))
    (hkeys : (members.map Prod.fst).Nodup) :
    ((∃ e, base.ofJson (.object members) = .error e) ↔ ∃ m ∈ members, Offends m) ∧
      (∀ e, base.ofJson (.object members) = .error e →
        ∃ ps early late, e = .invalid ps ∧ Reports members early late ps) ∧
      ∀ s, base.ofJson (.object members) = .ok s →
        (∀ key : Key, s.value key = (members.lookup key.name).getD (base.value key)) ∧
          ∀ members', members'.Perm members → base.ofJson (.object members') = .ok s := by
  by_cases hproblems : problems members = []
  · have hok := ofJson_of_problems (s := base) hproblems
    have hnone := (problems_eq_nil_iff_offends hkeys).1 hproblems
    refine ⟨⟨?_, ?_⟩, ?_, ?_⟩
    · rintro ⟨e, he⟩
      rw [hok] at he
      cases he
    · rintro ⟨m, hm, hoffends⟩
      exact absurd hoffends (hnone m hm)
    · intro e he
      rw [hok] at he
      cases he
    · intro s hs
      rw [hok] at hs
      cases hs
      refine ⟨value_override hkeys (override_of_problems hproblems base), fun members' hperm => ?_⟩
      rw [ofJson_perm hkeys hperm hproblems, hok]
  · have herror := ofJson_of_problems_ne (s := base) hproblems
    have hsome : ∃ m ∈ members, Offends m := by
      have hnot := mt (problems_eq_nil_iff_offends hkeys).2 hproblems
      push Not at hnot
      exact hnot
    refine ⟨⟨fun _ => hsome, fun _ => ⟨_, herror⟩⟩, ?_, ?_⟩
    · intro e he
      rw [herror] at he
      cases he
      obtain ⟨early, late, hreports⟩ := reports_problems hkeys
      exact ⟨_, early, late, rfl, hreports⟩
    · intro s hs
      rw [herror] at hs
      cases hs

/-- A number of active calls that is too large, a key of no setting, an integer for a truth value,
and a member that nothing is wrong with. -/
def faultyMembers : List (String × Json) :=
  [("max_depth", .int 501), ("colour", .null), ("verbose", .int 1), ("prompt", .string "> ")]

/-- A truth value and the greatest number of active calls. -/
def soundMembers : List (String × Json) := [("verbose", .bool true), ("max_depth", .int 500)]

theorem ofJson_faultyMembers_soundMembers :
    ((∃ m ∈ faultyMembers, Offends m) ∧
        ∃ early late, Reports faultyMembers early late
          [.unknownKey "colour", .wrongType .verbose "int", .tooLarge 501]) ∧
      ofJson {} (.object soundMembers.reverse) = .ok { maxDepth := 500, verbose := true } := by
  have hfaulty := ofJson_members {} faultyMembers (by decide)
  have herror : ofJson {} (.object faultyMembers) =
      .error (.invalid [.unknownKey "colour", .wrongType .verbose "int", .tooLarge 501]) := rfl
  have hsound := ofJson_members {} soundMembers (by decide)
  have hok : ofJson {} (.object soundMembers) = .ok { maxDepth := 500, verbose := true } := rfl
  refine ⟨⟨hfaulty.1.1 ⟨_, herror⟩, ?_⟩, (hsound.2.2 _ hok).2 _ (List.reverse_perm _)⟩
  obtain ⟨ps, early, late, hps, hreports⟩ := hfaulty.2.1 _ herror
  rw [← ConfigError.invalid.inj hps] at hreports
  exact ⟨early, late, hreports⟩

end Scriptlet.Settings
