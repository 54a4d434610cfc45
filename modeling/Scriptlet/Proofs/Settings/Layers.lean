import Scriptlet.Proofs.Json.Members
import Scriptlet.Proofs.Settings.Range

/-!
# Settings in layers

An object that overrides settings gives the values of the keys that it has, and leaves those of the
others. So two objects one after the other are one object in which the second counts.

* `value`: the value of a key in settings.
* `value_override`: what an object does to it.
* `override_merge`: two objects are one.
* `entries`: the object of a layer that has at most one value for each key.
-/

namespace Scriptlet.Settings

open Eval (depthLimit)

variable {s s' : Settings} {members : List (String × Json)}

/-! ## Values -/

/-- The value of a key. -/
def value (s : Settings) : Key → Json
  | .maxDepth => .int s.maxDepth
  | .prompt => .string s.prompt
  | .continuationPrompt => .string s.continuationPrompt
  | .verbose => .bool s.verbose
  | .trace => .bool s.trace

/-- The values are all that there is to settings. -/
theorem ext_value (h : ∀ key, s.value key = s'.value key) : s = s' := by
  obtain ⟨d, p, c, v, t⟩ := s
  obtain ⟨d', p', c', v', t'⟩ := s'
  have hd := Json.int.inj (h .maxDepth)
  have hp := Json.string.inj (h .prompt)
  have hc := Json.string.inj (h .continuationPrompt)
  have hv := Json.bool.inj (h .verbose)
  have ht := Json.bool.inj (h .trace)
  simp only at hd hp hc hv ht
  rw [hd, hp, hc, hv, ht]

theorem name_inj {key key' : Key} : key.name = key'.name ↔ key = key' := by
  refine ⟨fun h => ?_, fun h => h ▸ rfl⟩
  cases key <;> cases key' <;> first | rfl | simp [Key.name] at h

theorem ofName?_name (key : Key) : Key.ofName? key.name = some key := by
  cases key <;> rfl

/-- Whether a value fits a key does not depend on the settings. -/
theorem isSome_set? (s : Settings) (key : Key) (v : Json) :
    (s.set? key v).isSome = (set? {} key v).isSome := by
  cases key <;> cases v <;> rfl

theorem value_set? {key : Key} {v : Json} (h : s.set? key v = some s') (key' : Key) :
    s'.value key' = if key' = key then v else s.value key' := by
  cases key <;> cases v <;> cases h <;> cases key' <;> rfl

/-- A member replaces the value of its key and no other one. -/
theorem value_setMember {member : String × Json} (h : memberProblem? member = none) (s : Settings)
    (key : Key) :
    (s.setMember member).value key = if key.name = member.1 then member.2 else s.value key := by
  obtain ⟨name, v⟩ := member
  unfold memberProblem? at h
  unfold setMember
  cases hname : Key.ofName? name with
  | none => simp [hname] at h
  | some own =>
    have hfits : (s.set? own v).isSome := by
      rw [isSome_set?]
      by_contra hnot
      simp [hname, hnot] at h
    obtain ⟨s', hs'⟩ := Option.isSome_iff_exists.1 hfits
    have hown : key.name = name ↔ key = own := by
      rw [eq_name_of_ofName? hname, name_inj]
    simp only [Option.bind_some, hs', Option.getD_some, value_set? hs', hown]

theorem value_foldl (hkeys : (members.map Prod.fst).Nodup)
    (h : ∀ m ∈ members, memberProblem? m = none) (s : Settings) (key : Key) :
    (members.foldl setMember s).value key =
      (members.lookup key.name).getD (s.value key) := by
  induction members generalizing s with
  | nil => rfl
  | cons member members ih =>
    rw [List.map_cons, List.nodup_cons] at hkeys
    have hmember := value_setMember (h member List.mem_cons_self) s key
    have hrest := ih hkeys.2 (fun m hm => h m (List.mem_cons_of_mem _ hm)) (s.setMember member)
    rw [List.foldl_cons, hrest, hmember, Json.lookup_cons]
    split
    · -- the key does not come again
      rename_i hname
      rw [Json.lookup_eq_none_of_notMem (hname ▸ hkeys.1)]
      rfl
    · rfl

/-! ## Objects -/

theorem problems_eq_nil_iff : problems members = [] ↔
    (∀ m ∈ members, memberProblem? m = none) ∧ depthProblem? members = none := by
  rw [problems, List.append_eq_nil_iff, List.filterMap_eq_nil_iff, Option.toList_eq_nil_iff]

theorem override_of_problems (h : problems members = []) (s : Settings) :
    s.override members = .ok (members.foldl setMember s) := by
  rw [override, h]
  rfl

/-- **An object gives the values of the keys that it has.** -/
theorem value_override (hkeys : (members.map Prod.fst).Nodup)
    (h : s.override members = .ok s') (key : Key) :
    s'.value key = (members.lookup key.name).getD (s.value key) := by
  obtain ⟨hproblems, rfl⟩ := override_eq_ok h
  exact value_foldl hkeys (problems_eq_nil_iff.1 hproblems).1 s key

theorem depthProblem?_eq_none_iff : depthProblem? members = none ↔
    ∀ n, members.lookup Key.maxDepth.name = some (.int n) → 1 ≤ n ∧ n ≤ depthLimit := by
  unfold depthProblem?
  constructor
  · intro h n hn
    rw [hn] at h
    dsimp only at h
    split at h
    · cases h
    · split at h
      · cases h
      · omega
  · intro h
    split
    · rename_i n hn
      have := h n hn
      rw [if_neg (by omega), if_neg (by omega)]
    · rfl

/-- Nothing is wrong with two objects in one if nothing is wrong with either. -/
theorem problems_merge {ms ns : List (String × Json)} (hkeys : (ns.map Prod.fst).Nodup)
    (hms : problems ms = []) (hns : problems ns = []) : problems (Json.merge ms ns) = [] := by
  obtain ⟨hms, hmsDepth⟩ := problems_eq_nil_iff.1 hms
  obtain ⟨hns, hnsDepth⟩ := problems_eq_nil_iff.1 hns
  refine problems_eq_nil_iff.2 ⟨fun m hm => ?_, depthProblem?_eq_none_iff.2 fun n hn => ?_⟩
  · exact (Json.mem_merge hm).elim (hms m) (hns m)
  · rw [Json.lookup_merge hkeys, Option.or_eq_some_iff] at hn
    rcases hn with hn | ⟨-, hn⟩
    · exact depthProblem?_eq_none_iff.1 hnsDepth n hn
    · exact depthProblem?_eq_none_iff.1 hmsDepth n hn

/-- **Two objects one after the other are one**, in which the second one counts. -/
theorem override_merge {ms ns : List (String × Json)} (hms : (ms.map Prod.fst).Nodup)
    (hns : (ns.map Prod.fst).Nodup) {s₁ s₂ : Settings} (h₁ : s.override ms = .ok s₁)
    (h₂ : s₁.override ns = .ok s₂) : s.override (Json.merge ms ns) = .ok s₂ := by
  have hproblems := problems_merge hns (override_eq_ok h₁).1 (override_eq_ok h₂).1
  have hmerge := override_of_problems hproblems s
  rw [hmerge]
  -- settings are equal if their values are, and those are looked up
  refine congrArg Except.ok (ext_value fun key => ?_)
  calc ((Json.merge ms ns).foldl setMember s).value key
      = ((ns.lookup key.name).or (ms.lookup key.name)).getD (s.value key) := by
        rw [value_override (Json.nodup_merge hms) hmerge, Json.lookup_merge hns]
    _ = (ns.lookup key.name).getD ((ms.lookup key.name).getD (s.value key)) := by
        cases ns.lookup key.name <;> rfl
    _ = s₂.value key := by rw [value_override hns h₂, value_override hms h₁]

/-! ## Layers of single values

The members that variables or options set: at most one for each of some keys. -/

/-- The members for the keys that have a value in a layer. -/
def entries (keys : List Key) (layer : Key → Option Json) : List (String × Json) :=
  keys.filterMap fun key => (layer key).map (key.name, ·)

section Entries

variable {keys : List Key} {layer : Key → Option Json}

theorem mem_entries {m : String × Json} (h : m ∈ entries keys layer) :
    ∃ key ∈ keys, m.1 = key.name ∧ layer key = some m.2 := by
  obtain ⟨key, hkey, hm⟩ := List.mem_filterMap.1 h
  obtain ⟨v, hv, rfl⟩ := Option.map_eq_some_iff.1 hm
  exact ⟨key, hkey, rfl, hv⟩

theorem entries_cons (key : Key) : entries (key :: keys) layer =
    ((layer key).map (key.name, ·)).toList ++ entries keys layer := by
  rw [entries, List.filterMap_cons]
  cases layer key <;> rfl

theorem notMem_entries {key : Key} (h : key ∉ keys) :
    key.name ∉ (entries keys layer).map Prod.fst := by
  intro hmem
  obtain ⟨m, hm, hname⟩ := List.mem_map.1 hmem
  obtain ⟨key', hkey', hname', -⟩ := mem_entries hm
  exact h (name_inj.1 (hname'.symm.trans hname) ▸ hkey')

theorem nodup_entries (h : keys.Nodup) : ((entries keys layer).map Prod.fst).Nodup := by
  induction keys with
  | nil => exact List.nodup_nil
  | cons key keys ih =>
    rw [List.nodup_cons] at h
    rw [entries_cons]
    cases layer key with
    | none => exact ih h.2
    | some v => exact List.nodup_cons.2 ⟨notMem_entries h.1, ih h.2⟩

theorem lookup_entries (h : keys.Nodup) {key : Key} (hkey : key ∉ keys → layer key = none) :
    (entries keys layer).lookup key.name = layer key := by
  induction keys with
  | nil => exact (hkey List.not_mem_nil).symm
  | cons first keys ih =>
    rw [List.nodup_cons] at h
    rw [entries_cons]
    by_cases heq : key = first
    · subst heq
      cases layer key with
      | none => exact Json.lookup_eq_none_of_notMem (notMem_entries h.1)
      | some v => exact (Json.lookup_cons _ v _ _).trans (if_pos rfl)
    · have hrest := ih h.2 fun hnot => hkey fun hmem => (List.mem_cons.1 hmem).elim heq hnot
      cases layer first with
      | none => exact hrest
      | some v =>
        have hname : key.name ≠ first.name := fun hname => heq (name_inj.1 hname)
        exact (Json.lookup_cons _ v _ _).trans ((if_neg hname).trans hrest)

/-- Nothing is wrong with a layer whose values fit their keys. -/
theorem problems_entries (h : keys.Nodup) (hkey : ∀ key ∉ keys, layer key = none)
    (hfits : ∀ key v, layer key = some v → (set? {} key v).isSome)
    (hdepth : ∀ n, layer .maxDepth = some (.int n) → 1 ≤ n ∧ n ≤ depthLimit) :
    problems (entries keys layer) = [] := by
  refine problems_eq_nil_iff.2 ⟨fun m hm => ?_, depthProblem?_eq_none_iff.2 fun n hn => ?_⟩
  · obtain ⟨key, -, hname, hv⟩ := mem_entries hm
    rw [memberProblem?, hname, ofName?_name]
    exact if_pos (hfits key m.2 hv)
  · rw [lookup_entries h (hkey .maxDepth)] at hn
    exact hdepth n hn

end Entries

end Scriptlet.Settings
