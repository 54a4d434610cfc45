import Scriptlet.Settings.Basic

/-!
# The number of active calls in settings

An object overrides the number of active calls only with one that an evaluator accepts. So do
objects that are laid over one another, from the defaults on.

* `Derived`: settings that come from the defaults by objects.
* `Derived.maxDepth_range`: the number of active calls lies between 1 and the limit.
* `Derived.checkDepth`: an evaluator accepts it.
-/

namespace Scriptlet.Settings

open Eval (depthLimit)

/-- Settings that come from the defaults by objects that override them, one after the other. The
keys of an object are distinct. -/
inductive Derived : Settings → Prop
  | default : Derived {}
  | override {s s' : Settings} {members : List (String × Json)} : Derived s →
      (members.map Prod.fst).Nodup → s.override members = .ok s' → Derived s'

variable {s s' : Settings} {members : List (String × Json)}

theorem eq_name_of_ofName? {text : String} {key : Key} (h : Key.ofName? text = some key) :
    text = key.name := by
  unfold Key.ofName? at h
  split at h
  all_goals cases h
  all_goals rfl

/-- Only a number under its own key sets the number of active calls. -/
theorem maxDepth_setMember (s : Settings) (member : String × Json) :
    (s.setMember member).maxDepth = s.maxDepth ∨
      ∃ n, member = (Key.maxDepth.name, .int n) ∧ (s.setMember member).maxDepth = n := by
  obtain ⟨text, json⟩ := member
  cases hkey : Key.ofName? text with
  | none =>
    left
    simp [setMember, hkey]
  | some key =>
    have htext := eq_name_of_ofName? hkey
    cases key with
    | maxDepth =>
      cases json with
      | int n =>
        right
        exact ⟨n, by rw [htext], by simp [setMember, hkey, set?]⟩
      | _ =>
        left
        simp [setMember, hkey, set?]
    | _ =>
      left
      cases json <;> simp [setMember, hkey, set?]

theorem maxDepth_foldl (hs : 1 ≤ s.maxDepth ∧ s.maxDepth ≤ depthLimit)
    (h : ∀ n : Int, (Key.maxDepth.name, .int n) ∈ members → 1 ≤ n ∧ n ≤ depthLimit) :
    1 ≤ (members.foldl setMember s).maxDepth ∧
      (members.foldl setMember s).maxDepth ≤ depthLimit := by
  induction members generalizing s with
  | nil => exact hs
  | cons member members ih =>
    refine ih ?_ fun n hn => h n (List.mem_cons_of_mem _ hn)
    rcases maxDepth_setMember s member with hsame | ⟨n, rfl, hset⟩
    · rwa [hsame]
    · rw [hset]
      exact h n List.mem_cons_self

theorem mem_of_lookup {key : String} {v : Json} (h : members.lookup key = some v) :
    (key, v) ∈ members := by
  obtain ⟨before, after, rfl, -⟩ := List.lookup_eq_some_iff.1 h
  exact List.mem_append_right before List.mem_cons_self

theorem lookup_of_mem (hkeys : (members.map Prod.fst).Nodup) {key : String} {json : Json}
    (h : (key, json) ∈ members) : members.lookup key = some json := by
  obtain ⟨before, after, rfl⟩ := List.append_of_mem h
  refine List.lookup_eq_some_iff.2 ⟨before, after, rfl, fun p hp => ?_⟩
  rw [List.map_append, List.map_cons, List.nodup_append] at hkeys
  have hne := hkeys.2.2 p.1 (List.mem_map_of_mem hp) key List.mem_cons_self
  simpa using Ne.symm hne

/-- All numbers that are asked for are looked at, since only one is. -/
theorem range_of_depthProblem? (hkeys : (members.map Prod.fst).Nodup)
    (h : depthProblem? members = none) {n : Int} (hn : (Key.maxDepth.name, .int n) ∈ members) :
    1 ≤ n ∧ n ≤ depthLimit := by
  have hlookup := lookup_of_mem hkeys hn
  simp only [depthProblem?, hlookup] at h
  split at h
  · cases h
  split at h
  · cases h
  · omega

theorem override_eq_ok (h : s.override members = .ok s') :
    problems members = [] ∧ s' = members.foldl setMember s := by
  unfold override at h
  split at h
  · rename_i hnone
    cases h
    exact ⟨List.isEmpty_iff.1 hnone, rfl⟩
  · cases h

/-- **Settings that come from objects stay in range.** -/
theorem Derived.maxDepth_range (h : Derived s) : 1 ≤ s.maxDepth ∧ s.maxDepth ≤ depthLimit := by
  induction h with
  | default => decide
  | override _ hkeys hoverride ih =>
    obtain ⟨hproblems, rfl⟩ := override_eq_ok hoverride
    have hdepth := (List.append_eq_nil_iff.1 hproblems).2
    refine maxDepth_foldl ih fun n hn => range_of_depthProblem? hkeys ?_ hn
    simpa using hdepth

/-- An evaluator accepts the number of active calls. -/
theorem Derived.checkDepth (h : Derived s) :
    Eval.checkDepth s.maxDepth = .ok s.maxDepth.toNat := by
  obtain ⟨hpos, hle⟩ := h.maxDepth_range
  unfold Eval.checkDepth
  rw [if_neg (by omega), if_neg (by omega)]

end Scriptlet.Settings
