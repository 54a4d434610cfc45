import Scriptlet.Json.Basic
import Mathlib.Data.List.Nodup

/-!
# Members of objects

What is looked up in an object after members were added to it. A member that is added counts, and
the others are as before; names stay distinct.

* `merge`: an object with the members of another one added, so that those count.
-/

namespace Scriptlet.Json

variable {name : String} {v : Json} {ms ns : List (String × Json)}

theorem lookup_cons (name : String) (v : Json) (ms : List (String × Json)) (key : String) :
    ((name, v) :: ms).lookup key = if key = name then some v else ms.lookup key := by
  by_cases h : key = name
  · rw [List.lookup_cons, beq_iff_eq.2 h, if_pos h]
  · rw [List.lookup_cons, beq_eq_false_iff_ne.2 h, if_neg h]

theorem lookup_eq_none_of_notMem {key : String} (h : key ∉ ms.map Prod.fst) :
    ms.lookup key = none :=
  List.lookup_eq_none_iff.2 fun m hm =>
    bne_iff_ne.2 fun heq => h (List.mem_map.2 ⟨m, hm, heq.symm⟩)

theorem lookup_insertMember (name : String) (v : Json) (ms : List (String × Json))
    (key : String) :
    (insertMember name v ms).lookup key = if key = name then some v else ms.lookup key := by
  induction ms with
  | nil => exact lookup_cons name v [] key
  | cons m ms ih =>
    obtain ⟨n, w⟩ := m
    rw [insertMember, lookup_cons]
    split
    · rename_i hn
      rw [lookup_cons, beq_iff_eq.1 hn]
      split <;> rfl
    · rename_i hn
      rw [lookup_cons, ih]
      by_cases hkey : key = n
      · have hne : key ≠ name := fun h => hn (beq_iff_eq.2 (hkey ▸ h))
        rw [if_pos hkey, if_neg hne, if_pos hkey]
      · rw [if_neg hkey, if_neg hkey]

theorem mem_insertMember {m : String × Json} (h : m ∈ insertMember name v ms) :
    m = (name, v) ∨ m ∈ ms := by
  induction ms with
  | nil => exact .inl (List.mem_singleton.1 h)
  | cons k ms ih =>
    obtain ⟨n, w⟩ := k
    rw [insertMember] at h
    split at h
    · rename_i hn
      rw [beq_iff_eq.1 hn] at h
      rcases List.mem_cons.1 h with h | h
      · exact .inl h
      · exact .inr (List.mem_cons_of_mem _ h)
    · rcases List.mem_cons.1 h with h | h
      · exact .inr (h ▸ List.mem_cons_self)
      · exact (ih h).imp id (List.mem_cons_of_mem _)

theorem nodup_insertMember (h : (ms.map Prod.fst).Nodup) :
    ((insertMember name v ms).map Prod.fst).Nodup := by
  induction ms with
  | nil => exact List.nodup_singleton name
  | cons k ms ih =>
    obtain ⟨n, w⟩ := k
    rw [List.map_cons, List.nodup_cons] at h
    rw [insertMember]
    split
    · rw [List.map_cons, List.nodup_cons]
      exact h
    · rename_i hn
      rw [List.map_cons, List.nodup_cons]
      refine ⟨fun hmem => ?_, ih h.2⟩
      obtain ⟨m, hm, hname⟩ := List.mem_map.1 hmem
      rcases mem_insertMember hm with rfl | hm
      · exact hn (beq_iff_eq.2 hname.symm)
      · exact h.1 (hname ▸ List.mem_map_of_mem hm)

/-! ## Merging -/

/-- The members `ms` with the members `ns` added from left to right. -/
def merge (ms ns : List (String × Json)) : List (String × Json) :=
  ns.foldl (fun ms m => insertMember m.1 m.2 ms) ms

theorem mem_merge {m : String × Json} (h : m ∈ merge ms ns) : m ∈ ms ∨ m ∈ ns := by
  induction ns generalizing ms with
  | nil => exact .inl h
  | cons k ns ih =>
    rcases ih h with hm | hm
    · rcases mem_insertMember hm with rfl | hm
      · exact .inr List.mem_cons_self
      · exact .inl hm
    · exact .inr (List.mem_cons_of_mem _ hm)

theorem nodup_merge (h : (ms.map Prod.fst).Nodup) : ((merge ms ns).map Prod.fst).Nodup := by
  induction ns generalizing ms with
  | nil => exact h
  | cons k ns ih => exact ih (nodup_insertMember h)

/-- The names of an object are distinct, whichever members it is made of. -/
theorem nodup_ofMembers (ms : List (String × Json)) : ((ofMembers ms).map Prod.fst).Nodup :=
  show ((merge [] ms).map Prod.fst).Nodup from nodup_merge List.nodup_nil

theorem mem_ofMembers {m : String × Json} (h : m ∈ ofMembers ms) : m ∈ ms :=
  (mem_merge (show m ∈ merge [] ms from h)).resolve_left List.not_mem_nil

/-- **The members that are added count.** -/
theorem lookup_merge (hns : (ns.map Prod.fst).Nodup) (key : String) :
    (merge ms ns).lookup key = (ns.lookup key).or (ms.lookup key) := by
  induction ns generalizing ms with
  | nil => rfl
  | cons n ns ih =>
    obtain ⟨name, v⟩ := n
    rw [List.map_cons, List.nodup_cons] at hns
    rw [merge, List.foldl_cons, ← merge, ih hns.2, lookup_insertMember, lookup_cons]
    split
    · -- the name does not come again, so its value stays
      rename_i hkey
      rw [lookup_eq_none_of_notMem (hkey ▸ hns.1)]
      rfl
    · rfl

end Scriptlet.Json
