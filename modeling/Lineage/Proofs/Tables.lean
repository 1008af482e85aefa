import Mathlib.Data.List.Induction
import Std.Data.ExtTreeMap

/-!
Tables that are filled entry by entry.

An entry replaces what stands under its name, so the last entry with a name is
the one that counts.  Where no two entries share a name, all of them do.
-/

namespace Lineage
namespace Tables

open Std (ExtTreeMap)

variable {α β : Type}

theorem foldl_insert_eq_insertMany (l : List (String × β)) (t : ExtTreeMap String β) :
    l.foldl (fun t e => t.insert e.1 e.2) t = t.insertMany l := by
  induction l generalizing t with
  | nil => rw [ExtTreeMap.insertMany_nil, List.foldl_nil]
  | cons e l ih => rw [List.foldl_cons, ih, ExtTreeMap.insertMany_cons]

theorem getElem?_insertMany_toList (t u : ExtTreeMap String β) (name : String) :
    (u.insertMany t.toList)[name]? = t[name]?.or u[name]? := by
  cases ht : t[name]? with
  | some b =>
    have hmem := ExtTreeMap.mem_toList_iff_getElem?_eq_some.mpr ht
    rw [ExtTreeMap.getElem?_insertMany_list_of_mem Std.ReflCmp.compare_self
      ExtTreeMap.distinct_keys_toList hmem, Option.some_or]
  | none =>
    rw [ExtTreeMap.getElem?_insertMany_list_of_contains_eq_false, Option.none_or]
    rw [ExtTreeMap.map_fst_toList_eq_keys, ExtTreeMap.contains_keys,
      ExtTreeMap.contains_eq_isSome_getElem?, ht]
    rfl

theorem foldl_insert_toList (t : ExtTreeMap String β) :
    t.toList.foldl (fun t e => t.insert e.1 e.2) ∅ = t := by
  refine ExtTreeMap.ext_getElem? fun name => ?_
  rw [foldl_insert_eq_insertMany, getElem?_insertMany_toList, ExtTreeMap.getElem?_empty,
    Option.or_none]

section Keys

variable {κ ν : Type} [Ord κ] [Std.TransOrd κ] [Std.LawfulEqOrd κ] [BEq κ] [LawfulBEq κ]
  [Ord ν] [Std.TransOrd ν] [Std.LawfulEqOrd ν]

theorem getElem?_foldl_insert (name : α → κ) (value : α → β) (l : List α) (k : κ) :
    (l.foldl (fun t a => t.insert (name a) (value a)) (∅ : ExtTreeMap κ β))[k]? =
      (l.filter fun a => name a == k).getLast?.map value := by
  induction l using List.reverseRecOn with
  | nil => exact ExtTreeMap.getElem?_empty
  | append_singleton l a ih =>
    rw [List.foldl_append, List.foldl_cons, List.foldl_nil, ExtTreeMap.getElem?_insert, ih,
      List.filter_append]
    by_cases hname : name a = k
    · have hone : [a].filter (fun a => name a == k) = [a] := by simp [hname]
      rw [if_pos (Std.compare_eq_iff_eq.mpr hname), hone, List.getLast?_concat, Option.map_some]
    · have hnone : [a].filter (fun a => name a == k) = [] := by simp [hname]
      rw [if_neg (hname ∘ Std.compare_eq_iff_eq.mp), hnone, List.append_nil]

/-- When no two entries have one name, each of them counts. -/
theorem getElem?_foldl_insert_eq_some_iff {name : α → κ} (value : α → β) {l : List α}
    (hname : ∀ a ∈ l, ∀ b ∈ l, name a = name b → a = b) (k : κ) (v : β) :
    (l.foldl (fun t a => t.insert (name a) (value a)) (∅ : ExtTreeMap κ β))[k]? = some v ↔
      ∃ a ∈ l, name a = k ∧ value a = v := by
  rw [getElem?_foldl_insert, Option.map_eq_some_iff]
  constructor
  · rintro ⟨a, hlast, hv⟩
    obtain ⟨ha, hk⟩ := List.mem_filter.mp (List.mem_of_getLast? hlast)
    exact ⟨a, ha, beq_iff_eq.mp hk, hv⟩
  · rintro ⟨a, ha, hk, hv⟩
    have hmem : a ∈ l.filter fun a => name a == k :=
      List.mem_filter.mpr ⟨ha, beq_iff_eq.mpr hk⟩
    obtain ⟨b, hlast⟩ := Option.isSome_iff_exists.mp
      (List.getLast?_isSome.mpr (List.ne_nil_of_mem hmem))
    obtain ⟨hb, hkb⟩ := List.mem_filter.mp (List.mem_of_getLast? hlast)
    have hab : b = a := hname b hb a ha ((beq_iff_eq.mp hkb).trans hk.symm)
    exact ⟨b, hlast, hab ▸ hv⟩

/-- A table whose entries move to names of their own loses none of them. -/
theorem getElem?_foldl_eq_some_iff {name : ν → α → κ} (value : ν → α → β)
    {t : ExtTreeMap ν α}
    (hname : ∀ a b x y, t[a]? = some x → t[b]? = some y → name a x = name b y → a = b)
    (k : κ) (v : β) :
    (t.foldl (fun u a x => u.insert (name a x) (value a x)) (∅ : ExtTreeMap κ β))[k]? = some v ↔
      ∃ a x, t[a]? = some x ∧ name a x = k ∧ value a x = v := by
  have hlist : ∀ e ∈ t.toList, ∀ e' ∈ t.toList, name e.1 e.2 = name e'.1 e'.2 → e = e' := by
    rintro ⟨a, x⟩ ha ⟨b, y⟩ hb he
    rw [ExtTreeMap.mem_toList_iff_getElem?_eq_some] at ha hb
    cases hname a b x y ha hb he
    cases Option.some.inj (ha.symm.trans hb)
    rfl
  rw [ExtTreeMap.foldl_eq_foldl_toList,
    getElem?_foldl_insert_eq_some_iff (fun e => value e.1 e.2) hlist]
  simp only [Prod.exists, ExtTreeMap.mem_toList_iff_getElem?_eq_some]

end Keys

end Tables
end Lineage
