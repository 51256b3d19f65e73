import Mathlib.Tactic.Linarith
import Mathlib.Data.List.Dedup

/-!
# Finite maps with lawful keys

Lookups after an update of an `ExtTreeMap`, with the key test as an equality, and its key list as the
sorted list of any enumeration of its keys.
-/

namespace TreeMapLib
open Std (ExtTreeMap TransCmp LawfulEqCmp)

variable {κ ν : Type} {cmp : κ → κ → Ordering} [TransCmp cmp]

theorem contains_iff (t : ExtTreeMap κ ν cmp) (a : κ) : t.contains a = true ↔ ∃ v, t[a]? = some v := by
  rw [ExtTreeMap.contains_eq_isSome_getElem?, Option.isSome_iff_exists]

theorem contains_eq_false_iff (t : ExtTreeMap κ ν cmp) (a : κ) : t.contains a = false ↔ t[a]? = none := by
  rw [ExtTreeMap.contains_eq_isSome_getElem?, Option.isSome_eq_false_iff, Option.isNone_iff_eq_none]

variable [LawfulEqCmp cmp] [DecidableEq κ]

theorem getElem?_insert (t : ExtTreeMap κ ν cmp) (k a : κ) (v : ν) :
    (t.insert k v)[a]? = if a = k then some v else t[a]? := by
  rw [ExtTreeMap.getElem?_insert]
  simp only [Std.LawfulEqCmp.compare_eq_iff_eq, @eq_comm _ k a]

theorem getElem?_erase (t : ExtTreeMap κ ν cmp) (k a : κ) :
    (t.erase k)[a]? = if a = k then none else t[a]? := by
  rw [ExtTreeMap.getElem?_erase]
  simp only [Std.LawfulEqCmp.compare_eq_iff_eq, @eq_comm _ k a]

theorem contains_insert (t : ExtTreeMap κ ν cmp) (k a : κ) (v : ν) :
    (t.insert k v).contains a = (t.contains a || a == k) := by
  rw [Bool.eq_iff_iff, contains_iff, Bool.or_eq_true, contains_iff, getElem?_insert]
  by_cases e : a = k <;> simp [e]

theorem contains_erase (t : ExtTreeMap κ ν cmp) (k a : κ) : (t.erase k).contains a = (t.contains a && a != k) := by
  rw [Bool.eq_iff_iff, contains_iff, Bool.and_eq_true, contains_iff, getElem?_erase]
  by_cases e : a = k <;> simp [e]

/-- The keys are the sorted list of any list with the same members. -/
theorem keys_eq_mergeSort (t : ExtTreeMap κ ν cmp) (ks : List κ) (h : ∀ k, k ∈ ks ↔ k ∈ t) :
    t.keys = ks.dedup.mergeSort (fun a b => (cmp a b).isLE) := by
  refine @List.Perm.eq_of_pairwise _ (fun a b => (cmp a b).isLE = true) _ _ ?_ ?_ ?_ ?_
  · exact fun a b _ _ hab hba => LawfulEqCmp.eq_of_compare (Std.OrientedCmp.isLE_antisymm hab hba)
  · exact ExtTreeMap.ordered_keys.imp fun hab => by simp [hab]
  · refine List.pairwise_mergeSort (fun _ _ _ => Std.TransCmp.isLE_trans) (fun a b => ?_) _
    cases hab : cmp a b with
    | gt => simp [Std.OrientedCmp.lt_of_gt hab]
    | lt | eq => simp
  · refine (List.Perm.trans ?_ (List.mergeSort_perm _ _).symm)
    exact (List.perm_ext_iff_of_nodup ExtTreeMap.nodup_keys (List.nodup_dedup _)).2 fun k => by
      rw [ExtTreeMap.mem_keys, List.mem_dedup, h]

end TreeMapLib
