import Mathlib.Logic.Hydra

/-!
# Computations that suspend finitely often

A `Resumption` is finished, or suspended with a request and goes on with what it sees when it is
resumed. The tree is well founded, so every path of resumptions ends, with no bound common to all
paths; neither can finitely many of them be resumed forever, in any interleaving.
-/

/-- A computation at its next suspension point: `request` goes out, an `ω` comes in. -/
inductive Resumption (ι ω : Type) where
  | done
  | suspend (request : ι) (resume : ω → Resumption ι ω)

open scoped List

namespace Resumption
variable {ι ω : Type}

/-- What a suspended computation is after one resumption. -/
inductive Next : Resumption ι ω → Resumption ι ω → Prop
  | resume (request : ι) (k : ω → Resumption ι ω) (o : ω) : Next (k o) (.suspend request k)

theorem wellFounded_next : WellFounded (@Next ι ω) := by
  refine ⟨fun c => ?_⟩
  induction c with
  | done => exact ⟨_, fun _ h => nomatch h⟩
  | suspend request k ih =>
    refine ⟨_, fun c' h => ?_⟩
    rcases h with ⟨_, _, o⟩
    exact ih o

/-- One of the computations is resumed. -/
inductive Advance (cs : List (Resumption ι ω)) : List (Resumption ι ω) → Prop
  | resume {i : Nat} {request : ι} {k : ω → Resumption ι ω} (o : ω) (h : cs[i]? = some (.suspend request k)) :
    Advance cs (cs.set i (k o))

theorem Advance.length_eq {cs cs' : List (Resumption ι ω)} (h : Advance cs cs') : cs'.length = cs.length := by
  rcases h with ⟨o, -⟩
  exact List.length_set

theorem Advance.cutExpand {cs cs' : List (Resumption ι ω)} (h : Advance cs cs') :
    Relation.CutExpand Next (cs' : Multiset (Resumption ι ω)) cs := by
  obtain @⟨i, request, k, o, hi⟩ := h
  obtain ⟨hlt, hget⟩ := List.getElem?_eq_some_iff.1 hi
  -- the list around position `i`
  have hcs : cs = cs.take i ++ .suspend request k :: cs.drop (i + 1) := by
    rw [← hget, List.getElem_cons_drop, List.take_append_drop]
  have hset : cs.set i (k o) = cs.take i ++ k o :: cs.drop (i + 1) := List.set_eq_take_append_cons_drop.trans (if_pos hlt)
  refine ⟨{k o}, .suspend request k, ?_, ?_⟩
  · intro c hc
    rw [Multiset.mem_singleton.1 hc]
    exact .resume request k o
  · rw [hset]
    nth_rewrite 3 [hcs]
    simp only [← Multiset.coe_singleton, Multiset.coe_add, Multiset.coe_eq_coe, List.append_assoc, List.cons_append]
    refine List.Perm.append_left _ ?_
    calc k o :: (cs.drop (i + 1) ++ [.suspend request k])
      _ ~ k o :: .suspend request k :: cs.drop (i + 1) := (List.perm_append_singleton ..).cons _
      _ ~ .suspend request k :: k o :: cs.drop (i + 1) := .swap ..
      _ ~ .suspend request k :: (cs.drop (i + 1) ++ [k o]) := (List.perm_append_singleton ..).symm.cons _

/-- Finitely many computations are not resumed forever. -/
theorem wellFounded_advance : WellFounded fun cs' cs : List (Resumption ι ω) => Advance cs cs' :=
  Subrelation.wf Advance.cutExpand (InvImage.wf _ wellFounded_next.cutExpand)

end Resumption
