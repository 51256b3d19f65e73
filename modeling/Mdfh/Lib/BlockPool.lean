import Mathlib.Data.List.Perm.Lattice
import Mathlib.Data.Set.Card
import Mathlib.Data.Set.Image
import Mathlib.Data.UInt
import Mathlib.Logic.Function.Basic

/-!
# Containers over a family of block pools

A pool is a free list of blocks and a counter. Containers hold one block per element; an element is
named by a key, and a block keeps the pool it was taken from (`owner`) for as long as it is held. Which
pool an `alloc` or a `free` runs on is the caller's choice, so a block may end up in another pool than
its own: `frees` logs, for every `deallocate`, the pool it ran on and the pool the block came from.
`Home pool π h`: every element of `h` sits in a block of pool `pool key`, and with the held blocks put
back the pools are the `π` they started as.
-/

structure BlockPool (β : Type) where
  freeList : List β
  inUse : UInt64

namespace BlockPool
variable {β : Type}

/-- `none` stands for `std::bad_alloc`. -/
def allocate (p : BlockPool β) : Option (β × BlockPool β) :=
  match p.freeList with
  | [] => none
  | block :: rest => some (block, ⟨rest, p.inUse + 1⟩)

def deallocate (p : BlockPool β) (block : β) : BlockPool β := ⟨block :: p.freeList, p.inUse - 1⟩

theorem allocate_eq_some {p p' : BlockPool β} {block : β} (h : p.allocate = some (block, p')) :
    p.freeList = block :: p'.freeList ∧ p'.inUse = p.inUse + 1 := by
  unfold allocate at h
  split at h
  · cases h
  · next hf =>
    rw [Option.some.injEq, Prod.mk.injEq] at h
    obtain ⟨rfl, rfl⟩ := h
    exact ⟨hf, rfl⟩

/-- An element of a container with its block. -/
structure Held (κ ι β : Type) where
  key : κ
  block : β
  owner : ι
deriving DecidableEq

structure Heap (κ ι β : Type) where
  pools : ι → BlockPool β
  held : List (Held κ ι β) := []
  frees : List (ι × ι) := []

/-- What a container asks of its allocator. -/
inductive NodeOp (κ : Type) where
  | alloc (k : κ)
  | free (k : κ)
deriving DecidableEq

def NodeOp.map {κ κ' : Type} (f : κ → κ') : NodeOp κ → NodeOp κ'
  | .alloc k => .alloc (f k)
  | .free k => .free (f k)

namespace Heap
variable {κ ι : Type} [DecidableEq ι]

def alloc (h : Heap κ ι β) (i : ι) (k : κ) : Option (Heap κ ι β) :=
  (h.pools i).allocate.map fun r =>
    { h with pools := Function.update h.pools i r.2, held := ⟨k, r.1, i⟩ :: h.held }

/-- The held blocks that came from pool `i`. -/
def blocksOf (i : ι) (held : List (Held κ ι β)) : List β := (held.filter (·.owner = i)).map (·.block)

/-- The held blocks and the free ones of a pool are the blocks it had free in `π`. -/
def Balanced (π : ι → BlockPool β) (h : Heap κ ι β) : Prop :=
  ∀ i, ((h.pools i).freeList ++ blocksOf i h.held).Perm (π i).freeList ∧
    (h.pools i).inUse = (π i).inUse + UInt64.ofNat (blocksOf i h.held).length

structure Home (pool : κ → ι) (π : ι → BlockPool β) (h : Heap κ ι β) : Prop where
  balanced : h.Balanced π
  owned : ∀ node ∈ h.held, node.owner = pool node.key
  returned : ∀ f ∈ h.frees, f.1 = f.2

theorem blocksOf_cons (i : ι) (node : Held κ ι β) (held : List (Held κ ι β)) :
    blocksOf i (node :: held) = if i = node.owner then node.block :: blocksOf i held else blocksOf i held := by
  by_cases hi : i = node.owner
  · simp [blocksOf, hi]
  · simp [blocksOf, hi, Ne.symm hi]

theorem blocksOf_perm (i : ι) {held held' : List (Held κ ι β)} (h : held.Perm held') :
    (blocksOf i held).Perm (blocksOf i held') :=
  (h.filter _).map _

theorem alloc_eq_some {h h' : Heap κ ι β} {i : ι} {k : κ} (ha : h.alloc i k = some h') :
    ∃ block p, (h.pools i).allocate = some (block, p) ∧
      h' = { h with pools := Function.update h.pools i p, held := ⟨k, block, i⟩ :: h.held } := by
  unfold alloc at ha
  obtain ⟨⟨block, p⟩, hp, rfl⟩ := Option.map_eq_some_iff.1 ha
  exact ⟨block, p, hp, rfl⟩

theorem alloc_eq_none_iff {h : Heap κ ι β} {i : ι} {k : κ} : h.alloc i k = none ↔ (h.pools i).freeList = [] := by
  unfold alloc allocate
  cases (h.pools i).freeList <;> simp

section
variable {pool : κ → ι} {π : ι → BlockPool β} {h h' : Heap κ ι β}

theorem Balanced.alloc {i : ι} {k : κ} (hb : h.Balanced π) (ha : h.alloc i k = some h') : h'.Balanced π := by
  obtain ⟨block, p, hp, rfl⟩ := alloc_eq_some ha
  obtain ⟨hfree, huse⟩ := allocate_eq_some hp
  intro j
  obtain ⟨hperm, hcount⟩ := hb j
  simp only [blocksOf_cons]
  by_cases hj : j = i
  · subst hj
    rw [hfree] at hperm
    simp only [Function.update_self, if_true, List.length_cons, huse, hcount]
    refine ⟨List.perm_middle.trans hperm, ?_⟩
    rw [UInt64.ofNat_add]
    exact add_assoc _ _ _
  · simpa only [Function.update_of_ne hj, if_neg hj] using hb j

theorem Balanced.restored (hb : h.Balanced π) (hn : h.held = []) (i : ι) :
    (h.pools i).inUse = (π i).inUse ∧ (h.pools i).freeList.Perm (π i).freeList := by
  obtain ⟨hperm, hcount⟩ := hb i
  rw [hn] at hperm hcount
  exact ⟨by simpa [blocksOf] using hcount, by simpa [blocksOf] using hperm⟩

theorem Home.init (pool : κ → ι) (π : ι → BlockPool β) : Home pool π { pools := π : Heap κ ι β } := by
  refine ⟨?_, ?_, ?_⟩
  · intro i
    simp [blocksOf]
  · intro node hn
    cases hn
  · intro f hf
    cases hf

theorem Home.alloc {k : κ} (hh : Home pool π h) (ha : h.alloc (pool k) k = some h') : Home pool π h' := by
  refine ⟨hh.balanced.alloc ha, ?_, ?_⟩
  · obtain ⟨block, p, -, rfl⟩ := alloc_eq_some ha
    intro node hn
    rcases List.mem_cons.1 hn with rfl | hn
    · rfl
    · exact hh.owned node hn
  · obtain ⟨block, p, -, rfl⟩ := alloc_eq_some ha
    exact hh.returned

end

/-! ### Giving blocks back -/

variable [DecidableEq κ] [DecidableEq β]

def release (h : Heap κ ι β) (i : ι) (node : Held κ ι β) : Heap κ ι β where
  pools := Function.update h.pools i ((h.pools i).deallocate node.block)
  held := h.held.erase node
  frees := h.frees ++ [(i, node.owner)]

/-- Erases the element `k`; a container only does so while it holds it (`Legal`). -/
def free (h : Heap κ ι β) (i : ι) (k : κ) : Heap κ ι β :=
  match h.held.find? (·.key = k) with
  | none => h
  | some node => h.release i node

/-- The calls in order, each on the pool of its key, up to the first that finds its pool empty. -/
def perform (pool : κ → ι) (h : Heap κ ι β) : List (NodeOp κ) → Heap κ ι β × Bool
  | [] => (h, true)
  | .alloc k :: ops =>
    match h.alloc (pool k) k with
    | none => (h, false)
    | some h => h.perform pool ops
  | .free k :: ops => (h.free (pool k) k).perform pool ops

def releaseAll (pool : Held κ ι β → ι) (h : Heap κ ι β) (nodes : List (Held κ ι β)) : Heap κ ι β :=
  nodes.foldl (fun h node => h.release (pool node) node) h

variable {pool : κ → ι} {π : ι → BlockPool β} {h h' : Heap κ ι β}

theorem Balanced.release {node : Held κ ι β} (hb : h.Balanced π) (hn : node ∈ h.held) :
    (h.release node.owner node).Balanced π := by
  have hheld : h.held.Perm (node :: h.held.erase node) := List.perm_cons_erase hn
  intro j
  obtain ⟨hperm, hcount⟩ := hb j
  have hblocks := blocksOf_perm j hheld
  rw [hblocks.length_eq] at hcount
  replace hperm := (hblocks.append_left _).symm.trans hperm
  rw [blocksOf_cons] at hperm hcount
  unfold Heap.release
  by_cases hj : j = node.owner
  · subst hj
    simp only [if_true, List.length_cons] at hperm hcount
    simp only [Function.update_self, deallocate, hcount]
    refine ⟨List.perm_middle.symm.trans hperm, ?_⟩
    rw [UInt64.ofNat_add, ← add_assoc]
    exact add_sub_cancel_right _ _
  · rw [if_neg hj] at hperm hcount
    simpa only [Function.update_of_ne hj] using ⟨hperm, hcount⟩

theorem Home.release {node : Held κ ι β} (hh : Home pool π h) (hn : node ∈ h.held) :
    Home pool π (h.release node.owner node) := by
  refine ⟨hh.balanced.release hn, ?_, ?_⟩
  · intro node' hn'
    exact hh.owned node' (List.mem_of_mem_erase hn')
  · intro f hf
    rcases List.mem_append.1 hf with hf | hf
    · exact hh.returned f hf
    · rw [List.mem_singleton.1 hf]

theorem Home.free (hh : Home pool π h) (k : κ) : Home pool π (h.free (pool k) k) := by
  unfold Heap.free
  split
  · exact hh
  · next node hf =>
    have hn := List.mem_of_find?_eq_some hf
    have hk : node.key = k := by simpa using List.find?_some hf
    rw [← hk, ← hh.owned node hn]
    exact hh.release hn

/-- Kept by any calls made on the pools of their keys, also by those before one that fails. -/
theorem Home.perform (hh : Home pool π h) (ops : List (NodeOp κ)) : Home pool π (h.perform pool ops).1 := by
  induction ops generalizing h with
  | nil => exact hh
  | cons op ops ih =>
    cases op with
    | alloc k =>
      unfold Heap.perform
      split
      · exact hh
      · next ha => exact ih (hh.alloc ha)
    | free k => exact ih (hh.free k)

theorem held_releaseAll {dest : Held κ ι β → ι} {nodes rest : List (Held κ ι β)} (hp : h.held.Perm (nodes ++ rest)) :
    (h.releaseAll dest nodes).held.Perm rest := by
  induction nodes generalizing h with
  | nil => exact hp
  | cons node nodes ih =>
    refine ih ?_
    have := hp.erase node
    rwa [List.cons_append, List.erase_cons_head] at this

theorem frees_releaseAll (h : Heap κ ι β) (dest : Held κ ι β → ι) (nodes : List (Held κ ι β)) :
    (h.releaseAll dest nodes).frees = h.frees ++ nodes.map fun node => (dest node, node.owner) := by
  induction nodes generalizing h with
  | nil => simp [releaseAll]
  | cons node nodes ih =>
    unfold releaseAll at ih ⊢
    rw [List.foldl_cons, ih]
    simp [release]

theorem Home.releaseAll {dest : Held κ ι β → ι} {nodes rest : List (Held κ ι β)} (hh : Home pool π h)
    (hp : h.held.Perm (nodes ++ rest)) (hd : ∀ node ∈ nodes, dest node = node.owner) :
    Home pool π (h.releaseAll dest nodes) := by
  induction nodes generalizing h with
  | nil => exact hh
  | cons node nodes ih =>
    have hn : node ∈ h.held := hp.mem_iff.2 (by simp)
    have hstep := hh.release hn
    rw [← hd node (by simp)] at hstep
    refine ih hstep ?_ fun node' hn' => hd node' (by simp [hn'])
    have := hp.erase node
    rwa [List.cons_append, List.erase_cons_head] at this

/-! ### The elements a heap holds -/

/-- One block for every key of `K` and none besides. -/
structure Holds (h : Heap κ ι β) (K : Set κ) : Prop where
  nodup : (h.held.map (·.key)).Nodup
  mem_iff : ∀ k, k ∈ h.held.map (·.key) ↔ k ∈ K

theorem Holds.free {K : Set κ} {k : κ} (hh : h.Holds K) (hk : k ∈ K) (i : ι) : (h.free i k).Holds (K \ {k}) := by
  obtain ⟨node₀, hn₀, hk₀⟩ := List.mem_map.1 ((hh.mem_iff k).2 hk)
  unfold Heap.free
  split
  · next hf => simpa [hk₀] using List.find?_eq_none.1 hf node₀ hn₀
  · next node hf =>
    have hkey : node.key = k := by simpa using List.find?_some hf
    have hperm := (List.perm_cons_erase (List.mem_of_find?_eq_some hf)).map (·.key)
    rw [List.map_cons, hkey] at hperm
    obtain ⟨hnot, hnodup⟩ := List.nodup_cons.1 (hperm.nodup_iff.1 hh.nodup)
    refine ⟨hnodup, ?_⟩
    intro k'
    rw [Set.mem_sdiff, ← hh.mem_iff k', hperm.mem_iff, List.mem_cons, Set.mem_singleton_iff]
    constructor
    · intro h'
      exact ⟨.inr h', fun e => hnot (e ▸ h')⟩
    · rintro ⟨h', hne⟩
      exact h'.resolve_left hne

end Heap

/-- The calls take the containers from the elements `K` to the elements `K'`: they allocate a node only for
an element that is not there, and free only the node of one that is. -/
inductive Legal {κ : Type} : Set κ → List (NodeOp κ) → Set κ → Prop
  | nil {K : Set κ} : Legal K [] K
  | alloc {K K' : Set κ} {k : κ} {ops : List (NodeOp κ)} :
      k ∉ K → Legal (insert k K) ops K' → Legal K (.alloc k :: ops) K'
  | free {K K' : Set κ} {k : κ} {ops : List (NodeOp κ)} :
      k ∈ K → Legal (K \ {k}) ops K' → Legal K (.free k :: ops) K'

namespace Legal
variable {κ : Type} {K K' K'' : Set κ} {ops ops' : List (NodeOp κ)}

theorem append (h : Legal K ops K') (h' : Legal K' ops' K'') : Legal K (ops ++ ops') K'' := by
  induction h with
  | nil => exact h'
  | alloc hk _ ih => exact .alloc hk (ih h')
  | free hk _ ih => exact .free hk (ih h')

theorem map {κ' : Type} {f : κ → κ'} (hf : Function.Injective f) {F : Set κ'} (hF : ∀ k, f k ∉ F) (h : Legal K ops K') :
    Legal (f '' K ∪ F) (ops.map (·.map f)) (f '' K' ∪ F) := by
  induction h with
  | nil => exact .nil
  | @alloc K K' k ops hk _ ih =>
    refine .alloc ?_ ?_
    · rintro (⟨k', hk', e⟩ | h)
      · exact hk (hf e ▸ hk')
      · exact hF k h
    · rwa [Set.image_insert_eq, Set.insert_union] at ih
  | @free K K' k ops hk _ ih =>
    refine .free (.inl ⟨k, hk, rfl⟩) ?_
    rw [Set.image_sdiff hf, Set.image_singleton] at ih
    rwa [Set.union_sdiff_distrib, Set.sdiff_singleton_eq_self (hF k)]

end Legal

/-- While no pool runs out, the heap holds the elements of the containers. -/
theorem Heap.Holds.perform {κ ι : Type} [DecidableEq κ] [DecidableEq ι] [DecidableEq β] {pool : κ → ι} {h : Heap κ ι β}
    {K K' : Set κ} {ops : List (NodeOp κ)} (hh : h.Holds K) (hl : Legal K ops K') (hok : (h.perform pool ops).2 = true) :
    (h.perform pool ops).1.Holds K' := by
  induction hl generalizing h with
  | nil => exact hh
  | @alloc K K' k ops hk _ ih =>
    cases ha : h.alloc (pool k) k with
    | none => simp [Heap.perform, ha] at hok
    | some h₁ =>
      simp only [Heap.perform, ha] at hok ⊢
      refine ih ?_ hok
      obtain ⟨block, p, -, rfl⟩ := Heap.alloc_eq_some ha
      refine ⟨List.nodup_cons.2 ⟨fun hmem => hk ((hh.mem_iff k).1 hmem), hh.nodup⟩, ?_⟩
      intro k'
      rw [List.map_cons, List.mem_cons, hh.mem_iff k']
      exact Set.mem_insert_iff.symm
  | @free K K' k ops hk _ ih => exact ih (hh.free hk _) hok

/-! ### When a pool runs out -/

theorem ncard_family {κ ι : Type} [Fintype ι] {A : ι → Set κ} (hA : ∀ i, (A i).Finite) :
    { k : ι × κ | k.2 ∈ A k.1 }.ncard = ∑ i, (A i).ncard := by
  have hset : { k : ι × κ | k.2 ∈ A k.1 } =
      (Finset.univ.sigma fun i => (hA i).toFinset).map (Equiv.sigmaEquivProd ι κ).toEmbedding := by
    ext ⟨i, k⟩
    simp
  rw [hset, Set.ncard_coe_finset, Finset.card_map, Finset.card_sigma]
  exact Finset.sum_congr rfl fun i _ => (Set.ncard_eq_toFinset_card _ (hA i)).symm

namespace Heap
variable {κ ι : Type} [DecidableEq κ] [DecidableEq ι] [DecidableEq β] {pool : κ → ι} {π : ι → BlockPool β} {h : Heap κ ι β}

theorem perform_append (h : Heap κ ι β) (ops ops' : List (NodeOp κ)) :
    h.perform pool (ops ++ ops') =
      if (h.perform pool ops).2 then (h.perform pool ops).1.perform pool ops' else h.perform pool ops := by
  induction ops generalizing h with
  | nil => rfl
  | cons op ops ih =>
    cases op with
    | alloc k =>
      cases ha : h.alloc (pool k) k with
      | none => simp [perform, ha]
      | some h₁ => simpa only [List.cons_append, perform, ha] using ih h₁
    | free k => exact ih (h.free (pool k) k)

/-- Giving blocks back never fails. -/
theorem perform_frees (h : Heap κ ι β) {ops : List (NodeOp κ)} (hf : ∀ op ∈ ops, ∃ k, op = .free k) :
    (h.perform pool ops).2 = true := by
  induction ops generalizing h with
  | nil => rfl
  | cons op ops ih =>
    obtain ⟨k, rfl⟩ := hf op (by simp)
    exact ih (h.free (pool k) k) fun op hop => hf op (by simp [hop])

/-- Blocks asked of different pools: each pool has to have one. -/
theorem perform_allocs (h : Heap κ ι β) (ks : List κ) (hnd : (ks.map pool).Nodup) :
    (h.perform pool (ks.map .alloc)).2 = true ↔ ∀ k ∈ ks, (h.pools (pool k)).freeList ≠ [] := by
  induction ks generalizing h with
  | nil => simp [perform]
  | cons k ks ih =>
    obtain ⟨hk, hnd⟩ := List.nodup_cons.1 hnd
    rw [List.map_cons, List.forall_mem_cons]
    cases ha : h.alloc (pool k) k with
    | none => simp [perform, ha, alloc_eq_none_iff.1 ha]
    | some h₁ =>
      have hne : (h.pools (pool k)).freeList ≠ [] := fun e => by simp [alloc_eq_none_iff.2 e] at ha
      simp only [perform, ha]
      rw [ih h₁ hnd]
      obtain ⟨block, p, -, rfl⟩ := alloc_eq_some ha
      refine ⟨fun hks => ⟨hne, fun k' hk' => ?_⟩, fun hks k' hk' => ?_⟩
      all_goals have hkk : pool k' ≠ pool k := fun e => hk (e ▸ List.mem_map_of_mem hk')
      · simpa only [Function.update_of_ne hkk] using hks k' hk'
      · simpa only [Function.update_of_ne hkk] using hks.2 k' hk'

omit [DecidableEq β] in
/-- A pool's free blocks and the elements that hold one of its blocks are as many as it had free in `π`. -/
theorem Home.length_freeList {K : Set κ} (hh : Home pool π h) (hK : h.Holds K) (i : ι) :
    (h.pools i).freeList.length + { k ∈ K | pool k = i }.ncard = (π i).freeList.length := by
  have hkeys : (blocksOf i h.held).length = ((h.held.map (·.key)).filter (pool · = i)).length := by
    unfold blocksOf
    rw [List.length_map, List.filter_map, List.length_map]
    refine congrArg List.length (List.filter_congr fun node hn => ?_)
    rw [Function.comp, hh.owned node hn]
  have hset : { k ∈ K | pool k = i } = ((h.held.map (·.key)).filter (pool · = i)).toFinset := by
    ext k
    rw [List.coe_toFinset, Set.mem_ofPred_eq, Set.mem_ofPred_eq, List.mem_filter, hK.mem_iff, decide_eq_true_iff]
  rw [hset, Set.ncard_coe_finset, List.toFinset_card_of_nodup (hK.nodup.filter _), ← hkeys, ← List.length_append]
  exact (hh.balanced i).1.length_eq

end Heap

end BlockPool
