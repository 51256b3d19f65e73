import Mdfh.Lib.IntrusiveList
import Mdfh.Lib.Runs
import Mdfh.OrderBook.ObjectPool

/-!
# The free list inside the blocks (`orderbook/object_pool.hpp`)

`ObjectPool` has the pool as a list of free blocks. Here it is the bytes of `storage_`: a free block keeps
the address of the next free block in its first eight bytes, and the same bytes belong to the client once
the block is handed out. Addresses are numbers, zero is `nullptr`, and the place of `storage_` is a
parameter; what it holds at construction is arbitrary.

`Inv L s bs`: the list in the bytes is `bs`, and `bs` with the blocks that are out are the slots. A block
given back goes to the head of `bs` whatever the order, and a client writes only bytes of slots that are
not in `bs`. `construct_refines`, `allocate_refines` and `deallocate_refines` say that `bs` is the free list of
`ObjectPool`, with addresses for blocks.
-/

namespace Mdfh
open IntrusiveList

/-- `sizeof(void*)`, which is also `alignof(void*)`. -/
def kPointerSize : Nat := 8

/-- The template parameters of `FixedBlockPool`. -/
structure PoolParams where
  blockSize : Nat
  alignment : Nat
  capacity : Nat
  capacity_pos : 0 < capacity
  power : ∃ k, alignment = 2 ^ k
  dvd : alignment ∣ blockSize

def PoolParams.kStride (P : PoolParams) : Nat := if P.blockSize > kPointerSize then P.blockSize else kPointerSize

def PoolParams.kAlignment (P : PoolParams) : Nat := if P.alignment > kPointerSize then P.alignment else kPointerSize

/-- With the address of `storage_`, an array aligned as declared in a 64-bit address space. -/
structure PoolLayout extends PoolParams where
  data : Nat
  data_pos : 0 < data
  aligned : toPoolParams.kAlignment ∣ data
  fits : data + toPoolParams.kStride * capacity ≤ 2 ^ 64

/-- The pool, and the blocks it has handed out and not got back. -/
structure PoolState where
  storage : Memory
  freeList : Nat
  inUse : UInt64 := 0
  outstanding : List Nat := []

def PoolLayout.slot (L : PoolLayout) (index : Nat) : Nat := L.data + index * L.kStride

def writeNext (m : Memory) (block next : Nat) : Memory := writeWord kPointerSize m block next

def readNext (m : Memory) (block : Nat) : Nat := readWord kPointerSize m block

namespace PoolState

/-- `FixedBlockPool()` over the bytes of `m`. -/
def construct (L : PoolLayout) (m : Memory) : PoolState :=
  let linked := (List.range (L.capacity - 1)).foldl (fun m i => writeNext m (L.slot i) (L.slot (i + 1))) m
  { storage := writeNext linked (L.slot (L.capacity - 1)) 0, freeList := L.slot 0 }

/-- `none` stands for `std::bad_alloc`. -/
def allocate (s : PoolState) : Option (Nat × PoolState) :=
  if s.freeList = 0 then none
  else some (s.freeList, { s with
    freeList := readNext s.storage s.freeList, inUse := s.inUse + 1, outstanding := s.freeList :: s.outstanding })

def deallocate (s : PoolState) (p : Nat) : PoolState :=
  { storage := writeNext s.storage p s.freeList, freeList := p, inUse := s.inUse - 1, outstanding := s.outstanding.erase p }

/-- What a client does: calls, and writes into the blocks it holds. -/
inductive Act where
  | allocate
  | deallocate (p : Nat)
  | write (p offset : Nat) (byte : UInt8)
deriving DecidableEq, Repr

def step (L : PoolLayout) (s : PoolState) : Act → Option PoolState
  | .allocate => some ((s.allocate.map Prod.snd).getD s)
  | .deallocate p => if p ∈ s.outstanding then some (s.deallocate p) else none
  | .write p offset byte =>
    if p ∈ s.outstanding ∧ offset < L.blockSize then
      some { s with storage := Function.update s.storage (p + offset) byte }
    else none

end PoolState

/-! ### The slots of a layout -/

namespace PoolLayout
variable {L : PoolLayout}

def slots (L : PoolLayout) : List Nat := (List.range L.capacity).map L.slot

theorem pointerSize_le_kStride (P : PoolParams) : kPointerSize ≤ P.kStride := by
  unfold PoolParams.kStride
  split
  · omega
  · exact Nat.le_refl _

theorem blockSize_le_kStride (P : PoolParams) : P.blockSize ≤ P.kStride := by
  unfold PoolParams.kStride
  split
  · exact Nat.le_refl _
  · omega

theorem slot_add_le {i j : Nat} (h : i < j) : L.slot i + L.kStride ≤ L.slot j := by
  have : (i + 1) * L.kStride ≤ j * L.kStride := Nat.mul_le_mul_right _ h
  rw [Nat.succ_mul] at this
  unfold slot
  omega

theorem apart {a b : Nat} (ha : a ∈ L.slots) (hb : b ∈ L.slots) (hne : a ≠ b) :
    a + L.kStride ≤ b ∨ b + L.kStride ≤ a := by
  obtain ⟨i, -, rfl⟩ := List.mem_map.1 ha
  obtain ⟨j, -, rfl⟩ := List.mem_map.1 hb
  rcases Nat.lt_trichotomy i j with hij | rfl | hji
  · exact .inl (slot_add_le hij)
  · exact absurd rfl hne
  · exact .inr (slot_add_le hji)

theorem inside {a : Nat} (ha : a ∈ L.slots) : L.data ≤ a ∧ a + L.kStride ≤ L.data + L.kStride * L.capacity := by
  obtain ⟨i, hi, rfl⟩ := List.mem_map.1 ha
  have := slot_add_le (L := L) (List.mem_range.1 hi)
  rw [Nat.mul_comm]
  exact ⟨Nat.le_add_right _ _, this⟩

theorem ne_zero {a : Nat} (ha : a ∈ L.slots) : a ≠ 0 := by
  have := L.data_pos
  have := (inside ha).1
  omega

theorem kStride_pos (P : PoolParams) : 0 < P.kStride :=
  Nat.lt_of_lt_of_le (by decide) (pointerSize_le_kStride P)

theorem lt_word {a : Nat} (ha : a ∈ L.slots) : a < 2 ^ (8 * kPointerSize) := by
  have := (inside ha).2
  have := kStride_pos L.toPoolParams
  have := L.fits
  show a < 2 ^ 64
  omega

theorem nodup_slots (L : PoolLayout) : L.slots.Nodup := by
  refine List.Nodup.map (fun i j hij => ?_) List.nodup_range
  have := kStride_pos L.toPoolParams
  rcases Nat.lt_trichotomy i j with h | h | h
  · have := slot_add_le (L := L) h
    omega
  · exact h
  · have := slot_add_le (L := L) h
    omega

theorem alignment_dvd (h : 0 < L.blockSize ∨ L.alignment ≤ kPointerSize) {a : Nat} (ha : a ∈ L.slots) :
    L.alignment ∣ a := by
  obtain ⟨k, hk⟩ := L.power
  have hsmall : L.alignment ≤ 8 → L.alignment ∣ 8 := by
    intro hle
    rw [hk] at hle ⊢
    have : k ≤ 3 := (Nat.pow_le_pow_iff_right (by decide)).1 (show 2 ^ k ≤ 2 ^ 3 from hle)
    exact Nat.pow_dvd_pow 2 this
  have hdata : L.alignment ∣ L.data := by
    refine dvd_trans ?_ L.aligned
    unfold PoolParams.kAlignment
    split
    · exact dvd_rfl
    · next hle => exact hsmall (Nat.le_of_not_lt hle)
  have hstride : L.alignment ∣ L.kStride := by
    unfold PoolParams.kStride
    split
    · exact L.dvd
    · next hle =>
      refine hsmall ?_
      rcases h with hpos | hle'
      · exact (Nat.le_of_dvd hpos L.dvd).trans (Nat.le_of_not_lt hle)
      · exact hle'
  obtain ⟨i, -, rfl⟩ := List.mem_map.1 ha
  exact Nat.dvd_add hdata (hstride.mul_left i)

end PoolLayout

/-! ### The invariant -/

namespace PoolState
variable {L : PoolLayout} {s s' : PoolState} {bs : List Nat}

/-- The links visit `bs`, which with the blocks that are out are all slots. -/
structure Inv (L : PoolLayout) (s : PoolState) (bs : List Nat) : Prop where
  linked : Linked 0 (readNext s.storage) s.freeList bs
  slots : (bs ++ s.outstanding).Perm L.slots
  inUse : s.inUse = UInt64.ofNat s.outstanding.length

namespace Inv

theorem mem_slots (h : Inv L s bs) {b : Nat} (hb : b ∈ bs) : b ∈ L.slots :=
  h.slots.mem_iff.1 (List.mem_append_left _ hb)

theorem mem_slots_of_outstanding (h : Inv L s bs) {p : Nat} (hp : p ∈ s.outstanding) : p ∈ L.slots :=
  h.slots.mem_iff.1 (List.mem_append_right _ hp)

theorem nodup (h : Inv L s bs) : (bs ++ s.outstanding).Nodup := h.slots.nodup_iff.2 L.nodup_slots

theorem apart (h : Inv L s bs) {b p : Nat} (hb : b ∈ bs) (hp : p ∈ s.outstanding) :
    b + L.kStride ≤ p ∨ p + L.kStride ≤ b :=
  PoolLayout.apart (h.mem_slots hb) (h.mem_slots_of_outstanding hp) fun e =>
    List.disjoint_of_nodup_append h.nodup hb (e ▸ hp)

theorem freeList_lt (h : Inv L s bs) : s.freeList < 2 ^ (8 * kPointerSize) := by
  rcases h.linked.mem with hnull | hmem
  · rw [hnull]
    decide
  · exact PoolLayout.lt_word (h.mem_slots hmem)

end Inv

/-- The loop of the constructor links the first `k` slots. -/
theorem readNext_construct (m : Memory) {k : Nat} (hk : k < L.capacity) (i : Nat) (hi : i < k) :
    readNext ((List.range k).foldl (fun m i => writeNext m (L.slot i) (L.slot (i + 1))) m) (L.slot i) = L.slot (i + 1) := by
  induction k with
  | zero => omega
  | succ k ih =>
    have hword := PoolLayout.pointerSize_le_kStride L.toPoolParams
    rw [List.range_succ, List.foldl_append, List.foldl_cons, List.foldl_nil]
    rcases Nat.lt_succ_iff_lt_or_eq.1 hi with hlt | rfl
    · have := PoolLayout.slot_add_le (L := L) hlt
      rw [writeNext, readNext, readWord_writeWord_of_disjoint (by omega)]
      exact ih (by omega) hlt
    · exact readWord_writeWord (PoolLayout.lt_word (List.mem_map_of_mem (List.mem_range.2 hk)))

theorem linked_range' {next : Nat → Nat} {i n : Nat} (hnext : ∀ j, i ≤ j → j + 1 < i + n → next (L.slot j) = L.slot (j + 1))
    (hlast : next (L.slot (i + n - 1)) = 0) (hn : 0 < n) (hcap : i + n ≤ L.capacity) :
    Linked 0 next (L.slot i) ((List.range' i n).map L.slot) := by
  induction n generalizing i with
  | zero => omega
  | succ n ih =>
    have hne : L.slot i ≠ 0 := PoolLayout.ne_zero (List.mem_map_of_mem (List.mem_range.2 (by omega)))
    refine ⟨rfl, hne, ?_⟩
    rcases Nat.eq_zero_or_pos n with rfl | hpos
    · exact hlast
    · rw [hnext i (Nat.le_refl _) (by omega)]
      refine ih (fun j hj hj' => hnext j (by omega) (by omega)) ?_ hpos (by omega)
      rwa [show i + 1 + n - 1 = i + (n + 1) - 1 by omega]

/-- The constructor threads all slots in order. -/
theorem Inv.construct (L : PoolLayout) (m : Memory) : Inv L (construct L m) L.slots := by
  have hcap := L.capacity_pos
  have hword := PoolLayout.pointerSize_le_kStride L.toPoolParams
  refine ⟨?_, ?_, rfl⟩
  · unfold PoolLayout.slots
    rw [List.range_eq_range']
    refine linked_range' (fun j _ hj => ?_) ?_ hcap (by omega)
    · have := PoolLayout.slot_add_le (L := L) (show j < L.capacity - 1 by omega)
      rw [PoolState.construct, writeNext, readNext, readWord_writeWord_of_disjoint (by omega)]
      exact readNext_construct m (by omega) j (by omega)
    · rw [Nat.zero_add]
      exact readWord_writeWord (by decide)
  · rw [PoolState.construct, List.append_nil]

/-- The constructor's list is that of `FixedBlockPool.init`. -/
theorem Inv.construct_refines (L : PoolLayout) (m : Memory) (pool : PoolId) :
    Inv L (PoolState.construct L m) ((FixedBlockPool.init pool L.capacity).freeList.map fun b => L.slot b.index) := by
  have hslots : ((FixedBlockPool.init pool L.capacity).freeList.map fun b => L.slot b.index) = L.slots := by
    unfold FixedBlockPool.init PoolLayout.slots
    rw [List.map_map, List.range_eq_range']
    rfl
  rw [hslots]
  exact .construct L m

/-- `allocate` is that of the list of free blocks. -/
theorem Inv.allocate_refines (h : Inv L s bs) :
    match (⟨bs, s.inUse⟩ : BlockPool Nat).allocate with
    | none => s.allocate = none
    | some (block, p) => ∃ s', s.allocate = some (block, s') ∧ s'.outstanding = block :: s.outstanding ∧
        s'.inUse = p.inUse ∧ Inv L s' p.freeList := by
  cases bs with
  | nil =>
    have hnull : s.freeList = 0 := h.linked
    show s.allocate = none
    rw [allocate, if_pos hnull]
  | cons b bs =>
    obtain ⟨hb, hne, hrest⟩ := h.linked
    have halloc : s.allocate = some (b, { s with
        freeList := readNext s.storage b, inUse := s.inUse + 1, outstanding := b :: s.outstanding }) := by
      rw [allocate, if_neg hne, hb]
    rw [hb] at hrest
    refine ⟨_, halloc, rfl, rfl, hrest, List.perm_middle.trans h.slots, ?_⟩
    rw [List.length_cons, UInt64.ofNat_add, ← h.inUse]
    rfl

/-- `deallocate` of a block that is out is that of the list of free blocks. -/
theorem Inv.deallocate_refines (h : Inv L s bs) {p : Nat} (hp : p ∈ s.outstanding) :
    (s.deallocate p).inUse = ((⟨bs, s.inUse⟩ : BlockPool Nat).deallocate p).inUse ∧
      Inv L (s.deallocate p) ((⟨bs, s.inUse⟩ : BlockPool Nat).deallocate p).freeList := by
  have hword := PoolLayout.pointerSize_le_kStride L.toPoolParams
  have hout : s.outstanding.Perm (p :: s.outstanding.erase p) := List.perm_cons_erase hp
  refine ⟨rfl, ⟨rfl, PoolLayout.ne_zero (h.mem_slots_of_outstanding hp), ?_⟩, ?_, ?_⟩
  · -- the link of `p` is new, and the other links are in other blocks
    have hnext : readNext (s.deallocate p).storage p = s.freeList := readWord_writeWord h.freeList_lt
    show Linked 0 _ (readNext (s.deallocate p).storage p) bs
    rw [hnext]
    refine h.linked.congr fun b hb => ?_
    have := h.apart hb hp
    exact readWord_writeWord_of_disjoint (by omega)
  · exact (List.perm_middle.symm.trans (hout.symm.append_left bs)).trans h.slots
  · have hlen := hout.length_eq
    show s.inUse - 1 = UInt64.ofNat (s.outstanding.erase p).length
    rw [h.inUse, hlen, List.length_cons, UInt64.ofNat_add]
    exact add_sub_cancel_right _ _

theorem Inv.write (h : Inv L s bs) {p offset : Nat} (hp : p ∈ s.outstanding) (ho : offset < L.blockSize) (byte : UInt8) :
    Inv L { s with storage := Function.update s.storage (p + offset) byte } bs := by
  refine ⟨h.linked.congr fun b hb => ?_, h.slots, h.inUse⟩
  have hblock := PoolLayout.blockSize_le_kStride L.toPoolParams
  have hword := PoolLayout.pointerSize_le_kStride L.toPoolParams
  have := h.apart hb hp
  exact readWord_update_of_disjoint (by omega)

theorem Inv.step {a : Act} (h : Inv L s bs) (hs : step L s a = some s') : ∃ bs', Inv L s' bs' := by
  cases a with
  | allocate =>
    have hrefines := h.allocate_refines
    rw [PoolState.step, Option.some.injEq] at hs
    subst hs
    split at hrefines
    · rw [hrefines]
      exact ⟨bs, h⟩
    · obtain ⟨s', he, -, -, hinv⟩ := hrefines
      rw [he]
      exact ⟨_, hinv⟩
  | deallocate p =>
    rw [PoolState.step, Option.ite_none_right_eq_some] at hs
    obtain ⟨hp, hs⟩ := hs
    cases hs
    exact ⟨_, (h.deallocate_refines hp).2⟩
  | write p offset byte =>
    rw [PoolState.step, Option.ite_none_right_eq_some] at hs
    obtain ⟨⟨hp, ho⟩, hs⟩ := hs
    cases hs
    exact ⟨bs, h.write hp ho byte⟩

/-! ### What a client can rely on -/

structure Sound (L : PoolLayout) (s : PoolState) : Prop where
  /-- The list is finite, has no cycle, and visits the slots that are not out. -/
  visits : ∃ bs, Linked 0 (readNext s.storage) s.freeList bs ∧ bs.Nodup ∧ ∀ a, a ∈ bs ↔ a ∈ L.slots ∧ a ∉ s.outstanding
  counts : s.outstanding.Nodup ∧ s.inUse.toNat = s.outstanding.length
  throws : s.allocate = none ↔ s.inUse.toNat = L.capacity
  /-- The block returned is a slot inside the storage, off every block that is out. -/
  returns : ∀ a s', s.allocate = some (a, s') → a ∈ L.slots ∧
    (L.data ≤ a ∧ a + L.kStride ≤ L.data + L.kStride * L.capacity) ∧
    ∀ p ∈ s.outstanding, a + L.kStride ≤ p ∨ p + L.kStride ≤ a
  aligned : 0 < L.blockSize ∨ L.alignment ≤ kPointerSize → ∀ a s', s.allocate = some (a, s') → L.alignment ∣ a

namespace Inv

theorem length_outstanding (h : Inv L s bs) : bs.length + s.outstanding.length = L.capacity := by
  have := h.slots.length_eq
  rwa [List.length_append, PoolLayout.slots, List.length_map, List.length_range] at this

theorem toNat_inUse (h : Inv L s bs) : s.inUse.toNat = s.outstanding.length := by
  have hlen := h.length_outstanding
  have hfits := L.fits
  have hdata := L.data_pos
  have hstride : 1 * L.capacity ≤ L.kStride * L.capacity :=
    Nat.mul_le_mul_right _ (PoolLayout.kStride_pos L.toPoolParams)
  rw [h.inUse, UInt64.toNat_ofNat', Nat.mod_eq_of_lt (by omega)]

theorem mem_of_allocate (h : Inv L s bs) {a : Nat} (ha : s.allocate = some (a, s')) : a ∈ bs := by
  unfold allocate at ha
  split at ha
  · cases ha
  · next hne =>
    cases ha
    exact h.linked.mem.resolve_left hne

theorem sound (h : Inv L s bs) : Sound L s := by
  have hnodup := List.nodup_append.1 h.nodup
  refine ⟨⟨bs, h.linked, hnodup.1, fun a => ?_⟩, ⟨hnodup.2.1, h.toNat_inUse⟩, ?_, fun a s' ha => ?_, fun hsize a s' ha => ?_⟩
  · rw [← h.slots.mem_iff, List.mem_append]
    constructor
    · exact fun ha => ⟨.inl ha, fun hout => hnodup.2.2 a ha a hout rfl⟩
    · rintro ⟨ha | ha, hout⟩
      · exact ha
      · exact absurd ha hout
  · have hempty : s.allocate = none ↔ s.freeList = 0 := by
      unfold allocate
      split <;> simp_all
    have hlen := h.length_outstanding
    rw [hempty, ← h.linked.eq_nil_iff, h.toNat_inUse, ← List.length_eq_zero_iff]
    omega
  · have hmem := h.mem_of_allocate ha
    exact ⟨h.mem_slots hmem, PoolLayout.inside (h.mem_slots hmem), fun p hp => h.apart hmem hp⟩
  · exact PoolLayout.alignment_dvd hsize (h.mem_slots (h.mem_of_allocate ha))

end Inv

/-- Whatever is allocated, given back and written, the pool keeps its free list. -/
theorem pool_sound (L : PoolLayout) (m : Memory) {acts : List Act} (hrun : Runs.exec (step L) (construct L m) acts = some s) :
    Sound L s := by
  have hinv : ∃ bs, Inv L s bs := by
    refine Runs.invariant (P := fun s => ∃ bs, Inv L s bs) ?_ ⟨L.slots, .construct L m⟩ hrun
    rintro s a s' ⟨bs, h⟩ hs
    exact h.step hs
  obtain ⟨bs, h⟩ := hinv
  exact h.sound

/-- Two blocks of four bytes, eight bytes apart. -/
def twoInts : PoolLayout where
  blockSize := 4
  alignment := 4
  capacity := 2
  capacity_pos := Nat.zero_lt_two
  power := ⟨2, rfl⟩
  dvd := by decide
  data := 64
  data_pos := by decide
  aligned := by decide
  fits := by decide

/-- Both blocks are taken and written to, and come back in the order they were taken. -/
def takeBoth : List Act := [.allocate, .allocate, .write 64 0 255, .write 72 3 1, .deallocate 64, .deallocate 72]

theorem pool_sound_ints : ∃ s, Runs.exec (step twoInts) (construct twoInts fun _ => 7) takeBoth = some s ∧
    s.freeList = 72 ∧ Sound twoInts s := by
  have hrun : ((Runs.exec (step twoInts) (construct twoInts fun _ => 7) takeBoth).map (·.freeList)) = some 72 := by
    decide +kernel
  obtain ⟨s, hs, hfree⟩ := Option.map_eq_some_iff.1 hrun
  exact ⟨s, hs, hfree, pool_sound twoInts _ hs⟩

/-- Blocks of no bytes: sixteen divides zero, but the slots are eight bytes apart. -/
def zeroBlocks : PoolLayout where
  blockSize := 0
  alignment := 16
  capacity := 2
  capacity_pos := Nat.zero_lt_two
  power := ⟨4, rfl⟩
  dvd := by decide
  data := 64
  data_pos := by decide
  aligned := by decide
  fits := by decide

theorem zero_block_misaligned : ¬ ∀ acts s a s', Runs.exec (step zeroBlocks) (construct zeroBlocks fun _ => 0) acts = some s →
    s.allocate = some (a, s') → zeroBlocks.alignment ∣ a := by
  intro h
  have hrun : ((Runs.exec (step zeroBlocks) (construct zeroBlocks fun _ => 0) [.allocate]).bind fun s =>
      s.allocate.map Prod.fst) = some 72 := by
    decide +kernel
  obtain ⟨s, hs, ha⟩ := Option.bind_eq_some_iff.1 hrun
  obtain ⟨⟨a, s'⟩, ha, rfl⟩ := Option.map_eq_some_iff.1 ha
  exact absurd (h _ s _ s' hs ha) (by decide)

end PoolState

end Mdfh
