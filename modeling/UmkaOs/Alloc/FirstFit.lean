import UmkaOs.Alloc.Growth

namespace UmkaOs.Arena

open Lib

variable {h h' : Allocator} {blocks freed : List Nat} {start size : Nat}

/-- A heap with a well-formed free list: the blocks lie in the arena, and behind
its end a header has addresses. -/
structure HeapState (h : Allocator) (blocks freed : List Nat) : Prop extends FreeList h blocks freed where
  inside : ∀ node ∈ blocks, node + MemNode.sizeof ≤ h.arenaEnd
  room : h.arenaEnd + MemNode.sizeof ≤ 2 ^ 32

theorem Layout.heapState {live : Live} (layout : Layout start h live blocks freed) (even : 16 ∣ start) :
    HeapState h blocks freed where
  toFreeList := layout.placed.freeList
  inside node member := Nat.le_of_add_right_le (layout.carved.extent_le node (List.mem_cons_of_mem _ member))
  room := by
    have tail := layout.carved.aligned even h.tail layout.carved.tail_mem
    have size : 16 ∣ MemNode.size h.mem h.tail := by
      rcases List.mem_cons.mp layout.carved.tail_mem with first | older
      · cases layout.carved with
        | sentinel empty => simp [empty]
        | carve earlier adjacent _ rounded => exact rounded
      · exact (layout.carved.checked h.tail older).2
    have bounded := layout.bounded
    simp only [Allocator.arenaEnd, MemNode.sizeof] at bounded ⊢
    omega

/-- The arena longer by one block for `size` bytes, and nothing else changed. -/
structure Extended (h h' : Allocator) (size : Nat) : Prop where
  tail : h'.tail = h.arenaEnd
  checked : MemNode.check h'.mem h.arenaEnd = MemNode.magic
  capacity : MemNode.size h'.mem h.arenaEnd = rounded size
  ends : h'.arenaEnd = h.arenaEnd + MemNode.sizeof + rounded size
  outside : ∀ a, a < h.arenaEnd ∨ h.arenaEnd + MemNode.sizeof ≤ a → h'.mem a = h.mem a

/-- `free` of one pointer after the other. -/
def freeAll (h : Allocator) : List Nat → Except Fault Allocator
  | [] => .ok h
  | ptr :: rest => do
    let h ← h.allocatorFree ptr
    freeAll h rest

/-- `malloc` of one size after the other, with the pointers it returns. -/
def mallocAll (h : Allocator) : List Nat → Except Fault (Allocator × List Nat)
  | [] => .ok (h, [])
  | size :: rest => do
    let (h, ptr) ← h.allocatorAlloc size
    let (h, ptrs) ← mallocAll h rest
    return (h, ptr :: ptrs)

/-- The capacities, the tail and so the end of the arena stay. -/
structure SameArena (blocks : List Nat) (h h' : Allocator) : Prop where
  tail : h'.tail = h.tail
  ends : h'.arenaEnd = h.arenaEnd
  sizes : ∀ node ∈ blocks, MemNode.size h'.mem node = MemNode.size h.mem node

namespace SameArena

theorem trans {h'' : Allocator} (first : SameArena blocks h h') (second : SameArena blocks h' h'') :
    SameArena blocks h h'' where
  tail := second.tail.trans first.tail
  ends := second.ends.trans first.ends
  sizes node member := (second.sizes node member).trans (first.sizes node member)

theorem of_relinked (list : FreeList h blocks freed) (tail : h'.tail = h.tail)
    (relinked : Relinked blocks h.mem h'.mem) : SameArena blocks h h' where
  tail := tail
  ends := by
    have size : MemNode.size h'.mem h.tail = MemNode.size h.mem h.tail :=
      relinked.size fun x member => list.apart x (List.mem_cons_of_mem _ member) h.tail List.mem_cons_self
    rw [Allocator.arenaEnd, Allocator.arenaEnd, tail, size]
  sizes node member := relinked.size fun _ hx => list.headersApart hx member

end SameArena

/-- The first listed block of at least `size` bytes. -/
def firstFit (h : Allocator) (freed : List Nat) (size : Nat) : Option Nat :=
  freed.find? fun node => decide (size ≤ MemNode.size h.mem node)

theorem firstFit_eq {front back : List Nat} {x : Nat} (passed : ∀ y ∈ front, MemNode.size h.mem y < size)
    (large : size ≤ MemNode.size h.mem x) : firstFit h (front ++ x :: back) size = some x := by
  refine List.find?_eq_some_iff_append.mpr ⟨by simpa using large, front, back, rfl, fun y member => ?_⟩
  simpa using passed y member

theorem FreeList.alloc_fit (list : FreeList h blocks freed) {x : Nat} (found : firstFit h freed size = some x) :
    ∃ h', h.allocatorAlloc size = .ok (h', MemNode.data x) ∧ FreeList h' blocks (freed.erase x) ∧
      SameArena blocks h h' := by
  rcases list.alloc_cases size with ⟨passed, _⟩ | ⟨front, y, back, rfl, passed, large, takes⟩
  · obtain ⟨large, front, back, rfl, _⟩ := List.find?_eq_some_iff_append.mp found
    have small := passed x (by simp)
    simp at large
    omega
  · cases (firstFit_eq passed large).symm.trans found
    obtain ⟨h', taken, tail, relinked, list'⟩ := list.take
    have before : x ∉ front := fun member => by
      have small := passed x member
      omega
    have removed : (front ++ x :: back).erase x = front ++ back := by
      rw [List.erase_append_right _ before, List.erase_cons_head]
    refine ⟨h', takes.trans taken, ?_, .of_relinked list tail relinked⟩
    rw [removed]
    exact list'

/-- With no block that is large enough the arena grows by one. -/
theorem HeapState.alloc_grow (heap : HeapState h blocks freed) (fits : rounded size < 2 ^ 32)
    (none : firstFit h freed size = none) :
    ∃ h', h.allocatorAlloc size = .ok (h', MemNode.data h.arenaEnd) ∧ FreeList h' blocks freed ∧ h'.free = h.free ∧
      Extended h h' size := by
  have passed : ∀ y ∈ freed, MemNode.size h.mem y < size := by
    intro y member
    have small := List.find?_eq_none.mp none y member
    simp at small
    omega
  have grows : h.allocatorAlloc size = .ok (h.carve size) := by
    rcases heap.alloc_cases size with ⟨_, carves⟩ | ⟨front, x, back, rfl, _, large, _⟩
    · exact carves
    · have small := passed x (by simp)
      omega
  have room := heap.room
  obtain ⟨moved, ptr, capacity, checked, outside⟩ :=
    @carve_header h size (Nat.lt_of_lt_of_le (by simp [MemNode.sizeof]) room)
  have word : ∀ node ∈ blocks, ∀ k ≤ 8, (h.carve size).1.mem.load32 (node + k) = h.mem.load32 (node + k) := by
    intro node member
    refine Placed.word_congr fun k small => outside _ (.inl ?_)
    have below := heap.inside node member
    omega
  rw [wrap32_of_lt fits] at capacity
  refine ⟨(h.carve size).1, ?_, ?_, rfl, moved, checked, capacity, ?_, outside⟩
  · rw [grows]
    exact congrArg Except.ok (Prod.ext rfl ptr)
  · refine {
      chain := heap.chain.congr fun node member => word node (heap.freed_sub node member) 4 (by omega)
      freed_sub := heap.freed_sub
      checked := fun node member => (word node member 0 (by omega)).trans (heap.checked node member)
      near := heap.near
      apart := ?_ }
    rw [moved]
    intro x hx y hy other
    rcases List.mem_cons.mp hx with rfl | oldX <;> rcases List.mem_cons.mp hy with rfl | oldY
    · exact absurd rfl other
    · exact .inr (heap.inside y oldY)
    · exact .inl (heap.inside x oldX)
    · exact heap.headersApart oldX oldY other
  · rw [Allocator.arenaEnd, moved, capacity]

theorem mallocAll_append {h2 : Allocator} {sizes more ptrs ptrs' : List Nat}
    (first : mallocAll h sizes = .ok (h', ptrs)) (second : mallocAll h' more = .ok (h2, ptrs')) :
    mallocAll h (sizes ++ more) = .ok (h2, ptrs ++ ptrs') := by
  induction sizes generalizing h ptrs with
  | nil =>
    cases first
    exact second
  | cons size rest ih =>
    obtain ⟨⟨h1, ptr⟩, alloc, first⟩ := bind_ok first
    obtain ⟨⟨h3, later⟩, further, first⟩ := bind_ok first
    cases first
    simp only [List.cons_append, mallocAll, alloc, ih further, bind, Except.bind]
    rfl

/-- Blocks that are freed come back in the opposite order, to sizes they fit. -/
theorem FreeList.reuse (list : FreeList h blocks freed) {returned : List (Nat × Nat)}
    (distinct : (returned.map Prod.fst).Nodup)
    (owned : ∀ r ∈ returned, r.1 ∈ blocks ∧ r.1 ∉ freed ∧ r.2 ≤ MemNode.size h.mem r.1) :
    ∃ h1 h2, freeAll h (returned.map fun r => MemNode.data r.1) = .ok h1 ∧
      mallocAll h1 (returned.map Prod.snd).reverse = .ok (h2, (returned.map fun r => MemNode.data r.1).reverse) ∧
      FreeList h2 blocks freed ∧ SameArena blocks h h2 := by
  induction returned generalizing h freed with
  | nil => exact ⟨h, h, rfl, rfl, list, rfl, rfl, fun _ _ => rfl⟩
  | cons first rest ih =>
    obtain ⟨node, size⟩ := first
    obtain ⟨fresh, distinct⟩ := List.nodup_cons.mp distinct
    obtain ⟨member, busy, fits⟩ := owned (node, size) (by simp)
    obtain ⟨h0, released, tail, relinked, list0⟩ := list.free member busy
    have same := SameArena.of_relinked list tail relinked
    obtain ⟨h1, h2, freed1, given, list2, same2⟩ := ih list0 distinct (by
      intro r inside
      obtain ⟨memberR, busyR, fitsR⟩ := owned r (List.mem_cons_of_mem _ inside)
      refine ⟨memberR, ?_, by rwa [same.sizes r.1 memberR]⟩
      have listed : r.1 ∈ rest.map Prod.fst := List.mem_map_of_mem inside
      intro again
      rcases List.mem_cons.mp again with same | before
      · exact fresh (same ▸ listed)
      · exact busyR before)
    have whole := same.trans same2
    -- now `node` is at the head of the list
    have head : firstFit h2 (node :: freed) size = some node :=
      @firstFit_eq h2 size [] freed node (by simp) (by rwa [whole.sizes node member])
    obtain ⟨h3, alloc, list3, same3⟩ := list2.alloc_fit head
    refine ⟨h1, h3, ?_, ?_, by simpa using list3, whole.trans same3⟩
    · simp only [List.map_cons, freeAll, list.data_eq member, released, bind, Except.bind]
      exact freed1
    · have last : mallocAll h2 [size] = .ok (h3, [MemNode.data node]) := by
        simp only [mallocAll, alloc, bind, Except.bind]
        rfl
      simp only [List.map_cons, List.reverse_cons]
      exact mallocAll_append given last

/-- `allocatorAlloc` takes the first listed block that is large enough off the
list, or adds one block to the arena; so freed blocks are reused last-freed first. -/
theorem first_fit (heap : HeapState h blocks freed) :
    (∀ size x, firstFit h freed size = some x → ∃ h', h.allocatorAlloc size = .ok (h', MemNode.data x) ∧
      FreeList h' blocks (freed.erase x) ∧ SameArena blocks h h') ∧
    (∀ size, rounded size < 2 ^ 32 → firstFit h freed size = none →
      ∃ h', h.allocatorAlloc size = .ok (h', MemNode.data h.arenaEnd) ∧ FreeList h' blocks freed ∧ h'.free = h.free ∧
        Extended h h' size) ∧
    ∀ returned : List (Nat × Nat), (returned.map Prod.fst).Nodup →
      (∀ r ∈ returned, r.1 ∈ blocks ∧ r.1 ∉ freed ∧ r.2 ≤ MemNode.size h.mem r.1) →
      ∃ h1 h2, freeAll h (returned.map fun r => MemNode.data r.1) = .ok h1 ∧
        mallocAll h1 (returned.map Prod.snd).reverse = .ok (h2, (returned.map fun r => MemNode.data r.1).reverse) ∧
        FreeList h2 blocks freed ∧ SameArena blocks h h2 :=
  ⟨fun _ _ found => heap.alloc_fit found, fun _ fits none => heap.alloc_grow fits none,
    fun _ distinct owned => heap.reuse distinct owned⟩

/-- A freed block before a live one. -/
def reused : Allocator := ([.malloc 50, .malloc 10, .free 0x1000020].foldl Heap.next booted).arena

theorem reused_state : HeapState reused [0x1000060, 0x1000010] [0x1000010] where
  chain := ⟨by decide +kernel, by decide, (by decide +kernel : MemNode.next reused.mem 0x1000010 = 0)⟩
  freed_sub := by decide
  checked := by decide +kernel
  near := by decide
  apart := by
    have all : ∀ x ∈ [0x1000060, 0x1000010], ∀ y ∈ [0x1000060, 0x1000010], HeadersApart x y := by
      unfold HeadersApart
      decide
    have tail : reused.tail = 0x1000060 := by decide +kernel
    rw [tail]
    simpa using all
  inside := by decide +kernel
  room := by decide +kernel

/-- A request that fits takes the freed block, and a larger one extends the arena. -/
theorem first_fit_reused :
    (∃ h', reused.allocatorAlloc 30 = .ok (h', 0x1000020) ∧ FreeList h' [0x1000060, 0x1000010] [] ∧
      SameArena [0x1000060, 0x1000010] reused h') ∧
    (∃ h', reused.allocatorAlloc 100 = .ok (h', 0x1000090) ∧ FreeList h' [0x1000060, 0x1000010] [0x1000010] ∧
      h'.free = reused.free ∧ Extended reused h' 100) ∧
    ∃ h1 h2, freeAll reused [0x1000070] = .ok h1 ∧ mallocAll h1 [10] = .ok (h2, [0x1000070]) ∧
      FreeList h2 [0x1000060, 0x1000010] [0x1000010] ∧ SameArena [0x1000060, 0x1000010] reused h2 := by
  obtain ⟨fit, grow, reuse⟩ := first_fit reused_state
  have ends : MemNode.data reused.arenaEnd = 0x1000090 := by decide +kernel
  refine ⟨fit 30 0x1000010 (by decide +kernel), ?_, reuse [(0x1000060, 10)] (by decide) (by decide +kernel)⟩
  rw [← ends]
  exact grow 100 (by decide) (by decide +kernel)

end UmkaOs.Arena
