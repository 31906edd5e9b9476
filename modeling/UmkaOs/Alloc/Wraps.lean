import UmkaOs.Alloc.Growth

namespace UmkaOs.Arena

open Lib

variable {start n k ptr new ret : Nat} {h h' mid : Allocator} {live : Live} {nodes freed : List Nat} {call : Call}
  {s s' : Heap} {m : Mem} {steps : List (Heap × Call)}

/-- A block for `n` bytes: it is large enough and ends at or below 2^32, and what
was carved for it lies where the arena ended. -/
structure Sized (h : Allocator) (n : Nat) (h' : Allocator) (ret : Nat) : Prop where
  large : n ≤ capacity h' ret
  below : MemNode.ofData ret + MemNode.sizeof + capacity h' ret ≤ 2 ^ 32
  place : h'.tail = h.tail ∨ h'.tail = h.arenaEnd

/-- The call returns, with a block for the size that was asked for. -/
def Call.Exact (h : Allocator) (call : Call) : Prop :=
  ∃ h' ret, call.run h = .ok (h', ret) ∧ ∀ n, call.request = some n → Sized h n h' ret

/-- A free block is large enough, or there is room behind the last block. -/
def Enough (h : Allocator) (n : Nat) : Prop :=
  (∃ freed, Chain (MemNode.next h.mem) 0 h.free freed ∧ ∃ node ∈ freed, n ≤ MemNode.size h.mem node) ∨
    h.arenaEnd + MemNode.sizeof + rounded n ≤ 2 ^ 32

/-- The arguments for which nothing wraps around. -/
def Call.Safe (h : Allocator) : Call → Prop
  | .malloc size => Enough h size
  | .calloc nmemb size => nmemb * size < 2 ^ 32 ∧ Enough h (nmemb * size)
  | .realloc ptr size => ptr ≠ 0 ∧ size ≤ capacity h ptr ∨ Enough h size
  | .free _ | .write _ _ _ => True

/-- A legal call with such arguments. -/
structure Heap.SafeStep (s : Heap) (call : Call) (s' : Heap) : Prop where
  legal : call.Legal s.live
  safe : call.Safe s.arena
  ran : ∃ ret, call.run s.arena = .ok (s'.arena, ret) ∧ s'.live = call.after s.live ret

theorem Placed.sized (placed : Placed start h' live nodes freed) (bounded : h'.arenaEnd ≤ 2 ^ 32)
    (owns : live ret = some n) (place : h'.tail = h.tail ∨ h'.tail = h.arenaEnd) : Sized h n h' ret := by
  obtain ⟨node, member, _, _, back, fits⟩ := placed.owner owns
  have extent := placed.carved.extent_le node (List.mem_cons_of_mem _ member)
  refine ⟨?_, ?_, place⟩
  · rwa [capacity, back]
  · rw [capacity, back]
    exact extent.trans bounded

theorem alloc_within (placed : Placed start h live nodes freed) (bounded : h.arenaEnd ≤ 2 ^ 32) (enough : Enough h n) :
    ∃ h' ptr nodes' freed', h.allocatorAlloc n = .ok (h', ptr) ∧ live ptr = none ∧
      Placed start h' (Function.update live ptr (some n)) nodes' freed' ∧ h'.arenaEnd ≤ 2 ^ 32 ∧
      (h'.tail = h.tail ∨ h'.tail = h.arenaEnd) ∧
      ∀ node ∈ nodes, MemNode.size h'.mem node = MemNode.size h.mem node := by
  rcases placed.freeList.alloc_cases n with ⟨passed, carves⟩ | ⟨front, x, back, rfl, _, large, takes⟩
  · have room : h.arenaEnd + MemNode.sizeof + rounded n ≤ 2 ^ 32 := by
      rcases enough with ⟨list, chain, node, member, large⟩ | room
      · rw [chain.unique placed.chain] at member
        exact absurd large (Nat.not_le.mpr (passed node member))
      · exact room
    obtain ⟨ptr, moved, size, fresh, carved, _, sizes⟩ := placed.carve room
    refine ⟨(h.carve n).1, h.arenaEnd + MemNode.sizeof, _, _, ?_, fresh, carved, ?_, .inr moved,
      fun node member => sizes node (List.mem_cons_of_mem _ member)⟩
    · rw [carves, ← ptr]
    · rwa [Allocator.arenaEnd, moved, size]
  · obtain ⟨h', taken, tail, granted, _, sizes⟩ := placed.take large
    refine ⟨h', x + MemNode.sizeof, _, _, takes.trans taken, placed.free_not_live (by simp), granted, ?_, .inl tail,
      fun node member => sizes node (List.mem_cons_of_mem _ member)⟩
    rwa [placed.carved.arenaEnd_eq tail sizes]

/-- One call with safe arguments: it returns, and the arena still ends at or below 2^32. -/
theorem call_within (placed : Placed start h live nodes freed) (bounded : h.arenaEnd ≤ 2 ^ 32) {call : Call}
    (legal : call.Legal live) (safe : call.Safe h) :
    ∃ h' ret nodes' freed', call.run h = .ok (h', ret) ∧ Placed start h' (call.after live ret) nodes' freed' ∧
      h'.arenaEnd ≤ 2 ^ 32 ∧ ∀ n, call.request = some n → Sized h n h' ret := by
  cases call with
  | malloc size =>
    obtain ⟨h', ret, nodes', freed', ran, _, granted, below, place, _⟩ := alloc_within placed bounded safe
    refine ⟨h', ret, nodes', freed', ran, granted, below, fun n asked => ?_⟩
    cases asked
    exact granted.sized below (Function.update_self ..) place
  | calloc nmemb size =>
    obtain ⟨product, enough⟩ := safe
    obtain ⟨mid, ret, nodes', freed', ran, _, granted, below, place, _⟩ := alloc_within placed bounded enough
    have owns : Function.update live ret (some (nmemb * size)) ret = some (nmemb * size) := Function.update_self ..
    obtain ⟨filled, _, ends⟩ := granted.congr_mem
      (granted.block_write owns fun a apart => Mem.fill_outside (c := 0) apart)
    rw [← ends] at below
    refine ⟨_, ret, nodes', freed', ?_, filled, below, fun n asked => ?_⟩
    · simp only [Call.run, Allocator.calloc, wrap32_of_lt product, ran, bind, Except.bind]
      rfl
    · cases asked
      exact filled.sized below owns place
  | realloc ptr size =>
    by_cases isNull : ptr = 0
    · subst isNull
      have enough : Enough h size := safe.resolve_left fun kept => kept.1 rfl
      obtain ⟨h', ret, nodes', freed', ran, _, granted, below, place, _⟩ := alloc_within placed bounded enough
      refine ⟨h', ret, nodes', freed', by simp [Call.run, Allocator.allocatorRealloc, ran], ?_, below,
        fun n asked => ?_⟩
      · rwa [Call.after, placed.release_null.1]
      · cases asked
        exact granted.sized below (Function.update_self ..) place
    · obtain ⟨k, owns⟩ := Option.isSome_iff_exists.mp (legal.resolve_left isNull)
      obtain ⟨node, member, _, _, back, _⟩ := placed.owner owns
      by_cases small : size ≤ MemNode.size h.mem (MemNode.ofData ptr)
      · have kept := placed.resize owns small
        refine ⟨h, ptr, nodes, freed, by simp [Call.run, Allocator.allocatorRealloc, isNull, small], ?_, bounded, ?_⟩
        · rwa [Call.after, Function.update_idem]
        · intro n asked
          cases asked
          exact kept.sized bounded (Function.update_self ..) (.inl rfl)
      · have enough : Enough h size := safe.resolve_left fun kept => small kept.2
        obtain ⟨mid, new, nodes', freed', ran, fresh, granted, below, place, sizes⟩ :=
          alloc_within placed bounded enough
        have other : ptr ≠ new := by
          rintro rfl
          rw [fresh] at owns
          cases owns
        have shorter : MemNode.size mid.mem (MemNode.ofData ptr) < size := by
          rw [back, sizes node member, ← back]
          omega
        obtain ⟨h', freedOld, moved, _, tail, sizes'⟩ := granted.move owns other shorter
        have below : h'.arenaEnd ≤ 2 ^ 32 := by rwa [granted.carved.arenaEnd_eq tail sizes']
        refine ⟨h', new, nodes', _, ?_, moved, below, fun n asked => ?_⟩
        · rw [Call.run, realloc_moves isNull small ran, placed.data_ofData owns, freedOld]
          rfl
        · cases asked
          exact moved.sized below (Function.update_self ..) (by rwa [tail])
  | free ptr =>
    by_cases isNull : ptr = 0
    · subst isNull
      refine ⟨h, 0, nodes, freed, by simp [Call.run, Allocator.allocatorFree, Except.map], ?_, bounded,
        fun _ asked => by cases asked⟩
      rwa [Call.after, placed.release_null.1]
    · obtain ⟨k, owns⟩ := Option.isSome_iff_exists.mp (legal.resolve_left isNull)
      obtain ⟨h', ran, released, _, tail, sizes⟩ := placed.free owns
      refine ⟨h', 0, nodes, _, by simp [Call.run, ran, Except.map], released, ?_, fun _ asked => by cases asked⟩
      rwa [placed.carved.arenaEnd_eq tail sizes]
  | write ptr offset byte =>
    obtain ⟨k, owns, inside⟩ := legal
    obtain ⟨written, _, ends⟩ := placed.congr_mem (placed.block_write owns fun a away =>
      Function.update_of_ne (show a ≠ ptr + offset by omega) byte h.mem)
    exact ⟨_, 0, nodes, freed, rfl, written, ends ▸ bounded, fun _ asked => by cases asked⟩

theorem alloc_carves (placed : Placed start h live nodes freed) (short : ¬ Enough h n) :
    h.allocatorAlloc n = .ok (h.carve n) ∧ 2 ^ 32 < h.arenaEnd + MemNode.sizeof + rounded n := by
  obtain ⟨none, room⟩ := not_or.mp short
  refine ⟨?_, Nat.lt_of_not_le room⟩
  rcases placed.freeList.alloc_cases n with ⟨_, carves⟩ | ⟨front, x, back, split, _, large, _⟩
  · exact carves
  · exact absurd ⟨freed, placed.chain, x, by simp [split], large⟩ none

theorem Placed.tail_pos (placed : Placed start h live nodes freed) (full : h.arenaEnd = 2 ^ 32) : h.tail ≠ 0 := by
  intro null
  rcases List.mem_cons.mp placed.carved.tail_mem with first | carved
  · have carved := placed.carved
    rw [Allocator.arenaEnd] at full
    generalize h.tail = tail at *
    cases carved with
    | sentinel empty =>
      simp only [MemNode.sizeof] at full
      omega
    | @carve earlier _ _ before adjacent _ _ =>
      simp only [MemNode.sizeof] at adjacent
      omega
  · exact placed.node_pos carved null

/-- A block that is carved without enough room is too small, ends past 2^32, or lies
at address 0, and stays so unless its header is written again. -/
theorem carve_unsized (bounded : h.arenaEnd ≤ 2 ^ 32) (tail : h.arenaEnd = 2 ^ 32 → h.tail ≠ 0)
    (short : 2 ^ 32 < h.arenaEnd + MemNode.sizeof + rounded n) (stays : h'.tail = (h.carve n).1.tail)
    (agree : h.arenaEnd + MemNode.sizeof < 2 ^ 32 ∨ n = 0 →
      MemNode.size h'.mem h.arenaEnd = MemNode.size (h.carve n).1.mem h.arenaEnd) :
    ¬ Sized h n h' (h.carve n).2 := by
  rintro ⟨large, below, place⟩
  rcases Nat.eq_or_lt_of_le bounded with full | near
  · have zero : h'.tail = 0 := by
      have sum : h.tail + MemNode.size h.mem h.tail + MemNode.sizeof = 2 ^ 32 := by
        unfold Allocator.arenaEnd at full
        omega
      rw [stays, Allocator.carve, sum]
      rfl
    rcases place with same | moved
    · exact tail full (same.symm.trans zero)
    · omega
  · obtain ⟨_, ptr, size, _, _⟩ := carve_header n near
    have back : MemNode.ofData (h.carve n).2 = h.arenaEnd := by
      rw [ptr]
      simp only [MemNode.ofData, wrap32, MemNode.sizeof]
      omega
    rw [capacity, back] at large below
    have word : MemNode.size h'.mem h.arenaEnd < 2 ^ 32 := Mem.load32_lt
    have kept : h.arenaEnd + MemNode.sizeof < 2 ^ 32 ∨ n = 0 := by omega
    rw [agree kept, size] at large below
    unfold wrap32 rounded at *
    omega

/-- A call that returns a block of the size that was asked for had safe arguments. -/
theorem safe_of_exact (placed : Placed start h live nodes freed) (bounded : h.arenaEnd ≤ 2 ^ 32) {call : Call}
    (legal : call.Legal live) (exact : call.Exact h) : call.Safe h := by
  obtain ⟨h', ret, ran, sized⟩ := exact
  cases call with
  | malloc size =>
    by_contra short
    obtain ⟨carves, past⟩ := alloc_carves placed short
    cases carves.symm.trans ran
    exact carve_unsized bounded placed.tail_pos past rfl (fun _ => rfl) (sized size rfl)
  | calloc nmemb size =>
    have sized := sized _ rfl
    have product : nmemb * size < 2 ^ 32 := Nat.lt_of_le_of_lt sized.large Mem.load32_lt
    refine ⟨product, ?_⟩
    by_contra short
    obtain ⟨carves, past⟩ := alloc_carves placed short
    simp only [Call.run, Allocator.calloc, wrap32_of_lt product, carves, bind, Except.bind] at ran
    cases ran
    refine carve_unsized bounded placed.tail_pos past ?_ (fun kept => ?_) sized
    · rfl
    · refine Mem.load32_congr fun k small => Mem.fill_outside ?_
      rcases kept with near | none
      · obtain ⟨_, ptr, _⟩ := @carve_header h (nmemb * size) (by omega)
        rw [ptr, wrap32_of_lt near]
        simp only [MemNode.sizeof]
        omega
      · omega
  | realloc ptr size =>
    have sized := sized _ rfl
    by_contra refused
    obtain ⟨moves, short⟩ := not_or.mp refused
    obtain ⟨carves, past⟩ := alloc_carves placed short
    by_cases isNull : ptr = 0
    · simp only [Call.run, Allocator.allocatorRealloc, isNull, if_true] at ran
      cases carves.symm.trans ran
      exact carve_unsized bounded placed.tail_pos past rfl (fun _ => rfl) sized
    · obtain ⟨k, owns⟩ := Option.isSome_iff_exists.mp (legal.resolve_left isNull)
      obtain ⟨node, member, _, _, back, _⟩ := placed.owner owns
      have small : ¬ size ≤ MemNode.size h.mem (MemNode.ofData ptr) := fun large => moves ⟨isNull, large⟩
      have carves : h.allocatorAlloc size = .ok ((h.carve size).1, (h.carve size).2) := carves
      rw [Call.run, realloc_moves isNull small carves, Allocator.allocatorFree, if_neg isNull] at ran
      dsimp only at ran
      -- the last `free` either fails, or writes into the header of the old block only
      split at ran
      · cases ran
        refine carve_unsized bounded placed.tail_pos past ?_ (fun kept => ?_) sized
        · rfl
        · have extent := placed.carved.extent_le node (List.mem_cons_of_mem _ member)
          have near : h.arenaEnd + MemNode.sizeof < 2 ^ 32 := by omega
          obtain ⟨_, ptr, _⟩ := @carve_header h size (by omega)
          rw [wrap32_of_lt near] at ptr
          unfold Allocator.arenaEnd at *
          simp only [MemNode.sizeof] at *
          refine (Mem.load32_store32_of_disjoint (by omega)).trans (Mem.load32_congr fun k small => ?_)
          exact Mem.copy_outside (by omega)
      · cases ran
  | free | write => trivial

theorem SafeStep.keeps (step : s.SafeStep call s')
    (within : ∃ nodes freed, Placed start s.arena s.live nodes freed ∧ s.arena.arenaEnd ≤ 2 ^ 32) :
    ∃ nodes freed, Placed start s'.arena s'.live nodes freed ∧ s'.arena.arenaEnd ≤ 2 ^ 32 := by
  obtain ⟨nodes, freed, placed, bounded⟩ := within
  obtain ⟨ret, ran, live⟩ := step.ran
  obtain ⟨h', ret', nodes', freed', ran', placed', below, _⟩ := call_within placed bounded step.legal step.safe
  cases ran.symm.trans ran'
  exact ⟨nodes', freed', live ▸ placed', below⟩

/-- After any calls with safe arguments, a call returns a block of the size that was
asked for exactly when its own arguments are safe. -/
theorem exact_iff_safe (small : start + MemNode.sizeof < 2 ^ 32)
    (run : Run Heap.SafeStep (Heap.init m start) steps s) (legal : call.Legal s.live) :
    call.Exact s.arena ↔ call.Safe s.arena := by
  have first := init_layout m small
  obtain ⟨nodes, freed, placed, bounded⟩ := @Run.invariant _ _ _ _ _ _
    (fun s => ∃ nodes freed, Placed start s.arena s.live nodes freed ∧ s.arena.arenaEnd ≤ 2 ^ 32)
    (fun within step => SafeStep.keeps step within) run ⟨[], [], first.placed, Nat.le_of_lt first.bounded⟩
  refine ⟨safe_of_exact placed bounded legal, fun safe => ?_⟩
  obtain ⟨h', ret, _, _, ran, _, _, sized⟩ := call_within placed bounded legal safe
  exact ⟨h', ret, ran, sized⟩

theorem exact_iff_safe_booted : (Call.calloc 10 5).Exact booted.arena ↔ (Call.calloc 10 5).Safe booted.arena :=
  @exact_iff_safe 0x1000000 (.calloc 10 5) booted (fun _ => 0) [] (by decide) (.stop _) trivial

/-- The largest size is rounded to 0, and the product of a `calloc` of 2^32 bytes is 0. -/
theorem sizes_wrap : ¬ (Call.malloc 0xFFFFFFFF).Exact booted.arena ∧
    ¬ (Call.calloc 65536 65536).Exact booted.arena := by
  have first := init_layout (fun _ => 0) (show 0x1000000 + MemNode.sizeof < 2 ^ 32 by decide)
  have safe : ∀ call : Call, call.Legal booted.live → call.Exact booted.arena → call.Safe booted.arena :=
    fun call legal exact => safe_of_exact first.placed (Nat.le_of_lt first.bounded) legal exact
  constructor
  · intro exact
    rcases safe (.malloc 0xFFFFFFFF) trivial exact with ⟨list, chain, node, member, _⟩ | room
    · rw [chain.unique first.chain] at member
      cases member
    · exact absurd room (by decide +kernel)
  · intro exact
    exact absurd (safe (.calloc 65536 65536) trivial exact).1 (by decide)

end UmkaOs.Arena
