import UmkaOs.Alloc.Blocks
import UmkaOs.Lib.Run
import Mathlib.Algebra.Order.BigOperators.Group.Finset
import Mathlib.Data.Set.Card

namespace UmkaOs.Arena

open Lib

/-- The arena and the sizes last requested from it. -/
structure Heap where
  arena : Allocator
  live : Live

def Heap.init (m : Mem) (start : Nat) : Heap := ⟨Allocator.allocatorInit m start, fun _ => none⟩

/-- A legal call that fits. -/
structure Heap.Step (s : Heap) (call : Call) (s' : Heap) : Prop where
  legal : call.Legal s.live
  fits : call.Fits s.arena
  ran : ∃ ret, call.run s.arena = .ok (s'.arena, ret) ∧ s'.live = call.after s.live ret

/-- The header that a step carves, as the tail moves to it, and its original size. -/
def carvedBy (step : Heap × Call) : List (Nat × Nat) :=
  match step.2.run step.1.arena, step.2.request with
  | .ok after, some size => if after.1.tail = step.1.arena.tail then [] else [(after.1.tail, rounded size)]
  | _, _ => []

/-- The blocks ever carved in these steps. -/
def carvings (steps : List (Heap × Call)) : List (Nat × Nat) := steps.flatMap carvedBy

variable {start : Nat} {s s' last : Heap} {call : Call} {past steps : List (Heap × Call)} {m : Mem}
  {h h' : Allocator} {live : Live} {nodes nodes' freed : List Nat} {ret : Nat}

theorem Carved.nodup (carved : Carved m start tail nodes) : nodes.Nodup := by
  induction carved with
  | sentinel => exact List.nodup_nil
  | carve earlier adjacent _ _ ih =>
    refine List.nodup_cons.mpr ⟨fun member => ?_, ih⟩
    have below := earlier.extent_le _ (List.mem_cons_of_mem _ member)
    simp only [MemNode.sizeof] at below adjacent
    omega

/-- What holds after a run, the carved blocks being those of its steps. -/
structure Kept (start : Nat) (s : Heap) (past : List (Heap × Call)) : Prop where
  layout : ∃ freed, Layout start s.arena s.live ((carvings past).map Prod.fst).reverse freed
  sizes : ∀ block ∈ carvings past, MemNode.size s.arena.mem block.1 = block.2

/-- A carved block lies behind all others, and no free block was large enough. -/
theorem Growth.carved (ran : call.run s.arena = .ok (h', ret))
    (growth : Growth s.arena h' nodes freed call.request ret nodes') :
    nodes' = ((carvedBy (s, call)).map Prod.fst).reverse ++ nodes ∧ ∀ block ∈ carvedBy (s, call),
      ret = block.1 + MemNode.sizeof ∧ MemNode.size h'.mem block.1 = block.2 ∧
        ∀ y ∈ freed, MemNode.size s.arena.mem y < block.2 := by
  cases growth with
  | stays sizes tail =>
    have none : carvedBy (s, call) = [] := by
      cases asked : call.request <;> simp [carvedBy, ran, asked, tail]
    simp [none]
  | carves sizes n asked passed tail ends size =>
    have moved : s.arena.arenaEnd ≠ s.arena.tail := by
      rw [Allocator.arenaEnd, MemNode.sizeof]
      omega
    have one : carvedBy (s, call) = [(s.arena.arenaEnd, rounded n)] := by
      simp [carvedBy, ran, asked, tail, moved]
    simp only [one, List.map_cons, List.map_nil, List.reverse_singleton, List.singleton_append, List.mem_singleton,
      forall_eq, true_and]
    refine ⟨ends, size, fun y member => ?_⟩
    have less := passed y member
    rw [rounded]
    omega

theorem Growth.sizes (growth : Growth h h' nodes freed request ret nodes') :
    ∀ node ∈ nodes, MemNode.size h'.mem node = MemNode.size h.mem node := by
  cases growth with
  | stays sizes => exact sizes
  | carves sizes => exact sizes

/-- What one step does, as far as the carved blocks go. -/
theorem Kept.step_spec (kept : Kept start s past) (step : s.Step call s') : ∃ ret freed,
    call.run s.arena = .ok (s'.arena, ret) ∧
    Layout start s.arena s.live ((carvings past).map Prod.fst).reverse freed ∧
    Growth s.arena s'.arena ((carvings past).map Prod.fst).reverse freed call.request ret
      ((carvings (past ++ [(s, call)])).map Prod.fst).reverse ∧
    Kept start s' (past ++ [(s, call)]) := by
  obtain ⟨freed, layout⟩ := kept.layout
  obtain ⟨ret, ran, live⟩ := step.ran
  obtain ⟨h', ret', nodes', freed', ran', placed, growth, _⟩ := call_refines layout step.legal step.fits
  cases ran.symm.trans ran'
  obtain ⟨nodes, blocks⟩ := growth.carved ran
  have more : carvings (past ++ [(s, call)]) = carvings past ++ carvedBy (s, call) := by simp [carvings]
  have whole : nodes' = ((carvings (past ++ [(s, call)])).map Prod.fst).reverse := by
    rw [nodes, more, List.map_append, List.reverse_append]
  rw [whole] at placed growth
  refine ⟨ret, freed, ran, layout, growth, ⟨freed', live ▸ placed⟩, fun block member => ?_⟩
  rw [more] at member
  rcases List.mem_append.mp member with old | new
  · have listed : block.1 ∈ ((carvings past).map Prod.fst).reverse :=
      List.mem_reverse.mpr (List.mem_map_of_mem old)
    rw [growth.sizes _ listed, kept.sizes block old]
  · exact (blocks block new).2.1

theorem Kept.step (kept : Kept start s past) (step : s.Step call s') : Kept start s' (past ++ [(s, call)]) := by
  obtain ⟨_, _, _, _, _, next⟩ := kept.step_spec step
  exact next

theorem kept_init (m : Mem) (small : start + MemNode.sizeof < 2 ^ 32) : Kept start (Heap.init m start) [] where
  layout := ⟨[], init_layout m small⟩
  sizes := by simp [carvings]

/-- Carved blocks are free or live and never both, keep what was written at
carving, and every scan and every call ends without an assertion. -/
structure Partition (s : Heap) (blocks : List (Nat × Nat)) : Prop where
  distinct : (blocks.map Prod.fst).Nodup
  recorded : ∀ block ∈ blocks, MemNode.check s.arena.mem block.1 = MemNode.magic ∧
    MemNode.size s.arena.mem block.1 = block.2
  parts : ∃ freed, Chain (MemNode.next s.arena.mem) 0 s.arena.free freed ∧ freed.Nodup ∧
    (∀ node ∈ freed, ∃ block ∈ blocks, block.1 = node) ∧
    ∀ block ∈ blocks, Xor (block.1 ∈ freed) (s.live (block.1 + MemNode.sizeof)).isSome
  owned : ∀ ptr, (s.live ptr).isSome → ∃ block ∈ blocks, ptr = block.1 + MemNode.sizeof
  scans : ∀ size, ∃ after, s.arena.allocatorAlloc size = .ok after
  serves : ∀ call : Call, call.Legal s.live → call.Fits s.arena → ∃ after, call.run s.arena = .ok after

theorem Kept.partition (kept : Kept start s past) : Partition s (carvings past) := by
  obtain ⟨freed, layout⟩ := kept.layout
  have listed : ∀ {node}, node ∈ ((carvings past).map Prod.fst).reverse → ∃ block ∈ carvings past, block.1 = node := by
    intro node member
    exact List.mem_map.mp (List.mem_reverse.mp member)
  have carved : ∀ block ∈ carvings past, block.1 ∈ ((carvings past).map Prod.fst).reverse :=
    fun block member => List.mem_reverse.mpr (List.mem_map_of_mem member)
  refine {
    distinct := List.nodup_reverse.mp layout.carved.nodup
    recorded := fun block member => ⟨(layout.carved.checked _ (carved block member)).1, kept.sizes block member⟩
    parts := ⟨freed, layout.chain, layout.chain.nodup, fun node member => listed (layout.freed_sub node member), ?_⟩
    owned := ?_
    scans := ?_
    serves := ?_ }
  · intro block member
    rcases layout.covered _ (carved block member) with free | live
    · exact .inl ⟨free, by simp [layout.placed.free_not_live free]⟩
    · refine .inr ⟨live, fun free => ?_⟩
      simp [layout.placed.free_not_live free] at live
  · intro ptr live
    obtain ⟨n, owns⟩ := Option.isSome_iff_exists.mp live
    obtain ⟨node, member, _, same, _⟩ := layout.owned ptr n owns
    obtain ⟨block, inside, rfl⟩ := listed member
    exact ⟨block, inside, same⟩
  · intro size
    obtain ⟨h', ptr, ran, _⟩ := alloc_spec layout size
    exact ⟨_, ran⟩
  · intro call legal fits
    obtain ⟨h', ret, _, _, ran, _⟩ := call_refines layout legal fits
    exact ⟨_, ran⟩

/-- In every state a run from `allocatorInit` reaches. -/
theorem free_list_partition (small : start + MemNode.sizeof < 2 ^ 32)
    (run : Run Heap.Step (Heap.init m start) steps last) : Partition last (carvings steps) := by
  have kept := @Run.history _ _ _ _ _ _ (Kept start) (fun kept step => kept.step step) run [] (kept_init m small)
  exact kept.partition

/-- The state after a call that returns. -/
def Heap.next (s : Heap) (call : Call) : Heap :=
  match call.run s.arena with
  | .ok after => ⟨after.1, call.after s.live after.2⟩
  | .error _ => s

theorem room_of {size ptr : Nat} (fits : rounded size < 2 ^ 32) (ran : h.allocatorAlloc size = .ok (h', ptr))
    (below : h'.arenaEnd < 2 ^ 32) : Room h size := by
  refine ⟨fits, fun _ _ again => ?_⟩
  cases ran.symm.trans again
  exact below

/-- The arena `kmain` sets up. -/
def booted : Heap := Heap.init (fun _ => 0) 0x1000000

/-- A block grows and its old place is used again. -/
def growing : List Call := [.malloc 50, .realloc 0x1000020 1000, .malloc 50]

theorem growing_run : Run Heap.Step booted (trace Heap.next booted growing) (growing.foldl Heap.next booted) := by
  have first : booted.Step (.malloc 50) (booted.next (.malloc 50)) :=
    ⟨trivial, room_of (by decide) rfl (by decide +kernel), _, rfl, rfl⟩
  have second : (booted.next (.malloc 50)).Step (.realloc 0x1000020 1000)
      ((booted.next (.malloc 50)).next (.realloc 0x1000020 1000)) :=
    ⟨.inr (by decide +kernel), fun _ => room_of (by decide) rfl (by decide +kernel), _, rfl, rfl⟩
  have third : ((booted.next (.malloc 50)).next (.realloc 0x1000020 1000)).Step (.malloc 50)
      (((booted.next (.malloc 50)).next (.realloc 0x1000020 1000)).next (.malloc 50)) :=
    ⟨trivial, room_of (by decide) rfl (by decide +kernel), _, rfl, rfl⟩
  exact .next first (.next second (.next third (.stop _)))

theorem free_list_partition_growing :
    Partition (growing.foldl Heap.next booted) (carvings (trace Heap.next booted growing)) :=
  free_list_partition (by decide) growing_run

/-- Ownership while a call runs: `realloc` has its new block beside the old one. -/
def Call.holding (live : Live) (ret : Nat) : Call → Live
  | .malloc size => Function.update live ret (some size)
  | .calloc nmemb size => Function.update live ret (some (nmemb * size))
  | .realloc _ size => Function.update live ret (some size)
  | .free _ | .write _ _ _ => live

/-- The blocks of the given capacities that are live at one moment of a step. -/
def heldBy (cap : Nat → Prop) (step : Heap × Call) : Set Nat :=
  match step.2.run step.1.arena with
  | .ok after => {p | (step.2.holding step.1.live after.2 p).isSome ∧ cap (capacity after.1 p)}
  | .error _ => ∅

/-- The largest number of blocks of the given capacities that are live at the
same moment of a run. -/
noncomputable def peak (cap : Nat → Prop) (steps : List (Heap × Call)) : Nat :=
  (steps.map fun step => (heldBy cap step).ncard).foldr max 0

/-- How many blocks of capacity `c` a run carves. -/
def carvedOf (c : Nat) (steps : List (Heap × Call)) : Nat := ((carvings steps).map Prod.snd).count c

/-- The rounded sizes that a run requests. -/
def requests (steps : List (Heap × Call)) : Finset Nat := ((steps.filterMap (·.2.request)).map rounded).toFinset

theorem le_peak {cap : Nat → Prop} {step : Heap × Call} (member : step ∈ steps) :
    (heldBy cap step).ncard ≤ peak cap steps := by
  induction steps with
  | nil => cases member
  | cons first rest ih =>
    simp only [peak, List.map_cons, List.foldr_cons]
    rcases List.mem_cons.mp member with rfl | later
    · exact le_max_left ..
    · exact (ih later).trans (le_max_right ..)

theorem peak_le {cap : Nat → Prop} {bound : Nat} (all : ∀ step ∈ steps, (heldBy cap step).ncard ≤ bound) :
    peak cap steps ≤ bound := by
  induction steps with
  | nil => exact Nat.zero_le _
  | cons first rest ih =>
    simp only [peak, List.map_cons, List.foldr_cons]
    exact max_le (all first (by simp)) (ih fun step member => all step (List.mem_cons_of_mem _ member))

theorem holding_isSome {p : Nat} (owned : (live p).isSome) : (call.holding live ret p).isSome := by
  cases call <;> simp only [Call.holding] <;> first | exact owned | exact update_isSome owned

theorem holding_ret {n : Nat} (asked : call.request = some n) : (call.holding live ret ret).isSome := by
  cases call <;> simp [Call.holding, Call.request] at asked ⊢

theorem of_holding {p : Nat} (held : (call.holding live ret p).isSome) : p = ret ∨ (live p).isSome := by
  by_cases same : p = ret
  · exact .inl same
  · refine .inr ?_
    cases call <;> simpa [Call.holding, Function.update_of_ne same] using held

theorem carvedBy_request {block : Nat × Nat} {step : Heap × Call} (member : block ∈ carvedBy step) :
    ∃ n, step.2.request = some n ∧ block.2 = rounded n := by
  rw [carvedBy] at member
  split at member
  · rename_i after size _ asked
    split at member
    · cases member
    · exact ⟨size, asked, by rw [List.mem_singleton.mp member]⟩
  · cases member

theorem Kept.capacity (kept : Kept start s past) {block : Nat × Nat} (member : block ∈ carvings past) :
    capacity s.arena (block.1 + MemNode.sizeof) = block.2 := by
  obtain ⟨freed, layout⟩ := kept.layout
  have listed : block.1 ∈ ((carvings past).map Prod.fst).reverse := List.mem_reverse.mpr (List.mem_map_of_mem member)
  rw [Arena.capacity, layout.placed.freeList.ofData_eq listed, kept.sizes block member]

theorem held_finite (kept : Kept start s past) (step : s.Step call s') (cap : Nat → Prop) :
    (heldBy cap (s, call)).Finite := by
  obtain ⟨ret, _, ran, _⟩ := kept.step_spec step
  let pointers := ret :: (carvings past).map fun block => block.1 + MemNode.sizeof
  refine pointers.toFinset.finite_toSet.subset fun p held => ?_
  simp only [heldBy, ran, Set.mem_ofPred_eq] at held
  refine Finset.mem_coe.mpr (List.mem_toFinset.mpr ?_)
  rcases of_holding held.1 with rfl | live
  · exact List.mem_cons_self
  · obtain ⟨block, member, rfl⟩ := kept.partition.owned p live
    exact List.mem_cons_of_mem _ (List.mem_map_of_mem (f := fun block => block.1 + MemNode.sizeof) member)

/-- When a block is carved, all blocks of its capacity are live: a free one
would have been large enough. -/
theorem carvedOf_le_held (kept : Kept start s past) (step : s.Step call s') {block : Nat × Nat}
    (member : block ∈ carvedBy (s, call)) :
    carvedOf block.2 (past ++ [(s, call)]) ≤ (heldBy (· = block.2) (s, call)).ncard := by
  obtain ⟨ret, freed, ran, layout, growth, next⟩ := kept.step_spec step
  have more : carvings (past ++ [(s, call)]) = carvings past ++ carvedBy (s, call) := by simp [carvings]
  have news := (growth.carved ran).2
  let same := (carvings (past ++ [(s, call)])).filter fun other => other.2 = block.2
  let pointers := same.map fun other => other.1 + MemNode.sizeof
  have count : carvedOf block.2 (past ++ [(s, call)]) = pointers.length := by
    rw [carvedOf, List.count_eq_countP, List.countP_map, List.countP_eq_length_filter, List.length_map]
    rfl
  have distinct : pointers.Nodup := by
    have nodes : (same.map Prod.fst).Nodup := next.partition.distinct.sublist (List.filter_sublist.map _)
    have shifted := nodes.map fun _ _ same => Nat.add_right_cancel (m := MemNode.sizeof) same
    rwa [List.map_map] at shifted
  have held : (pointers.toFinset : Set Nat) ⊆ heldBy (· = block.2) (s, call) := by
    intro p listed
    obtain ⟨other, chosen, rfl⟩ := List.mem_map.mp (List.mem_toFinset.mp (Finset.mem_coe.mp listed))
    obtain ⟨carved, size⟩ := List.mem_filter.mp chosen
    have size : other.2 = block.2 := by simpa using size
    simp only [heldBy, ran, Set.mem_ofPred_eq]
    refine ⟨?_, (next.capacity carved).trans size⟩
    rw [more] at carved
    rcases List.mem_append.mp carved with old | new
    · have node : other.1 ∈ ((carvings past).map Prod.fst).reverse :=
        List.mem_reverse.mpr (List.mem_map_of_mem old)
      have busy : other.1 ∉ freed := by
        intro free
        have less := (news block member).2.2 other.1 free
        rw [kept.sizes other old, size] at less
        exact absurd less (Nat.lt_irrefl _)
      exact holding_isSome ((layout.covered _ node).resolve_left busy)
    · obtain ⟨n, asked, _⟩ := carvedBy_request new
      rw [← (news other new).1]
      exact holding_ret asked
  calc carvedOf block.2 (past ++ [(s, call)]) = pointers.toFinset.card := by
        rw [count, List.toFinset_card_of_nodup distinct]
    _ = (pointers.toFinset : Set Nat).ncard := (Set.ncard_coe_finset _).symm
    _ ≤ (heldBy (· = block.2) (s, call)).ncard := Set.ncard_le_ncard held (held_finite kept step _)

/-- The growth of the arena is bounded so far. -/
structure Bounded (start : Nat) (s : Heap) (past : List (Heap × Call)) : Prop where
  kept : Kept start s past
  counts : ∀ c, carvedOf c past ≤ peak (· = c) past
  finite : ∀ step ∈ past, (heldBy (fun _ => True) step).Finite

theorem Bounded.step (bounded : Bounded start s past) (step : s.Step call s') :
    Bounded start s' (past ++ [(s, call)]) := by
  refine ⟨bounded.kept.step step, fun c => ?_, fun other member => ?_⟩
  · by_cases here : ∃ block ∈ carvedBy (s, call), block.2 = c
    · obtain ⟨block, member, rfl⟩ := here
      exact (carvedOf_le_held bounded.kept step member).trans (le_peak (by simp))
    · have none : ((carvedBy (s, call)).map Prod.snd).count c = 0 := by
        refine List.count_eq_zero.mpr fun member => here ?_
        exact List.mem_map.mp member
      have same : carvedOf c (past ++ [(s, call)]) = carvedOf c past := by
        simp [carvedOf, carvings, none]
      rw [same]
      exact (bounded.counts c).trans (peak_le fun other member => le_peak (List.mem_append_left _ member))
  · rcases List.mem_append.mp member with old | new
    · exact bounded.finite other old
    · rw [List.mem_singleton.mp new]
      exact held_finite bounded.kept step _

theorem bounded_init (m : Mem) (small : start + MemNode.sizeof < 2 ^ 32) : Bounded start (Heap.init m start) [] where
  kept := kept_init m small
  counts := by simp [carvedOf, carvings]
  finite := by simp

theorem Bounded.total (bounded : Bounded start s past) :
    (carvings past).length ≤ peak (fun _ => True) past * (requests past).card := by
  have classes : ((carvings past).map Prod.snd).toFinset ⊆ requests past := by
    intro c member
    obtain ⟨block, carved, rfl⟩ := List.mem_map.mp (List.mem_toFinset.mp member)
    obtain ⟨step, listed, inside⟩ := List.mem_flatMap.mp carved
    obtain ⟨n, asked, size⟩ := carvedBy_request inside
    rw [size]
    refine List.mem_toFinset.mpr (List.mem_map_of_mem ?_)
    exact List.mem_filterMap.mpr ⟨step, listed, asked⟩
  have each : ∀ c, carvedOf c past ≤ peak (fun _ => True) past := by
    intro c
    refine (bounded.counts c).trans (peak_le fun step member => le_trans ?_ (le_peak member))
    refine Set.ncard_le_ncard (fun p held => ?_) (bounded.finite step member)
    rw [heldBy] at held ⊢
    split at held
    · exact ⟨held.1, trivial⟩
    · exact held
  calc (carvings past).length = ((carvings past).map Prod.snd).length := (List.length_map _).symm
    _ = ∑ c ∈ ((carvings past).map Prod.snd).toFinset, carvedOf c past := (List.sum_toFinset_count_eq_length _).symm
    _ ≤ ((carvings past).map Prod.snd).toFinset.card * peak (fun _ => True) past :=
        Finset.sum_le_card_nsmul _ _ _ fun c _ => each c
    _ ≤ peak (fun _ => True) past * (requests past).card := by
        rw [Nat.mul_comm]
        exact Nat.mul_le_mul_left _ (Finset.card_le_card classes)

/-- Carved blocks of one capacity are at most those of it that were live at one
moment, and so the arena stays within the live blocks times the request sizes. -/
theorem arena_growth (small : start + MemNode.sizeof < 2 ^ 32)
    (run : Run Heap.Step (Heap.init m start) steps last) :
    (∀ c, carvedOf c steps ≤ peak (· = c) steps) ∧
      ∀ most sizes, peak (fun _ => True) steps ≤ most → (requests steps).card ≤ sizes →
        (carvings steps).length ≤ most * sizes := by
  have bounded := @Run.history _ _ _ _ _ _ (Bounded start) (fun bounded step => bounded.step step) run []
    (bounded_init m small)
  refine ⟨bounded.counts, fun most sizes live asked => ?_⟩
  exact bounded.total.trans (Nat.mul_le_mul live asked)

theorem arena_growth_growing :
    (∀ c, carvedOf c (trace Heap.next booted growing) ≤ peak (· = c) (trace Heap.next booted growing)) ∧
      ∀ most sizes, peak (fun _ => True) (trace Heap.next booted growing) ≤ most →
        (requests (trace Heap.next booted growing)).card ≤ sizes →
        (carvings (trace Heap.next booted growing)).length ≤ most * sizes :=
  arena_growth (by decide) growing_run

end UmkaOs.Arena
