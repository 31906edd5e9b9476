import UmkaOs.Alloc.FreeList

namespace UmkaOs.Arena

open Lib

variable {start : Nat} {h : Allocator} {live : Live} {nodes freed : List Nat}

/-- Addresses that no header in `nodes` or the sentinel covers. -/
def Payload (start : Nat) (nodes : List Nat) (a : Nat) : Prop :=
  ∀ node ∈ start :: nodes, a < node ∨ node + MemNode.sizeof ≤ a

/-- The effect of handing out a block of `n` bytes at `ptr`. -/
structure Granted (start : Nat) (h h' : Allocator) (live : Live) (nodes : List Nat) (n ptr : Nat) : Prop where
  fresh : live ptr = none
  nonnull : ptr ≠ 0
  layout : ∃ nodes' freed', Layout start h' (Function.update live ptr (some n)) nodes' freed' ∧
    (∀ node ∈ nodes, node ∈ nodes') ∧
    ∀ a, Payload start nodes' a → h'.mem a = h.mem a
  sizes : ∀ node ∈ nodes, MemNode.size h'.mem node = MemNode.size h.mem node

/-- A free header's payload address is not owned. -/
theorem Placed.free_not_live (placed : Placed start h live nodes freed) {node : Nat}
    (member : node ∈ freed) : live (node + MemNode.sizeof) = none := by
  cases owns : live (node + MemNode.sizeof) with
  | none => rfl
  | some n =>
    obtain ⟨other, _, busy, same, _⟩ := placed.owned _ n owns
    have : other = node := by omega
    exact absurd (this ▸ member) busy

theorem update_isSome {ptr q : Nat} (owned : (live q).isSome) :
    (Function.update live ptr (some n) q).isSome := by
  by_cases same : q = ptr
  · subst same; simp
  · rwa [Function.update_of_ne same]

/-- Off the free list and into the client's hands: the part of the layout
that does not depend on how the list was relinked. -/
theorem Placed.grant {front back : List Nat} {x : Nat} {h' : Allocator}
    (placed : Placed start h live nodes (front ++ x :: back)) (fits : n ≤ MemNode.size h.mem x)
    (tail : h'.tail = h.tail) (carved : Carved h'.mem start h.tail nodes)
    (sizes : ∀ node ∈ start :: nodes, MemNode.size h'.mem node = MemNode.size h.mem node)
    (chain : Chain (MemNode.next h'.mem) 0 h'.free (front ++ back)) :
    Placed start h' (Function.update live (x + MemNode.sizeof) (some n)) nodes (front ++ back) := by
  have split := placed.chain.nodup
  have other : x ∉ front ++ back := (List.nodup_middle.mp split |> List.nodup_cons.mp).1
  have member : x ∈ nodes := placed.freed_sub x (by simp)
  have sub : ∀ node ∈ front ++ back, node ∈ front ++ x :: back := by
    intro node hn
    simp only [List.mem_append, List.mem_cons] at hn ⊢
    tauto
  refine {
    carved := tail ▸ carved
    near := placed.near
    chain := chain
    freed_sub := fun node hn => placed.freed_sub node (sub node hn)
    owned := ?_
    covered := ?_ }
  · intro ptr k owns
    by_cases same : ptr = x + MemNode.sizeof
    · subst same
      rw [Function.update_self] at owns
      cases owns
      exact ⟨x, member, other, rfl, by rwa [sizes x (List.mem_cons_of_mem _ member)]⟩
    · rw [Function.update_of_ne same] at owns
      obtain ⟨node, inside, busy, at_eq, small⟩ := placed.owned ptr k owns
      exact ⟨node, inside, fun hn => busy (sub node hn), at_eq,
        by rwa [sizes node (List.mem_cons_of_mem _ inside)]⟩
  · intro node inside
    rcases placed.covered node inside with free | owned
    · by_cases same : node = x
      · subst same; simp
      · left
        simp only [List.mem_append, List.mem_cons] at free ⊢
        tauto
    · exact .inr (update_isSome owned)

theorem Carved.relinked {m m' : Mem} {tail : Nat} (carved : Carved m start tail nodes)
    (relinked : Relinked nodes m m') :
    Carved m' start tail nodes ∧ (∀ a, Payload start nodes a → m' a = m a) ∧
      ∀ node ∈ start :: nodes, MemNode.size m' node = MemNode.size m node := by
  have apart : ∀ node ∈ start :: nodes, ∀ x ∈ nodes, HeadersApart x node :=
    fun node hn x hx => carved.headersApart (List.mem_cons_of_mem _ hx) hn
  have sizes : ∀ node ∈ start :: nodes, MemNode.size m' node = MemNode.size m node :=
    fun node hn => relinked.size (apart node hn)
  refine ⟨carved.congr sizes (fun node hn => relinked.check (apart node (List.mem_cons_of_mem _ hn))), ?_, sizes⟩
  intro a outside
  exact relinked.outside (fun node hn => outside node (List.mem_cons_of_mem _ hn))

theorem Placed.take {front back : List Nat} {x : Nat}
    (placed : Placed start h live nodes (front ++ x :: back)) (fits : n ≤ MemNode.size h.mem x) :
    ∃ h', h.take ((front.getLast?).getD 0) x = .ok (h', x + MemNode.sizeof) ∧ h'.tail = h.tail ∧
      Placed start h' (Function.update live (x + MemNode.sizeof) (some n)) nodes (front ++ back) ∧
      (∀ a, Payload start nodes a → h'.mem a = h.mem a) ∧
      ∀ node ∈ start :: nodes, MemNode.size h'.mem node = MemNode.size h.mem node := by
  obtain ⟨h', taken, tail, relinked, list⟩ := placed.freeList.take
  obtain ⟨carved, kept, sizes⟩ := placed.carved.relinked relinked
  rw [placed.freeList.data_eq (placed.freed_sub x (by simp))] at taken
  exact ⟨h', taken, tail, placed.grant fits tail carved sizes list.chain, kept, sizes⟩

theorem take_spec {front back : List Nat} {x : Nat}
    (layout : Layout start h live nodes (front ++ x :: back)) (fits : n ≤ MemNode.size h.mem x) :
    ∃ h', h.take ((front.getLast?).getD 0) x = .ok (h', x + MemNode.sizeof) ∧ h'.tail = h.tail ∧
      Granted start h h' live nodes n (x + MemNode.sizeof) ∧
      Layout start h' (Function.update live (x + MemNode.sizeof) (some n)) nodes (front ++ back) := by
  obtain ⟨h', taken, tail, placed, kept, sizes⟩ := layout.placed.take fits
  have same : h'.arenaEnd = h.arenaEnd := layout.carved.arenaEnd_eq tail sizes
  have granted := placed.layout (same ▸ layout.bounded)
  exact ⟨h', taken, tail, ⟨layout.placed.free_not_live (by simp), by simp [MemNode.sizeof],
    ⟨nodes, _, granted, fun _ hn => hn, kept⟩, fun node hn => sizes node (List.mem_cons_of_mem _ hn)⟩, granted⟩

/-- The rounded capacity of a request, without wrap-around. -/
def rounded (n : Nat) : Nat := n + (16 - n % 16)

/-- What carving writes, as long as the arena ends at an address. -/
theorem carve_header (n : Nat) (near : h.arenaEnd < 2 ^ 32) :
    (h.carve n).1.tail = h.arenaEnd ∧ (h.carve n).2 = wrap32 (h.arenaEnd + MemNode.sizeof) ∧
      MemNode.size (h.carve n).1.mem h.arenaEnd = wrap32 (rounded n) ∧
      MemNode.check (h.carve n).1.mem h.arenaEnd = MemNode.magic ∧
      ∀ a, a < h.arenaEnd ∨ h.arenaEnd + MemNode.sizeof ≤ a → (h.carve n).1.mem a = h.mem a := by
  have place : wrap32 (h.tail + MemNode.size h.mem h.tail + MemNode.sizeof) = h.arenaEnd := by
    rw [wrap32_of_lt (by unfold Allocator.arenaEnd at near; omega)]
    unfold Allocator.arenaEnd
    omega
  simp only [Allocator.carve, place, true_and]
  refine ⟨rfl, ?_, ?_, fun a outside => ?_⟩
  · rw [MemNode.size, MemNode.setSize, Mem.load32_store32 (wrap32_lt _), rounded]
  · rw [MemNode.check, MemNode.setSize, MemNode.setCheck, Mem.load32_store32_of_disjoint (by omega),
      Mem.load32_store32 (by decide)]
  · simp only [MemNode.sizeof] at outside
    rw [MemNode.setSize, Mem.store32_outside (by omega), MemNode.setCheck,
      Mem.store32_outside (by omega), MemNode.zero, Mem.fill_outside (by simp only [MemNode.sizeof]; omega)]

theorem Placed.carve (placed : Placed start h live nodes freed)
    (room : h.arenaEnd + MemNode.sizeof + rounded n ≤ 2 ^ 32) :
    (h.carve n).2 = h.arenaEnd + MemNode.sizeof ∧ (h.carve n).1.tail = h.arenaEnd ∧
      MemNode.size (h.carve n).1.mem h.arenaEnd = rounded n ∧ live (h.arenaEnd + MemNode.sizeof) = none ∧
      Placed start (h.carve n).1 (Function.update live (h.arenaEnd + MemNode.sizeof) (some n)) (h.arenaEnd :: nodes)
        freed ∧
      (∀ a, a < h.arenaEnd ∨ h.arenaEnd + MemNode.sizeof ≤ a → (h.carve n).1.mem a = h.mem a) ∧
      ∀ node ∈ start :: nodes, MemNode.size (h.carve n).1.mem node = MemNode.size h.mem node := by
  have positive : 0 < rounded n := by unfold rounded; omega
  obtain ⟨moved, ptr, size, checked, header⟩ := @carve_header h n (by omega)
  rw [wrap32_of_lt (by omega)] at ptr
  rw [wrap32_of_lt (by simp only [MemNode.sizeof] at room; omega)] at size
  -- the header is written below nothing that exists: every extent ends at or before it
  have below : ∀ node ∈ start :: nodes, node + MemNode.sizeof ≤ h.arenaEnd := fun node hn =>
    Nat.le_of_add_right_le (placed.carved.extent_le node hn)
  have word : ∀ node ∈ start :: nodes, ∀ k ≤ 8,
      (h.carve n).1.mem.load32 (node + k) = h.mem.load32 (node + k) := by
    intro node hn k small
    apply Mem.load32_congr
    intro i inside
    have := below node hn
    simp only [MemNode.sizeof] at this
    exact header _ (by omega)
  have sizes : ∀ node ∈ start :: nodes,
      MemNode.size (h.carve n).1.mem node = MemNode.size h.mem node :=
    fun node hn => word node hn 8 (by omega)
  have unlisted : h.arenaEnd ∉ nodes := by
    intro hn
    have := below _ (List.mem_cons_of_mem _ hn)
    simp only [MemNode.sizeof] at this
    omega
  have fresh : live (h.arenaEnd + MemNode.sizeof) = none := by
    cases owns : live (h.arenaEnd + MemNode.sizeof) with
    | none => rfl
    | some k =>
      obtain ⟨node, hn, _, same, _⟩ := placed.owned _ k owns
      have : node = h.arenaEnd := by omega
      exact absurd (this ▸ hn) unlisted
  refine ⟨ptr, moved, size, fresh, ?_, header, sizes⟩
  refine {
    carved := ?_
    near := ?_
    chain := ?_
    freed_sub := fun node hn => List.mem_cons_of_mem _ (placed.freed_sub node hn)
    owned := ?_
    covered := ?_ }
  · rw [moved]
    refine .carve (placed.carved.congr sizes
      (fun node hn => word node (List.mem_cons_of_mem _ hn) 0 (by omega))) ?_ checked ?_
    · rw [sizes _ placed.carved.tail_mem]; rfl
    · rw [size, rounded]; omega
  · intro node inside
    rcases List.mem_cons.mp inside with same | older
    · subst same; omega
    · exact placed.near node older
  · exact placed.chain.congr (fun node hn =>
      word node (List.mem_cons_of_mem _ (placed.freed_sub node hn)) 4 (by omega))
  · intro ptr k owns
    by_cases same : ptr = h.arenaEnd + MemNode.sizeof
    · subst same
      rw [Function.update_self] at owns
      cases owns
      refine ⟨h.arenaEnd, by simp, fun hn => unlisted (placed.freed_sub _ hn), rfl, ?_⟩
      rw [size, rounded]
      omega
    · rw [Function.update_of_ne same] at owns
      obtain ⟨node, inside, busy, at_eq, small⟩ := placed.owned ptr k owns
      exact ⟨node, List.mem_cons_of_mem _ inside, busy, at_eq,
        by rwa [sizes node (List.mem_cons_of_mem _ inside)]⟩
  · intro node inside
    rcases List.mem_cons.mp inside with same | older
    · subst same; simp
    · exact (placed.covered node older).imp id update_isSome

theorem carve_spec (layout : Layout start h live nodes freed) (fits : rounded n < 2 ^ 32)
    (room : (h.carve n).1.arenaEnd < 2 ^ 32) :
    Granted start h (h.carve n).1 live nodes n (h.carve n).2 ∧ (h.carve n).2 = h.arenaEnd + MemNode.sizeof ∧
      (h.carve n).1.tail = h.arenaEnd ∧ MemNode.size (h.carve n).1.mem h.arenaEnd = rounded n ∧
      Layout start (h.carve n).1 (Function.update live (h.arenaEnd + MemNode.sizeof) (some n)) (h.arenaEnd :: nodes)
        freed := by
  have end_eq : (h.carve n).1.arenaEnd = h.arenaEnd + MemNode.sizeof + rounded n := by
    obtain ⟨moved, _, size, _⟩ := carve_header n layout.bounded
    rw [Allocator.arenaEnd, moved, size, wrap32_of_lt fits]
  obtain ⟨ptr, moved, size, fresh, placed, header, sizes⟩ := @Placed.carve start h live nodes freed n layout.placed
    (by omega)
  have grown := placed.layout room
  refine ⟨?_, ptr, moved, size, grown⟩
  rw [ptr]
  exact ⟨fresh, by simp [MemNode.sizeof], ⟨h.arenaEnd :: nodes, freed, grown,
    fun node hn => List.mem_cons_of_mem _ hn, fun a outside => header a (outside h.arenaEnd (by simp))⟩,
    fun node hn => sizes node (List.mem_cons_of_mem _ hn)⟩

/-- What `allocatorAlloc` does to the layout: it takes the first listed block
that is large enough, or carves one if there is none. -/
inductive Outcome (start : Nat) (h h' : Allocator) (live : Live) (nodes freed : List Nat) (n : Nat) : Nat → Prop where
  | reuse (front back : List Nat) (x : Nat) (split : freed = front ++ x :: back)
      (passed : ∀ y ∈ front, MemNode.size h.mem y < n) (stays : h'.tail = h.tail)
      (layout : Layout start h' (Function.update live (x + MemNode.sizeof) (some n)) nodes (front ++ back)) :
      Outcome start h h' live nodes freed n (x + MemNode.sizeof)
  | carve (passed : ∀ y ∈ freed, MemNode.size h.mem y < n) (moved : h'.tail = h.arenaEnd)
      (size : MemNode.size h'.mem h.arenaEnd = rounded n)
      (layout : Layout start h' (Function.update live (h.arenaEnd + MemNode.sizeof) (some n)) (h.arenaEnd :: nodes)
        freed) :
      Outcome start h h' live nodes freed n (h.arenaEnd + MemNode.sizeof)

/-- How a call that asks for `request` bytes changes the carved blocks. -/
inductive Growth (h h' : Allocator) (nodes freed : List Nat) (request : Option Nat) (ret : Nat) : List Nat → Prop where
  | stays (sizes : ∀ node ∈ nodes, MemNode.size h'.mem node = MemNode.size h.mem node) (tail : h'.tail = h.tail) :
      Growth h h' nodes freed request ret nodes
  | carves (sizes : ∀ node ∈ nodes, MemNode.size h'.mem node = MemNode.size h.mem node) (n : Nat)
      (asked : request = some n) (passed : ∀ y ∈ freed, MemNode.size h.mem y < n) (tail : h'.tail = h.arenaEnd)
      (last : ret = h.arenaEnd + MemNode.sizeof) (size : MemNode.size h'.mem h.arenaEnd = rounded n) :
      Growth h h' nodes freed request ret (h.arenaEnd :: nodes)

theorem Outcome.growth {ptr : Nat} (outcome : Outcome start h h' live nodes freed n ptr)
    (sizes : ∀ node ∈ nodes, MemNode.size h'.mem node = MemNode.size h.mem node) :
    ∃ nodes' freed', Layout start h' (Function.update live ptr (some n)) nodes' freed' ∧
      Growth h h' nodes freed (some n) ptr nodes' := by
  cases outcome with
  | reuse front back x split passed stays layout => exact ⟨nodes, front ++ back, layout, .stays sizes stays⟩
  | carve passed moved size layout => exact ⟨_, freed, layout, .carves sizes n rfl passed moved rfl size⟩

/-- A later change that keeps the headers' sizes and the tail. -/
theorem Growth.after {nodes' : List Nat} {request : Option Nat} {ret : Nat} {h'' : Allocator}
    (growth : Growth h h' nodes freed request ret nodes') (tail : h''.tail = h'.tail)
    (same : ∀ node ∈ nodes', MemNode.size h''.mem node = MemNode.size h'.mem node) :
    Growth h h'' nodes freed request ret nodes' := by
  cases growth with
  | stays sizes stays =>
    exact .stays (fun node member => (same node member).trans (sizes node member)) (tail.trans stays)
  | carves sizes n asked passed moved last size =>
    refine .carves (fun node member => ?_) n asked passed (tail.trans moved) last ?_
    · exact (same node (List.mem_cons_of_mem _ member)).trans (sizes node member)
    · exact (same _ List.mem_cons_self).trans size

theorem carve_outcome (layout : Layout start h live nodes freed) (fits : rounded n < 2 ^ 32)
    (room : (h.carve n).1.arenaEnd < 2 ^ 32) (passed : ∀ y ∈ freed, MemNode.size h.mem y < n) :
    Granted start h (h.carve n).1 live nodes n (h.carve n).2 ∧
      Outcome start h (h.carve n).1 live nodes freed n (h.carve n).2 := by
  obtain ⟨granted, ptr, moved, size, placed⟩ := carve_spec layout fits room
  refine ⟨granted, ?_⟩
  rw [ptr]
  exact .carve passed moved size placed

/-- Every scan ends, and no assertion fires. -/
theorem alloc_spec (layout : Layout start h live nodes freed) (n : Nat) :
    ∃ h' ptr, h.allocatorAlloc n = .ok (h', ptr) ∧ (rounded n < 2 ^ 32 → h'.arenaEnd < 2 ^ 32 →
      Granted start h h' live nodes n ptr ∧ Outcome start h h' live nodes freed n ptr) := by
  rcases layout.placed.freeList.alloc_cases n with ⟨passed, carves⟩ | ⟨front, x, back, split, passed, large, takes⟩
  · exact ⟨_, _, carves, fun fits room => carve_outcome layout fits room passed⟩
  · subst split
    obtain ⟨h', taken, stays, granted, placed⟩ := take_spec layout large
    exact ⟨h', x + MemNode.sizeof, takes.trans taken, fun _ _ => ⟨granted, .reuse front back x rfl passed stays placed⟩⟩

theorem Placed.owner (placed : Placed start h live nodes freed) (owns : live ptr = some n) :
    ∃ node ∈ nodes, node ∉ freed ∧ ptr = node + MemNode.sizeof ∧ MemNode.ofData ptr = node ∧
      n ≤ MemNode.size h.mem node := by
  obtain ⟨node, member, busy, same, fits⟩ := placed.owned ptr n owns
  exact ⟨node, member, busy, same, same ▸ placed.freeList.ofData_eq member, fits⟩

theorem Layout.owner (layout : Layout start h live nodes freed) (owns : live ptr = some n) :
    ∃ node ∈ nodes, node ∉ freed ∧ ptr = node + MemNode.sizeof ∧ MemNode.ofData ptr = node ∧
      n ≤ MemNode.size h.mem node :=
  layout.placed.owner owns

theorem Placed.free (placed : Placed start h live nodes freed) (owns : live ptr = some n) :
    ∃ h', h.allocatorFree ptr = .ok h' ∧
      Placed start h' (Function.update live ptr none) nodes (MemNode.ofData ptr :: freed) ∧
      (∀ a, Payload start nodes a → h'.mem a = h.mem a) ∧ h'.tail = h.tail ∧
      ∀ node ∈ start :: nodes, MemNode.size h'.mem node = MemNode.size h.mem node := by
  obtain ⟨node, member, busy, same, back, _⟩ := placed.owner owns
  obtain ⟨h', ran, tail, relinked, list⟩ := placed.freeList.free member busy
  obtain ⟨carved, kept, sizes⟩ := placed.carved.relinked relinked
  rw [← same] at ran
  refine ⟨h', ran, ?_, kept, tail, sizes⟩
  rw [back]
  refine {
    carved := tail ▸ carved
    near := placed.near
    chain := list.chain
    freed_sub := list.freed_sub
    owned := ?_
    covered := ?_ }
  · intro q k ownsQ
    have other : q ≠ ptr := by
      intro clash
      simp [clash] at ownsQ
    rw [Function.update_of_ne other] at ownsQ
    obtain ⟨owner, hn, idle, at_eq, fits⟩ := placed.owned q k ownsQ
    refine ⟨owner, hn, ?_, at_eq, ?_⟩
    · intro listed
      rcases List.mem_cons.mp listed with first | later
      · exact other (by rw [at_eq, first, same])
      · exact idle later
    · rwa [sizes owner (List.mem_cons_of_mem _ hn)]
  · intro y hy
    by_cases first : y = node
    · left; simp [first]
    · rcases placed.covered y hy with free | owned
      · left; simp [free]
      · right
        rwa [Function.update_of_ne (by omega)]

theorem free_spec (layout : Layout start h live nodes freed) (owns : live ptr = some n) :
    ∃ h', h.allocatorFree ptr = .ok h' ∧
      Layout start h' (Function.update live ptr none) nodes (MemNode.ofData ptr :: freed) ∧
      (∀ a, Payload start nodes a → h'.mem a = h.mem a) ∧ h'.tail = h.tail ∧
      ∀ node ∈ nodes, MemNode.size h'.mem node = MemNode.size h.mem node := by
  obtain ⟨h', ran, placed, kept, tail, sizes⟩ := layout.placed.free owns
  have same : h'.arenaEnd = h.arenaEnd := layout.carved.arenaEnd_eq tail sizes
  exact ⟨h', ran, placed.layout (same ▸ layout.bounded), kept, tail,
    fun node hn => sizes node (List.mem_cons_of_mem _ hn)⟩

/-- The bytes of an owned block lie in no header. -/
theorem Layout.payload (layout : Layout start h live nodes freed) {node k : Nat}
    (member : node ∈ nodes) (inside : k < MemNode.size h.mem node) :
    Payload start nodes (node + MemNode.sizeof + k) := by
  intro other hn
  by_cases same : other = node
  · omega
  · have := layout.carved.apart other hn node (List.mem_cons_of_mem _ member) same
    omega

theorem Placed.live_apart (placed : Placed start h live nodes freed) {p q a b : Nat}
    (ownsP : live p = some a) (ownsQ : live q = some b) (other : p ≠ q) :
    p + MemNode.size h.mem (MemNode.ofData p) ≤ q ∨ q + MemNode.size h.mem (MemNode.ofData q) ≤ p := by
  obtain ⟨x, hx, _, atX, backX, _⟩ := placed.owner ownsP
  obtain ⟨y, hy, _, atY, backY, _⟩ := placed.owner ownsQ
  have := placed.carved.apart x (List.mem_cons_of_mem _ hx) y (List.mem_cons_of_mem _ hy) (by omega)
  rw [backX, backY]
  omega

theorem Layout.live_apart (layout : Layout start h live nodes freed) {p q a b : Nat}
    (ownsP : live p = some a) (ownsQ : live q = some b) (other : p ≠ q) :
    p + MemNode.size h.mem (MemNode.ofData p) ≤ q ∨ q + MemNode.size h.mem (MemNode.ofData q) ≤ p :=
  layout.placed.live_apart ownsP ownsQ other

/-- Changes confined to one owned block touch no header. -/
theorem Placed.block_write (placed : Placed start h live nodes freed) (owns : live ptr = some n) {m : Mem}
    (only : ∀ a, a < ptr ∨ ptr + n ≤ a → m a = h.mem a) :
    ∀ node ∈ start :: nodes, ∀ k < MemNode.sizeof, m (node + k) = h.mem (node + k) := by
  intro other hn k small
  obtain ⟨node, member, _, same, _, fits⟩ := placed.owner owns
  apply only
  by_cases eq : other = node
  · omega
  · have := placed.carved.apart other hn node (List.mem_cons_of_mem _ member) eq
    omega

end UmkaOs.Arena
