import UmkaOs.Alloc.Model
import UmkaOs.Lib.Chain
import Mathlib.Data.Finset.Card
import Mathlib.Data.Finset.Range

namespace UmkaOs.Arena

open Lib

/-- Headers carved so far behind the sentinel at `start`, newest first. Each
begins where the extent of the previous one ends. -/
inductive Carved (m : Mem) (start : Nat) : Nat → List Nat → Prop where
  | sentinel (empty : MemNode.size m start = 0) : Carved m start start []
  | carve (earlier : Carved m start tail nodes)
      (adjacent : node = tail + MemNode.sizeof + MemNode.size m tail)
      (checked : MemNode.check m node = MemNode.magic)
      (rounded : 16 ∣ MemNode.size m node) : Carved m start node (node :: nodes)

theorem Carved.tail_mem (carved : Carved m start tail nodes) : tail ∈ start :: nodes := by
  cases carved <;> simp

theorem Carved.checked (carved : Carved m start tail nodes) :
    ∀ node ∈ nodes, MemNode.check m node = MemNode.magic ∧ 16 ∣ MemNode.size m node := by
  induction carved with
  | sentinel => simp
  | carve earlier adjacent checked rounded ih =>
    intro node member
    rcases List.mem_cons.mp member with same | older
    · subst same; exact ⟨checked, rounded⟩
    · exact ih node older

theorem Carved.start_le (carved : Carved m start tail nodes) :
    ∀ node ∈ nodes, start + MemNode.sizeof ≤ node := by
  induction carved with
  | sentinel => simp
  | @carve tail nodes node earlier adjacent _ _ ih =>
    intro other member
    rcases List.mem_cons.mp member with same | older
    · subst same
      have low : start ≤ tail := by
        rcases List.mem_cons.mp earlier.tail_mem with same | before
        · omega
        · exact Nat.le_of_add_right_le (ih _ before)
      omega
    · exact ih other older

/-- Every header's extent lies below the end of the arena. -/
theorem Carved.extent_le (carved : Carved m start tail nodes) :
    ∀ node ∈ start :: nodes,
      node + MemNode.sizeof + MemNode.size m node ≤ tail + MemNode.sizeof + MemNode.size m tail := by
  induction carved with
  | sentinel => simp
  | carve earlier adjacent _ _ ih =>
    intro other member
    rw [List.mem_cons, List.mem_cons] at member
    rcases member with first | same | older
    · have := ih other (by simp [first])
      omega
    · subst same; omega
    · have := ih other (by simp [older])
      omega

/-- The extents of two different headers do not meet. -/
theorem Carved.apart (carved : Carved m start tail nodes) :
    ∀ x ∈ start :: nodes, ∀ y ∈ start :: nodes, x ≠ y →
      x + MemNode.sizeof + MemNode.size m x ≤ y ∨ y + MemNode.sizeof + MemNode.size m y ≤ x := by
  induction carved with
  | sentinel =>
    intro x hx y hy other
    simp at hx hy
    exact absurd (hx.trans hy.symm) other
  | @carve tail nodes node earlier adjacent _ _ ih =>
    have below := earlier.extent_le
    intro x hx y hy other
    have newest : ∀ z, z ∈ start :: node :: nodes → z = node ∨ z ∈ start :: nodes := by
      intro z hz
      simp only [List.mem_cons] at hz ⊢
      tauto
    rcases newest x hx with hx | hx <;> rcases newest y hy with hy | hy
    · exact absurd (hx.trans hy.symm) other
    · have := below y hy
      omega
    · have := below x hx
      omega
    · exact ih x hx y hy other

theorem Carved.aligned (carved : Carved m start tail nodes) (aligned : 16 ∣ start) :
    ∀ node ∈ start :: nodes, 16 ∣ node := by
  induction carved with
  | sentinel => simpa using aligned
  | @carve tail nodes node earlier adjacent _ _ ih =>
    have evenTail := ih _ earlier.tail_mem
    have evenSize : 16 ∣ MemNode.size m tail := by
      rcases List.mem_cons.mp earlier.tail_mem with same | older
      · cases earlier with
        | sentinel empty => simp [empty]
        | carve earlier adjacent _ rounded => exact rounded
      · exact (earlier.checked tail older).2
    intro other member
    rw [List.mem_cons, List.mem_cons] at member
    rcases member with first | same | older
    · exact first ▸ aligned
    · subst same
      rw [adjacent]
      exact Nat.dvd_add (Nat.dvd_add evenTail (by decide)) evenSize
    · exact ih other (by simp [older])

theorem Carved.next_mem (carved : Carved m start tail nodes) :
    ∀ node ∈ start :: nodes, node ≠ tail →
      node + MemNode.sizeof + MemNode.size m node ∈ start :: nodes := by
  induction carved with
  | sentinel => simp
  | @carve tail nodes node earlier adjacent _ _ ih =>
    intro other member unequal
    have older : other ∈ start :: nodes := by
      simp only [List.mem_cons] at member ⊢
      tauto
    by_cases last : other = tail
    · subst last; simp [adjacent]
    · have := ih other older last
      simp only [List.mem_cons] at this ⊢
      tauto

/-- Only the sizes and check words of the carved headers matter. -/
theorem Carved.congr (carved : Carved m start tail nodes)
    (sizes : ∀ node ∈ start :: nodes, MemNode.size m' node = MemNode.size m node)
    (checks : ∀ node ∈ nodes, MemNode.check m' node = MemNode.check m node) :
    Carved m' start tail nodes := by
  induction carved with
  | sentinel empty => exact .sentinel (by rw [sizes start (by simp), empty])
  | @carve tail nodes node earlier adjacent checked rounded ih =>
    have older : ∀ other ∈ start :: nodes, other ∈ start :: node :: nodes := by
      intro other member
      simp only [List.mem_cons] at member ⊢
      tauto
    refine .carve (ih (fun other member => sizes other (older other member))
      (fun other member => checks other (by simp [member]))) ?_ ?_ ?_
    · rw [sizes _ (older _ earlier.tail_mem), adjacent]
    · rw [checks node (by simp), checked]
    · rwa [sizes node (by simp)]

/-- The size the client last requested for each pointer it owns. -/
abbrev Live := Nat → Option Nat

/-- What holds between calls: `nodes` are the carved headers, `freed` the free
list in order. -/
structure Layout (start : Nat) (h : Allocator) (live : Live) (nodes freed : List Nat) : Prop where
  carved : Carved h.mem start h.tail nodes
  bounded : h.arenaEnd < 2 ^ 32
  chain : Chain (MemNode.next h.mem) 0 h.free freed
  freed_sub : ∀ node ∈ freed, node ∈ nodes
  owned : ∀ ptr n, live ptr = some n → ∃ node ∈ nodes, node ∉ freed ∧
    ptr = node + MemNode.sizeof ∧ n ≤ MemNode.size h.mem node
  covered : ∀ node ∈ nodes, node ∈ freed ∨ (live (node + MemNode.sizeof)).isSome

/-- The layout without its bound on the arena: only the data of each block has to
have an address. -/
structure Placed (start : Nat) (h : Allocator) (live : Live) (nodes freed : List Nat) : Prop where
  carved : Carved h.mem start h.tail nodes
  near : ∀ node ∈ nodes, node + MemNode.sizeof < 2 ^ 32
  chain : Chain (MemNode.next h.mem) 0 h.free freed
  freed_sub : ∀ node ∈ freed, node ∈ nodes
  owned : ∀ ptr n, live ptr = some n → ∃ node ∈ nodes, node ∉ freed ∧
    ptr = node + MemNode.sizeof ∧ n ≤ MemNode.size h.mem node
  covered : ∀ node ∈ nodes, node ∈ freed ∨ (live (node + MemNode.sizeof)).isSome

variable {h : Allocator} {live : Live} {nodes freed : List Nat} {start : Nat}

theorem Carved.arenaEnd_eq {h h' : Allocator} (carved : Carved h.mem start h.tail nodes) (tail : h'.tail = h.tail)
    (sizes : ∀ node ∈ start :: nodes, MemNode.size h'.mem node = MemNode.size h.mem node) :
    h'.arenaEnd = h.arenaEnd := by
  rw [Allocator.arenaEnd, Allocator.arenaEnd, tail, sizes _ carved.tail_mem]

theorem Layout.placed (layout : Layout start h live nodes freed) : Placed start h live nodes freed where
  carved := layout.carved
  near node member := by
    have small := layout.carved.extent_le node (List.mem_cons_of_mem _ member)
    have bounded := layout.bounded
    unfold Allocator.arenaEnd at bounded
    omega
  chain := layout.chain
  freed_sub := layout.freed_sub
  owned := layout.owned
  covered := layout.covered

namespace Placed

theorem layout (placed : Placed start h live nodes freed) (bounded : h.arenaEnd < 2 ^ 32) :
    Layout start h live nodes freed where
  carved := placed.carved
  bounded := bounded
  chain := placed.chain
  freed_sub := placed.freed_sub
  owned := placed.owned
  covered := placed.covered

theorem node_pos (placed : Placed start h live nodes freed) {node : Nat} (member : node ∈ nodes) :
    node ≠ 0 := by
  have := placed.carved.start_le node member
  simp only [MemNode.sizeof] at this
  omega

theorem word_congr {m m' : Mem} {node : Nat} (agree : ∀ k < MemNode.sizeof, m' (node + k) = m (node + k)) :
    ∀ k ≤ 8, m'.load32 (node + k) = m.load32 (node + k) := by
  intro k small
  apply Mem.load32_congr
  intro i inside
  have := agree (k + i) (by simp only [MemNode.sizeof]; omega)
  simpa only [Nat.add_assoc] using this

/-- Memory may change anywhere outside the headers. -/
theorem congr_mem (placed : Placed start h live nodes freed) {m : Mem}
    (agree : ∀ node ∈ start :: nodes, ∀ k < MemNode.sizeof, m (node + k) = h.mem (node + k)) :
    Placed start { h with mem := m } live nodes freed ∧
      (∀ node ∈ start :: nodes, MemNode.size m node = MemNode.size h.mem node) ∧
      ({ h with mem := m } : Allocator).arenaEnd = h.arenaEnd := by
  have word : ∀ node ∈ start :: nodes, ∀ k ≤ 8, m.load32 (node + k) = h.mem.load32 (node + k) :=
    fun node member => word_congr (agree node member)
  have sizes : ∀ node ∈ start :: nodes, MemNode.size m node = MemNode.size h.mem node :=
    fun node member => word node member 8 (by omega)
  have ends : ({ h with mem := m } : Allocator).arenaEnd = h.arenaEnd := placed.carved.arenaEnd_eq rfl sizes
  refine ⟨?_, sizes, ends⟩
  refine {
    carved := placed.carved.congr sizes
      (fun node member => word node (List.mem_cons_of_mem _ member) 0 (by omega))
    near := placed.near
    chain := placed.chain.congr (fun node member =>
      word node (List.mem_cons_of_mem _ (placed.freed_sub node member)) 4 (by omega))
    freed_sub := placed.freed_sub
    owned := ?_
    covered := placed.covered }
  intro ptr n owns
  obtain ⟨node, member, busy, same, fits⟩ := placed.owned ptr n owns
  refine ⟨node, member, busy, same, ?_⟩
  rwa [sizes node (List.mem_cons_of_mem _ member)]

end Placed

theorem Layout.congr_mem (layout : Layout start h live nodes freed) {m : Mem}
    (agree : ∀ node ∈ start :: nodes, ∀ k < MemNode.sizeof, m (node + k) = h.mem (node + k)) :
    Layout start { h with mem := m } live nodes freed ∧
      ∀ node ∈ nodes, MemNode.size m node = MemNode.size h.mem node := by
  obtain ⟨placed, sizes, same⟩ := layout.placed.congr_mem agree
  exact ⟨placed.layout (same ▸ layout.bounded), fun node member => sizes node (List.mem_cons_of_mem _ member)⟩

end UmkaOs.Arena
