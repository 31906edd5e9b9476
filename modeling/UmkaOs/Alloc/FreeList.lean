import UmkaOs.Alloc.Layout

namespace UmkaOs.Arena

open Lib

/-- Headers that are one, or that do not overlap. -/
def HeadersApart (x y : Nat) : Prop := x ≠ y → x + MemNode.sizeof ≤ y ∨ y + MemNode.sizeof ≤ x

theorem Carved.headersApart (carved : Carved m start tail nodes) {x y : Nat} (hx : x ∈ start :: nodes)
    (hy : y ∈ start :: nodes) : HeadersApart x y := by
  intro other
  have := carved.apart x hx y hy other
  omega

section SetNext

variable {m : Mem} {x y v : Nat}

theorem size_setNext (apart : HeadersApart x y) : MemNode.size (MemNode.setNext m x v) y = MemNode.size m y := by
  apply Mem.load32_store32_of_disjoint
  by_cases same : x = y
  · omega
  · have := apart same
    simp only [MemNode.sizeof] at this
    omega

theorem check_setNext (apart : HeadersApart x y) : MemNode.check (MemNode.setNext m x v) y = MemNode.check m y := by
  apply Mem.load32_store32_of_disjoint
  by_cases same : x = y
  · omega
  · have := apart same
    simp only [MemNode.sizeof] at this
    omega

theorem next_setNext (apart : HeadersApart x y) (small : v < 2 ^ 32) :
    MemNode.next (MemNode.setNext m x v) y = Function.update (MemNode.next m) x v y := by
  by_cases same : y = x
  · subst same
    rw [Function.update_self]
    exact Mem.load32_store32 small
  · rw [Function.update_of_ne same]
    apply Mem.load32_store32_of_disjoint
    have := apart (Ne.symm same)
    simp only [MemNode.sizeof] at this
    omega

end SetNext

/-- The link of one block changed, or nothing did. -/
def Relinked (blocks : List Nat) (m m' : Mem) : Prop := m' = m ∨ ∃ node ∈ blocks, ∃ v, m' = MemNode.setNext m node v

namespace Relinked

variable {blocks : List Nat} {m m' : Mem} {y : Nat}

theorem size (relinked : Relinked blocks m m') (apart : ∀ x ∈ blocks, HeadersApart x y) :
    MemNode.size m' y = MemNode.size m y := by
  rcases relinked with rfl | ⟨node, member, v, rfl⟩
  · rfl
  · exact size_setNext (apart node member)

theorem check (relinked : Relinked blocks m m') (apart : ∀ x ∈ blocks, HeadersApart x y) :
    MemNode.check m' y = MemNode.check m y := by
  rcases relinked with rfl | ⟨node, member, v, rfl⟩
  · rfl
  · exact check_setNext (apart node member)

theorem outside (relinked : Relinked blocks m m')
    (outside : ∀ node ∈ blocks, y < node ∨ node + MemNode.sizeof ≤ y) : m' y = m y := by
  rcases relinked with rfl | ⟨node, member, v, rfl⟩
  · rfl
  · apply Mem.store32_outside
    have := outside node member
    simp only [MemNode.sizeof] at this
    omega

end Relinked

/-- A well-formed free list: it ends at NULL and so holds no block twice, and its
blocks are among `blocks`, whose headers are marked and do not overlap. -/
structure FreeList (h : Allocator) (blocks freed : List Nat) : Prop where
  chain : Chain (MemNode.next h.mem) 0 h.free freed
  freed_sub : ∀ node ∈ freed, node ∈ blocks
  checked : ∀ node ∈ blocks, MemNode.check h.mem node = MemNode.magic
  near : ∀ node ∈ blocks, node ≠ 0 ∧ node + MemNode.sizeof < 2 ^ 32
  apart : ∀ x ∈ h.tail :: blocks, ∀ y ∈ h.tail :: blocks, HeadersApart x y

theorem Placed.freeList {start : Nat} {h : Allocator} {live : Live} {nodes freed : List Nat}
    (placed : Placed start h live nodes freed) : FreeList h nodes freed where
  chain := placed.chain
  freed_sub := placed.freed_sub
  checked node member := (placed.carved.checked node member).1
  near node member := ⟨placed.node_pos member, placed.near node member⟩
  apart x hx y hy := by
    have sub : ∀ z ∈ h.tail :: nodes, z ∈ start :: nodes := by
      intro z hz
      rcases List.mem_cons.mp hz with rfl | older
      · exact placed.carved.tail_mem
      · exact List.mem_cons_of_mem _ older
    exact placed.carved.headersApart (sub x hx) (sub y hy)

/-- First fit: the scan stops at the first listed node that is large enough. -/
theorem scan_spec {m : Mem} {size fuel prev node : Nat} {list : List Nat}
    (chain : Chain (MemNode.next m) 0 node list) (started : node ≠ 0) (enough : list.length ≤ fuel) :
    (Allocator.scan m size fuel prev node = .ok none ∧ ∀ y ∈ list, MemNode.size m y < size) ∨
    ∃ front x back, list = front ++ x :: back ∧ (∀ y ∈ front, MemNode.size m y < size) ∧
      size ≤ MemNode.size m x ∧
      Allocator.scan m size fuel prev node = .ok (some ((front.getLast?).getD prev, x)) := by
  induction list generalizing fuel prev node with
  | nil => exact absurd chain started
  | cons y rest ih =>
    obtain ⟨same, nonnull, tail⟩ := chain
    subst same
    cases fuel with
    | zero => simp at enough
    | succ fuel =>
      by_cases small : MemNode.size m node < size
      · by_cases last : MemNode.next m node = 0
        · left
          have done : rest = [] := (last ▸ tail).eq_nil_of_null
          subst done
          simp [Allocator.scan, small, last]
        · have further := @ih fuel node (MemNode.next m node) tail last (by simpa using enough)
          simp only [Allocator.scan, small, last, if_true, if_false]
          rcases further with ⟨none, all⟩ | ⟨front, x, back, split, smaller, fits, found⟩
          · exact .inl ⟨none, by simpa [small] using all⟩
          · refine .inr ⟨node :: front, x, back, by simp [split], by simpa [small] using smaller, fits, ?_⟩
            rw [found]
            cases front <;> simp
            rw [List.getLast?_cons]
            simp
      · exact .inr ⟨[], node, rest, rfl, by simp, by omega, by simp [Allocator.scan, small]⟩

namespace FreeList

variable {h : Allocator} {blocks freed : List Nat} {node n : Nat}

theorem data_eq (list : FreeList h blocks freed) (member : node ∈ blocks) :
    MemNode.data node = node + MemNode.sizeof :=
  wrap32_of_lt (list.near node member).2

theorem ofData_eq (list : FreeList h blocks freed) (member : node ∈ blocks) :
    MemNode.ofData (node + MemNode.sizeof) = node := by
  have small := (list.near node member).2
  simp only [MemNode.ofData, wrap32, MemNode.sizeof] at *
  omega

theorem headersApart (list : FreeList h blocks freed) {x y : Nat} (hx : x ∈ blocks) (hy : y ∈ blocks) :
    HeadersApart x y :=
  list.apart x (List.mem_cons_of_mem _ hx) y (List.mem_cons_of_mem _ hy)

theorem length_le (list : FreeList h blocks freed) : freed.length ≤ 2 ^ 32 := by
  have sub : freed.toFinset ⊆ Finset.range (2 ^ 32) := by
    intro node member
    have small := (list.near node (list.freed_sub node (List.mem_toFinset.mp member))).2
    exact Finset.mem_range.mpr (by omega)
  have bound := Finset.card_le_card sub
  rwa [List.toFinset_card_of_nodup list.chain.nodup, Finset.card_range] at bound

/-- Every scan ends: at the first listed block that is large enough, or at none. -/
theorem alloc_cases (list : FreeList h blocks freed) (n : Nat) :
    ((∀ y ∈ freed, MemNode.size h.mem y < n) ∧ h.allocatorAlloc n = .ok (h.carve n)) ∨
    ∃ front x back, freed = front ++ x :: back ∧ (∀ y ∈ front, MemNode.size h.mem y < n) ∧
      n ≤ MemNode.size h.mem x ∧ h.allocatorAlloc n = h.take ((front.getLast?).getD 0) x := by
  by_cases none : h.free = 0
  · have empty : freed = [] := (none ▸ list.chain).eq_nil_of_null
    exact .inl ⟨by simp [empty], by simp [Allocator.allocatorAlloc, none]⟩
  · have scanned := @scan_spec h.mem n (2 ^ 32) 0 h.free freed list.chain none list.length_le
    rcases scanned with ⟨missed, passed⟩ | ⟨front, x, back, split, passed, large, found⟩
    · refine .inl ⟨passed, ?_⟩
      simp only [Allocator.allocatorAlloc, none, if_false, missed, bind, Except.bind]
      rfl
    · refine .inr ⟨front, x, back, split, passed, large, ?_⟩
      simp only [Allocator.allocatorAlloc, none, if_false, found, bind, Except.bind]

theorem relink {h' : Allocator} {freed' : List Nat} (list : FreeList h blocks freed) (tail : h'.tail = h.tail)
    (relinked : Relinked blocks h.mem h'.mem) (chain : Chain (MemNode.next h'.mem) 0 h'.free freed')
    (sub : ∀ node ∈ freed', node ∈ blocks) : FreeList h' blocks freed' where
  chain := chain
  freed_sub := sub
  checked node member := by
    rw [relinked.check (fun x hx => list.headersApart hx member), list.checked node member]
  near := list.near
  apart := by
    rw [tail]
    exact list.apart

theorem take {front back : List Nat} {x : Nat} (list : FreeList h blocks (front ++ x :: back)) :
    ∃ h', h.take ((front.getLast?).getD 0) x = .ok (h', MemNode.data x) ∧ h'.tail = h.tail ∧
      Relinked blocks h.mem h'.mem ∧ FreeList h' blocks (front ++ back) := by
  have member : x ∈ blocks := list.freed_sub x (by simp)
  have checked := list.checked x member
  have sub : ∀ node ∈ front ++ back, node ∈ blocks := by
    intro node hn
    apply list.freed_sub
    simp only [List.mem_append, List.mem_cons] at hn ⊢
    tauto
  rcases List.eq_nil_or_concat front with empty | ⟨older, prev, split⟩
  · -- the head of the list: only `alloc.free` moves
    subst empty
    have head : h.free = x := list.chain.1
    refine ⟨{ h with free := MemNode.next h.mem x }, ?_, rfl, .inl rfl,
      list.relink rfl (.inl rfl) list.chain.suffix.2.2 sub⟩
    simp [Allocator.take, head, checked, bind, Except.bind]
  · -- an inner node: the predecessor's link is rerouted
    rw [List.concat_eq_append] at split
    subst split
    have prevMember : prev ∈ blocks := list.freed_sub prev (by simp)
    have prevPos : prev ≠ 0 := (list.near prev prevMember).1
    have notHead : x ≠ h.free := by
      intro same
      have distinct := list.chain.nodup
      obtain ⟨rest, eq, _⟩ := list.chain.cons_of_ne (by rw [← same]; exact (list.near x member).1)
      rw [← same] at eq
      cases older with
      | nil =>
        simp only [List.nil_append, List.cons_append, List.cons.injEq] at eq
        simp [eq.1] at distinct
      | cons first older =>
        simp only [List.cons_append, List.cons.injEq] at eq
        simp [eq.1] at distinct
    have small : MemNode.next h.mem x < 2 ^ 32 := Mem.load32_lt
    let h' : Allocator := { h with mem := MemNode.setNext h.mem prev (MemNode.next h.mem x) }
    have relinked : Relinked blocks h.mem h'.mem := .inr ⟨prev, prevMember, _, rfl⟩
    have cut : Chain (MemNode.next h.mem) 0 h.free (older ++ prev :: x :: back) := by
      simpa using list.chain
    have chain : Chain (MemNode.next h'.mem) 0 h.free (older ++ prev :: back) := by
      apply cut.unlink.congr
      intro y hy
      have listed : y ∈ blocks := sub y (by simpa using hy)
      exact next_setNext (list.headersApart prevMember listed) small
    refine ⟨h', ?_, rfl, relinked, list.relink rfl relinked (by simpa using chain) sub⟩
    have kept : MemNode.check (MemNode.setNext h.mem prev (MemNode.next h.mem x)) x = MemNode.magic :=
      (relinked.check (fun z hz => list.headersApart hz member)).trans checked
    simp [h', Allocator.take, notHead, prevPos, kept, bind, Except.bind]

theorem free (list : FreeList h blocks freed) (member : node ∈ blocks) (busy : node ∉ freed) :
    ∃ h', h.allocatorFree (node + MemNode.sizeof) = .ok h' ∧ h'.tail = h.tail ∧ Relinked blocks h.mem h'.mem ∧
      FreeList h' blocks (node :: freed) := by
  have small : h.free < 2 ^ 32 := by
    by_cases none : h.free = 0
    · rw [none]; decide
    · obtain ⟨rest, eq, _⟩ := list.chain.cons_of_ne none
      have := (list.near h.free (list.freed_sub h.free (by simp [eq]))).2
      omega
  have sub : ∀ y ∈ node :: freed, y ∈ blocks := by
    intro y hy
    rcases List.mem_cons.mp hy with first | later
    · exact first ▸ member
    · exact list.freed_sub y later
  let h' : Allocator := { h with mem := MemNode.setNext h.mem node h.free, free := node }
  have relinked : Relinked blocks h.mem h'.mem := .inr ⟨node, member, _, rfl⟩
  refine ⟨h', ?_, rfl, relinked, list.relink rfl relinked ?_ sub⟩
  · have nonnull : node + MemNode.sizeof ≠ 0 := by simp [MemNode.sizeof]
    rw [Allocator.allocatorFree, if_neg nonnull, list.ofData_eq member]
    exact if_pos (list.checked node member)
  · apply (list.chain.push (list.near node member).1 busy).congr
    intro y hy
    exact next_setNext (list.headersApart member (sub y hy)) small

end FreeList

end UmkaOs.Arena
