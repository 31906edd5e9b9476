import UmkaOs.Alloc.Steps

namespace UmkaOs.Arena

open Lib

/-- What a client of the heap may do. `write` stores one byte of a block. -/
inductive Call where
  | malloc (size : Nat)
  | calloc (nmemb size : Nat)
  | realloc (ptr size : Nat)
  | free (ptr : Nat)
  | write (ptr offset : Nat) (byte : UInt8)

/-- The C functions behind the calls. -/
def Call.run (h : Allocator) : Call → Except Fault (Allocator × Nat)
  | .malloc size => h.allocatorAlloc size
  | .calloc nmemb size => h.calloc nmemb size
  | .realloc ptr size => h.allocatorRealloc ptr size
  | .free ptr => (h.allocatorFree ptr).map (·, 0)
  | .write ptr offset byte => .ok ({ h with mem := Function.update h.mem (ptr + offset) byte }, 0)

/-- Ownership after a call that returned `ret`. -/
def Call.after (live : Live) (ret : Nat) : Call → Live
  | .malloc size => Function.update live ret (some size)
  | .calloc nmemb size => Function.update live ret (some (nmemb * size))
  | .realloc ptr size => Function.update (Function.update live ptr none) ret (some size)
  | .free ptr => Function.update live ptr none
  | .write _ _ _ => live

/-- The client passes null or pointers it owns and writes inside its blocks. -/
def Call.Legal (live : Live) : Call → Prop
  | .malloc _ | .calloc _ _ => True
  | .realloc ptr _ | .free ptr => ptr = 0 ∨ (live ptr).isSome
  | .write ptr offset _ => ∃ size, live ptr = some size ∧ offset < size

/-- Allocating `size` bytes neither wraps nor pushes the arena past 2^32. -/
def Room (h : Allocator) (size : Nat) : Prop :=
  rounded size < 2 ^ 32 ∧ ∀ h' ptr, h.allocatorAlloc size = .ok (h', ptr) → h'.arenaEnd < 2 ^ 32

/-- No size computation of the call wraps and the arena stays below 2^32. -/
def Call.Fits (h : Allocator) : Call → Prop
  | .malloc size => Room h size
  | .calloc nmemb size => nmemb * size < 2 ^ 32 ∧ Room h (nmemb * size)
  | .realloc ptr size =>
    ptr = 0 ∨ MemNode.size h.mem (MemNode.ofData ptr) < size → Room h size
  | .free _ | .write _ _ _ => True

/-- The abstract heap: each block is a pointer with its bytes. -/
abbrev Blocks := Nat → Option (List UInt8)

/-- What each call has to do to the abstract heap. Fresh bytes are arbitrary;
everything not mentioned stays as it was. -/
inductive Blocks.Step (b : Blocks) : Call → Nat → Blocks → Prop where
  | malloc (fresh : b ret = none) (nonnull : ret ≠ 0) (length : content.length = size) :
      Step b (.malloc size) ret (Function.update b ret (some content))
  | calloc (fresh : b ret = none) (nonnull : ret ≠ 0) :
      Step b (.calloc nmemb size) ret (Function.update b ret (some (List.replicate (nmemb * size) 0)))
  | realloc (fresh : ret = ptr ∨ b ret = none) (nonnull : ret ≠ 0) (length : content.length = size)
      (kept : content.take (min ((b ptr).getD []).length size) =
        ((b ptr).getD []).take (min ((b ptr).getD []).length size)) :
      Step b (.realloc ptr size) ret
        (Function.update (Function.update b ptr none) ret (some content))
  | free : Step b (.free ptr) 0 (Function.update b ptr none)
  | write (owned : b ptr = some content) (inside : offset < content.length) :
      Step b (.write ptr offset byte) 0 (Function.update b ptr (some (content.set offset byte)))

/-- The abstract heap stored in the arena. -/
def view (h : Allocator) (live : Live) : Blocks := fun ptr => (live ptr).map (h.mem.bytes ptr)

/-- The headers in memory, found by walking the extents from `start`. -/
inductive Header (start : Nat) (h : Allocator) : Nat → Prop where
  | first : Header start h start
  | next (earlier : Header start h node) (more : node ≠ h.tail) :
      Header start h (node + MemNode.sizeof + MemNode.size h.mem node)

/-- The capacity recorded for a block. -/
def capacity (h : Allocator) (ptr : Nat) : Nat := MemNode.size h.mem (MemNode.ofData ptr)

/-- Where the live blocks lie. -/
structure WellPlaced (start : Nat) (h : Allocator) (live : Live) : Prop where
  disjoint : ∀ p q a b, live p = some a → live q = some b → p ≠ q →
    p + capacity h p ≤ q ∨ q + capacity h q ≤ p
  off_headers : ∀ p a node, live p = some a → Header start h node →
    p + capacity h p ≤ node ∨ node + MemNode.sizeof ≤ p
  aligned : ∀ p a, live p = some a → 16 ∣ p
  large : ∀ p a, live p = some a → a ≤ capacity h p

/-- A run of the heap's client from `allocatorInit`: the arena together with
the sizes last requested. -/
inductive Session (start : Nat) : Allocator → Live → Prop where
  | init (m : Mem) : Session start (Allocator.allocatorInit m start) (fun _ => none)
  | step {call : Call} (earlier : Session start h live) (legal : call.Legal live) (fits : call.Fits h)
      (ran : call.run h = .ok (h', ret)) : Session start h' (call.after live ret)

theorem Layout.header_mem {h : Allocator} (layout : Layout start h live nodes freed)
    (header : Header start h node) : node ∈ start :: nodes := by
  induction header with
  | first => simp
  | next earlier more ih => exact layout.carved.next_mem _ ih more

theorem Layout.large {h : Allocator} (layout : Layout start h live nodes freed) (owns : live p = some a) :
    a ≤ capacity h p := by
  obtain ⟨owner, _, _, _, back, fits⟩ := layout.owner owns
  rwa [capacity, back]

theorem Layout.wellPlaced {h : Allocator} (layout : Layout start h live nodes freed) (even : 16 ∣ start) :
    WellPlaced start h live where
  disjoint _ _ _ _ ownsP ownsQ other := layout.live_apart ownsP ownsQ other
  off_headers p a node owns header := by
    obtain ⟨owner, member, _, same, back, _⟩ := layout.owner owns
    have hn := layout.header_mem header
    rw [capacity, back]
    by_cases eq : node = owner
    · subst eq; omega
    · have := layout.carved.apart node hn owner (List.mem_cons_of_mem _ member) eq
      omega
  aligned p a owns := by
    obtain ⟨owner, member, _, same, _, _⟩ := layout.owner owns
    have := layout.carved.aligned even owner (List.mem_cons_of_mem _ member)
    rw [same]
    exact Nat.dvd_add this (by decide)
  large _ _ owns := layout.large owns

variable {start : Nat} {h h' : Allocator} {live : Live} {nodes freed : List Nat}

theorem Placed.null_not_live (placed : Placed start h live nodes freed) : live 0 = none := by
  cases owns : live 0 with
  | none => rfl
  | some n =>
    obtain ⟨node, _, _, same, _⟩ := placed.owned 0 n owns
    simp only [MemNode.sizeof] at same
    omega

theorem view_absent {p : Nat} (absent : live p = none) : view h live p = none := by
  simp [view, absent]

theorem view_live {p n : Nat} (owns : live p = some n) : view h live p = some (h.mem.bytes p n) := by
  simp [view, owns]

/-- Null is never a block, so to release it changes nothing. -/
theorem Placed.release_null (placed : Placed start h live nodes freed) :
    Function.update live 0 none = live ∧ Function.update (view h live) 0 none = view h live := by
  have absent := placed.null_not_live
  constructor
  · rw [← absent, Function.update_eq_self]
  · rw [← view_absent absent, Function.update_eq_self]

/-- Where all other blocks keep their bytes, one entry of the view changes. -/
theorem view_update {ptr : Nat} {entry : Option Nat}
    (others : ∀ q k, q ≠ ptr → live q = some k → ∀ i < k, h'.mem (q + i) = h.mem (q + i)) :
    view h' (Function.update live ptr entry) =
      Function.update (view h live) ptr (entry.map (h'.mem.bytes ptr)) := by
  funext q
  by_cases same : q = ptr
  · subst same
    simp [view]
  · rw [Function.update_of_ne same]
    unfold view
    rw [Function.update_of_ne same]
    cases owns : live q with
    | none => rfl
    | some k => exact congrArg some (Mem.bytes_congr (others q k same owns))

/-- The bytes of a block lie outside every other block. -/
theorem Layout.bytes_apart {p : Nat} (layout : Layout start h live nodes freed) (owns : live p = some n)
    (ownsQ : live q = some k) (other : q ≠ p) : ∀ i < k, q + i < p ∨ p + n ≤ q + i := by
  intro i inside
  have apart := layout.live_apart owns ownsQ (Ne.symm other)
  have large := layout.large owns
  have largeQ := layout.large ownsQ
  simp only [capacity] at *
  omega

/-- Handing out one block changes no byte of any other. -/
theorem Granted.frame {ptr : Nat} (granted : Granted start h h' live nodes n ptr)
    (other : q ≠ ptr) (owns : live q = some k) :
    ∀ i < k, h'.mem (q + i) = h.mem (q + i) := by
  obtain ⟨nodes', freed', layout, _, kept⟩ := granted.layout
  have ownsAfter : Function.update live ptr (some n) q = some k := by
    rwa [Function.update_of_ne other]
  obtain ⟨node, member, _, same, fits⟩ := layout.owned q k ownsAfter
  intro i small
  apply kept
  subst same
  exact layout.payload member (by omega)

theorem Granted.view {ptr : Nat} (granted : Granted start h h' live nodes n ptr) :
    view h' (Function.update live ptr (some n)) =
      Function.update (view h live) ptr (some (h'.mem.bytes ptr n)) :=
  view_update fun _ _ other owns => granted.frame other owns

theorem malloc_refines (layout : Layout start h live nodes freed) (room : Room h n) :
    ∃ h' ptr nodes' freed', h.allocatorAlloc n = .ok (h', ptr) ∧ Granted start h h' live nodes n ptr ∧
      Layout start h' (Function.update live ptr (some n)) nodes' freed' ∧
      Growth h h' nodes freed (some n) ptr nodes' := by
  obtain ⟨h', ptr, ran, outcome⟩ := alloc_spec layout n
  obtain ⟨granted, outcome⟩ := outcome room.1 (room.2 h' ptr ran)
  obtain ⟨nodes', freed', placed, growth⟩ := outcome.growth granted.sizes
  exact ⟨h', ptr, nodes', freed', ran, granted, placed, growth⟩

theorem calloc_refines (layout : Layout start h live nodes freed) (small : k * n < 2 ^ 32)
    (room : Room h (k * n)) :
    ∃ h' ptr nodes' freed', h.calloc k n = .ok (h', ptr) ∧ live ptr = none ∧ ptr ≠ 0 ∧
      Layout start h' (Function.update live ptr (some (k * n))) nodes' freed' ∧
      Growth h h' nodes freed (some (k * n)) ptr nodes' ∧
      view h' (Function.update live ptr (some (k * n))) =
        Function.update (view h live) ptr (some (List.replicate (k * n) 0)) := by
  obtain ⟨mid, ptr, nodes', freed', ran, granted, placed, growth⟩ := malloc_refines layout room
  have owns : Function.update live ptr (some (k * n)) ptr = some (k * n) := Function.update_self ..
  have outside : ∀ a, a < ptr ∨ ptr + k * n ≤ a → mid.mem.fill ptr 0 (k * n) a = mid.mem a :=
    fun a apart => Mem.fill_outside apart
  have filled := placed.congr_mem (placed.placed.block_write owns outside)
  refine ⟨{ mid with mem := mid.mem.fill ptr 0 (k * n) }, ptr, nodes', freed', ?_, granted.fresh,
    granted.nonnull, filled.1, growth.after rfl filled.2, ?_⟩
  · simp only [Allocator.calloc, wrap32_of_lt small, ran, bind, Except.bind]
    rfl
  · rw [view_update (h := h) fun q j other ownsQ i inside => ?_, Option.map_some, Mem.bytes_fill]
    rw [← granted.frame other ownsQ i inside]
    exact outside _ (placed.bytes_apart owns ((Function.update_of_ne other _ _).trans ownsQ) other i inside)

theorem Placed.resize (placed : Placed start h live nodes freed) (owns : live ptr = some k)
    (fits : n ≤ MemNode.size h.mem (MemNode.ofData ptr)) :
    Placed start h (Function.update live ptr (some n)) nodes freed := by
  obtain ⟨node, member, busy, same, back, _⟩ := placed.owner owns
  refine { placed with owned := ?_, covered := fun x hx => (placed.covered x hx).imp id update_isSome }
  intro q j ownsQ
  by_cases eq : q = ptr
  · subst eq
    rw [Function.update_self] at ownsQ
    cases ownsQ
    exact ⟨node, member, busy, same, by rwa [← back]⟩
  · rw [Function.update_of_ne eq] at ownsQ
    exact placed.owned q j ownsQ

/-- The end of a `realloc` that moves a block: the new block is filled from the old
one, and the old one is freed. -/
theorem Placed.move {mid : Allocator} {new : Nat}
    (placed : Placed start mid (Function.update live new (some n)) nodes freed) (owns : live ptr = some k)
    (other : ptr ≠ new) (less : MemNode.size mid.mem (MemNode.ofData ptr) < n) :
    ∃ h', Allocator.allocatorFree { mid with mem := mid.mem.copy new ptr (MemNode.size mid.mem (MemNode.ofData ptr)) }
        ptr = .ok h' ∧
      Placed start h' (Function.update (Function.update live ptr none) new (some n)) nodes
        (MemNode.ofData ptr :: freed) ∧
      (∀ a, Payload start nodes a →
        h'.mem a = mid.mem.copy new ptr (MemNode.size mid.mem (MemNode.ofData ptr)) a) ∧
      h'.tail = mid.tail ∧ ∀ node ∈ start :: nodes, MemNode.size h'.mem node = MemNode.size mid.mem node := by
  have ownsOld : Function.update live new (some n) ptr = some k := (Function.update_of_ne other _ _).trans owns
  have ownsNew : Function.update live new (some n) new = some n := Function.update_self ..
  have outside : ∀ a, a < new ∨ new + n ≤ a →
      mid.mem.copy new ptr (MemNode.size mid.mem (MemNode.ofData ptr)) a = mid.mem a :=
    fun a away => Mem.copy_outside (by omega)
  obtain ⟨copied, copiedSizes, _⟩ := placed.congr_mem (placed.block_write ownsNew outside)
  obtain ⟨h', freedOld, moved, kept, tail, sizes⟩ := copied.free ownsOld
  refine ⟨h', freedOld, ?_, kept, tail, fun node member => (sizes node member).trans (copiedSizes node member)⟩
  rwa [Function.update_comm other]

theorem Layout.payload_of_live (layout : Layout start h live nodes freed) (owns : live q = some k)
    (inside : i < k) : Payload start nodes (q + i) := by
  obtain ⟨node, member, _, same, _, fits⟩ := layout.owner owns
  subst same
  exact layout.payload member (by omega)

theorem Placed.data_ofData (placed : Placed start h live nodes freed) (owns : live ptr = some k) :
    MemNode.data (MemNode.ofData ptr) = ptr := by
  obtain ⟨node, member, _, same, back, _⟩ := placed.owner owns
  rw [back]
  exact (placed.freeList.data_eq member).trans same.symm

/-- `realloc` of a block that is too small, after its call of `allocatorAlloc`. -/
theorem realloc_moves {mid : Allocator} {new : Nat} (nonnull : ptr ≠ 0)
    (small : ¬ n ≤ MemNode.size h.mem (MemNode.ofData ptr)) (ran : h.allocatorAlloc n = .ok (mid, new)) :
    h.allocatorRealloc ptr n = (Allocator.allocatorFree { mid with
      mem := mid.mem.copy new (MemNode.data (MemNode.ofData ptr)) (MemNode.size mid.mem (MemNode.ofData ptr)) }
      ptr).map (·, new) := by
  rw [Allocator.allocatorRealloc, if_neg nonnull]
  simp only [small, if_false, ran, bind, Except.bind, Except.map]
  rfl

theorem realloc_refines (layout : Layout start h live nodes freed) (owns : live ptr = some k)
    (room : MemNode.size h.mem (MemNode.ofData ptr) < n → Room h n) :
    ∃ h' ret nodes' freed', h.allocatorRealloc ptr n = .ok (h', ret) ∧
      (ret = ptr ∨ live ret = none) ∧ ret ≠ 0 ∧
      Layout start h' (Function.update (Function.update live ptr none) ret (some n)) nodes' freed' ∧
      Growth h h' nodes freed (some n) ret nodes' ∧
      (∀ q j, q ≠ ptr → q ≠ ret → live q = some j → ∀ i < j, h'.mem (q + i) = h.mem (q + i)) ∧
      ∀ i < min k n, h'.mem (ret + i) = h.mem (ptr + i) := by
  obtain ⟨node, member, busy, same, back, fits⟩ := layout.owner owns
  have nonnull : ptr ≠ 0 := by simp [same, MemNode.sizeof]
  by_cases small : n ≤ MemNode.size h.mem node
  · -- the block is kept where it is
    refine ⟨h, ptr, nodes, freed, ?_, .inl rfl, nonnull, ?_, .stays (fun _ _ => rfl) rfl,
      fun _ _ _ _ _ _ _ => rfl, fun _ _ => rfl⟩
    · simp [Allocator.allocatorRealloc, nonnull, back, small]
    · rw [Function.update_idem]
      exact (layout.placed.resize owns (by rwa [back])).layout layout.bounded
  · -- a new block is taken, filled from the old one, and the old one freed
    obtain ⟨mid, new, nodes', freed', ran, granted, placed, growth⟩ :=
      malloc_refines layout (room (by rw [back]; omega))
    have other : ptr ≠ new := by
      intro clash
      rw [clash, granted.fresh] at owns
      cases owns
    have ownsOld : Function.update live new (some n) ptr = some k :=
      (Function.update_of_ne other _ _).trans owns
    have ownsNew : Function.update live new (some n) new = some n := Function.update_self ..
    have size_eq : MemNode.size mid.mem (MemNode.ofData ptr) = MemNode.size h.mem node := by
      rw [back]
      exact granted.sizes node member
    have apart := placed.live_apart ownsOld ownsNew other
    have large := placed.large ownsNew
    simp only [capacity] at apart large
    obtain ⟨h', freedOld, moved, kept, tail, sizes⟩ := placed.placed.move owns other (by omega)
    have bounded : h'.arenaEnd < 2 ^ 32 := by
      rw [placed.carved.arenaEnd_eq tail sizes]
      exact placed.bounded
    have grown := growth.after tail (fun node member => sizes node (List.mem_cons_of_mem _ member))
    refine ⟨h', new, nodes', MemNode.ofData ptr :: freed', ?_, .inr granted.fresh, granted.nonnull,
      moved.layout bounded, grown, ?_, ?_⟩
    · rw [realloc_moves nonnull (by rwa [back]) ran, layout.placed.data_ofData owns, freedOld]
      rfl
    · intro q j hp hn ownsQ i inside
      have ownsQ' : Function.update live new (some n) q = some j := by
        rwa [Function.update_of_ne hn]
      have apartQ := placed.live_apart ownsNew ownsQ' (Ne.symm hn)
      have largeQ := placed.large ownsQ'
      simp only [capacity] at largeQ
      rw [kept _ (placed.payload_of_live ownsQ' inside), Mem.copy_outside (by omega)]
      exact granted.frame hn ownsQ i inside
    · intro i inside
      rw [kept _ (placed.payload_of_live ownsNew (by omega)), Mem.copy_inside (by omega) (by omega)]
      exact granted.frame other owns i (by omega)

theorem init_layout (m : Mem) (small : start + MemNode.sizeof < 2 ^ 32) :
    Layout start (Allocator.allocatorInit m start) (fun _ => none) [] [] where
  carved := .sentinel (Mem.load32_fill_zero (by omega) (by simp only [MemNode.sizeof]; omega))
  bounded := by
    have empty : MemNode.size (MemNode.zero m start) start = 0 :=
      Mem.load32_fill_zero (by omega) (by simp only [MemNode.sizeof]; omega)
    simpa only [Allocator.arenaEnd, Allocator.allocatorInit, empty, Nat.add_zero] using small
  chain := rfl
  freed_sub := by simp
  owned := by simp
  covered := by simp

/-- The size that a call asks `allocatorAlloc` for. -/
def Call.request : Call → Option Nat
  | .malloc size => some size
  | .calloc nmemb size => some (nmemb * size)
  | .realloc _ size => some size
  | .free _ | .write _ _ _ => none

theorem view_realloc {ret : Nat}
    (others : ∀ q j, q ≠ ptr → q ≠ ret → live q = some j → ∀ i < j, h'.mem (q + i) = h.mem (q + i)) :
    view h' (Function.update (Function.update live ptr none) ret (some n)) =
      Function.update (Function.update (view h live) ptr none) ret (some (h'.mem.bytes ret n)) := by
  have released : view h (Function.update live ptr none) = Function.update (view h live) ptr none :=
    view_update fun _ _ _ _ _ _ => rfl
  rw [← released]
  refine view_update fun q j eqRet ownsQ => ?_
  have eqPtr : q ≠ ptr := by
    rintro rfl
    rw [Function.update_self] at ownsQ
    cases ownsQ
  rw [Function.update_of_ne eqPtr] at ownsQ
  exact others q j eqPtr eqRet ownsQ

theorem Layout.view_write (layout : Layout start h live nodes freed) (owns : live ptr = some k) {offset : Nat}
    {byte : UInt8} (inside : offset < k) : view { h with mem := Function.update h.mem (ptr + offset) byte } live =
      Function.update (view h live) ptr (some ((h.mem.bytes ptr k).set offset byte)) := by
  have self : Function.update live ptr (some k) = live := by rw [← owns, Function.update_eq_self]
  rw [← Mem.bytes_update]
  nth_rewrite 1 [← self]
  refine view_update fun q j other ownsQ i small => Function.update_of_ne ?_ _ _
  have apart := layout.bytes_apart owns ownsQ other i small
  omega

theorem realloc_null (layout : Layout start h live nodes freed) (room : Room h n) :
    ∃ h' ret nodes' freed', h.allocatorRealloc 0 n = .ok (h', ret) ∧
      Layout start h' ((Call.realloc 0 n).after live ret) nodes' freed' ∧ Growth h h' nodes freed (some n) ret nodes' ∧
      (view h live).Step (.realloc 0 n) ret (view h' ((Call.realloc 0 n).after live ret)) := by
  obtain ⟨h', ret, nodes', freed', ran, granted, placed, growth⟩ := malloc_refines layout room
  obtain ⟨noop, same⟩ := layout.placed.release_null
  refine ⟨h', ret, nodes', freed', by simp [Allocator.allocatorRealloc, ran], ?_, growth, ?_⟩
  · rwa [Call.after, noop]
  · rw [Call.after, noop, granted.view]
    have kept : (h'.mem.bytes ret n).take (min ((view h live 0).getD []).length n) =
        ((view h live 0).getD []).take (min ((view h live 0).getD []).length n) := by
      simp [view_absent (h := h) layout.placed.null_not_live]
    have step := Blocks.Step.realloc (.inr (view_absent granted.fresh)) granted.nonnull Mem.length_bytes kept
    rwa [same] at step

/-- One call from a state that satisfies the layout: it returns, it does what
the abstract heap asks for, and the layout holds again. -/
theorem call_refines (layout : Layout start h live nodes freed) {call : Call}
    (legal : call.Legal live) (fits : call.Fits h) :
    ∃ h' ret nodes' freed', call.run h = .ok (h', ret) ∧
      Layout start h' (call.after live ret) nodes' freed' ∧ Growth h h' nodes freed call.request ret nodes' ∧
      (view h live).Step call ret (view h' (call.after live ret)) := by
  cases call with
  | malloc size =>
    obtain ⟨h', ret, nodes', freed', ran, granted, placed, growth⟩ := malloc_refines layout fits
    refine ⟨h', ret, nodes', freed', ran, placed, growth, ?_⟩
    rw [Call.after, granted.view]
    exact .malloc (view_absent granted.fresh) granted.nonnull Mem.length_bytes
  | calloc nmemb size =>
    obtain ⟨h', ret, nodes', freed', ran, fresh, nonnull, placed, growth, same⟩ :=
      calloc_refines layout fits.1 fits.2
    refine ⟨h', ret, nodes', freed', ran, placed, growth, ?_⟩
    rw [Call.after, same]
    exact .calloc (view_absent fresh) nonnull
  | realloc ptr size =>
    by_cases isNull : ptr = 0
    · subst isNull
      exact realloc_null layout (fits (.inl rfl))
    · obtain ⟨k, owns⟩ := Option.isSome_iff_exists.mp (legal.resolve_left isNull)
      obtain ⟨h', ret, nodes', freed', ran, fresh, nonnull, placed, growth, others, kept⟩ :=
        realloc_refines layout owns (fun less => fits (.inr less))
      refine ⟨h', ret, nodes', freed', ran, placed, growth, ?_⟩
      rw [Call.after, view_realloc others]
      refine .realloc (fresh.imp id view_absent) nonnull Mem.length_bytes ?_
      rw [view_live owns]
      simp only [Option.getD_some, Mem.length_bytes, Mem.take_bytes, Nat.min_assoc, Nat.min_self,
        Nat.min_comm size k, ← Nat.min_assoc k k]
      exact Mem.bytes_congr (fun i small => kept i (by omega))
  | free ptr =>
    by_cases isNull : ptr = 0
    · subst isNull
      obtain ⟨noop, same⟩ := layout.placed.release_null
      refine ⟨h, 0, nodes, freed, by simp [Call.run, Allocator.allocatorFree, Except.map], ?_,
        .stays (fun _ _ => rfl) rfl, ?_⟩
      · rwa [Call.after, noop]
      · rw [Call.after, noop]
        have step := @Blocks.Step.free (view h live) 0
        rwa [same] at step
    · obtain ⟨k, owns⟩ := Option.isSome_iff_exists.mp (legal.resolve_left isNull)
      obtain ⟨h', ran, placed, kept, tail, sizes⟩ := free_spec layout owns
      refine ⟨h', 0, nodes, _, by simp [Call.run, ran, Except.map], placed, .stays sizes tail, ?_⟩
      have same : view h' (Call.after live 0 (.free ptr)) = Function.update (view h live) ptr none :=
        view_update fun q j _ ownsQ i inside => kept _ (layout.payload_of_live ownsQ inside)
      rw [same]
      exact .free
  | write ptr offset byte =>
    obtain ⟨k, owns, inside⟩ := legal
    have outside : ∀ a, a < ptr ∨ ptr + k ≤ a →
        Function.update h.mem (ptr + offset) byte a = h.mem a :=
      fun a away => Function.update_of_ne (by omega) _ _
    obtain ⟨written, sizes⟩ := layout.congr_mem (layout.placed.block_write owns outside)
    refine ⟨_, 0, nodes, freed, rfl, written, .stays sizes rfl, ?_⟩
    rw [Call.after, layout.view_write owns inside]
    exact .write (view_live owns) (by simpa using inside)

theorem Session.layout (session : Session start h live) (small : start + MemNode.sizeof < 2 ^ 32) :
    ∃ nodes freed, Layout start h live nodes freed := by
  induction session with
  | init m => exact ⟨[], [], init_layout m small⟩
  | step earlier legal fits ran ih =>
    obtain ⟨nodes, freed, layout⟩ := ih
    obtain ⟨h', ret, nodes', freed', done, placed, _, _⟩ := call_refines layout legal fits
    cases ran.symm.trans done
    exact ⟨nodes', freed', placed⟩

/-- The arena state implements the abstract heap it stores: its live blocks are
well placed, and every legal call that fits returns and is a step of that heap. -/
structure Implements (start : Nat) (h : Allocator) (live : Live) : Prop where
  placed : WellPlaced start h live
  steps : ∀ call : Call, call.Legal live → call.Fits h → ∃ h' ret, call.run h = .ok (h', ret) ∧
    WellPlaced start h' (call.after live ret) ∧
    (view h live).Step call ret (view h' (call.after live ret))

/-- Whatever the client did before, the arena with its in-band headers
implements the abstract heap. -/
theorem arena_implements_blocks (session : Session start h live) (aligned : 16 ∣ start)
    (small : start + MemNode.sizeof < 2 ^ 32) : Implements start h live := by
  obtain ⟨nodes, freed, layout⟩ := session.layout small
  refine ⟨layout.wellPlaced aligned, fun call legal fits => ?_⟩
  obtain ⟨h', ret, nodes', freed', ran, placed, _, step⟩ := call_refines layout legal fits
  exact ⟨h', ret, ran, placed.wellPlaced aligned, step⟩

theorem arena_implements_blocks_first :
    Implements 0x1000000 ((Allocator.allocatorInit (fun _ => 0) 0x1000000).carve 50).1
      (Function.update (fun _ => none) 0x1000020 (some 50)) := by
  have room : Room (Allocator.allocatorInit (fun _ => 0) 0x1000000) 50 := by
    refine ⟨by decide, ?_⟩
    intro h' ptr ran
    cases ran
    decide
  have legal : (Call.malloc 50).Legal (fun _ => none) := trivial
  exact arena_implements_blocks (.step (.init _) legal room rfl) (by decide) (by decide)

end UmkaOs.Arena
