import UmkaOs.Gfx.Draw

namespace UmkaOs.Gfx

open Lib

variable {H : Type} {hashing : Hashing H} {hashes : Nat → H} {r : Rect} {cmd : Command} {commands : List Command}
  {coordinate x y : Int} {count i n : Nat}

theorem cellOf_lt (positive : 0 < count) : cellOf coordinate count < count := by
  unfold cellOf
  dsimp only
  split <;> split <;> omega

theorem cellOf_le (below : coordinate < 16 * (n + 1)) : cellOf coordinate count ≤ n := by
  have quotient : coordinate.tdiv cellSize ≤ n := by
    rcases Int.le_total 0 coordinate with nonneg | nonpos
    · rw [Int.tdiv_eq_ediv_of_nonneg nonneg]
      dsimp only [cellSize]
      omega
    · have mirrored : 0 ≤ (-coordinate).tdiv cellSize := Int.tdiv_nonneg (by omega) (by decide)
      rw [Int.neg_tdiv] at mirrored
      omega
  unfold cellOf
  dsimp only
  split <;> split <;> omega

theorem le_cellOf (above : 16 * n < coordinate) (small : n < count) : n ≤ cellOf coordinate count := by
  have quotient : n ≤ coordinate.tdiv cellSize := by
    rw [Int.tdiv_eq_ediv_of_nonneg (by omega)]
    dsimp only [cellSize]
    omega
  unfold cellOf
  dsimp only
  split <;> split <;> omega

theorem touchedCells_mem : i ∈ touchedCells r ↔
    (cellOf r.x cellsX ≤ i % cellsX ∧ i % cellsX ≤ cellOf r.right cellsX) ∧
      cellOf r.y cellsY ≤ i / cellsX ∧ i / cellsX ≤ cellOf r.bottom cellsY := by
  have narrow : cellOf r.right cellsX < cellsX := cellOf_lt (by decide)
  simp only [touchedCells, List.mem_flatMap, List.mem_map, List.mem_range'_1]
  dsimp only [cellsX] at *
  constructor
  · rintro ⟨x, column, y, row, rfl⟩
    omega
  · rintro ⟨column, row⟩
    exact ⟨i % 64, by omega, i / 64, by omega, by omega⟩

theorem touchedCells_nodup : (touchedCells r).Nodup := by
  have narrow : cellOf r.right cellsX < cellsX := cellOf_lt (by decide)
  rw [touchedCells, List.nodup_flatMap]
  constructor
  · intro x _
    refine List.Nodup.map (fun y y' same => ?_) List.nodup_range'
    dsimp only [cellsX] at same
    omega
  · refine List.Pairwise.imp_of_mem (fun {x x'} member member' different => ?_)
      (List.nodup_range' (s := cellOf r.x cellsX) (n := cellOf r.right cellsX + 1 - cellOf r.x cellsX))
    rw [List.mem_range'_1] at member member'
    intro i inside inside'
    obtain ⟨y, _, rfl⟩ := List.mem_map.mp inside
    obtain ⟨y', _, same⟩ := List.mem_map.mp inside'
    dsimp only [cellsX] at *
    omega

/-- The commands whose hashes go into a cell. -/
def touching (i : Nat) (commands : List Command) : List Command :=
  commands.filter fun cmd => i ∈ touchedCells cmd.toRect

theorem hashCommand_at : hashCommand hashing hashes cmd i =
    if i ∈ touchedCells cmd.toRect then hashing.mix (hashes i) cmd else hashes i :=
  foldl_modify (fun hash => hashing.mix hash cmd) touchedCells_nodup hashes

/-- The hash of a cell is a chain over the commands that touch it. -/
theorem hash_at : commands.foldl (hashCommand hashing) hashes i =
    (touching i commands).foldl hashing.mix (hashes i) := by
  induction commands generalizing hashes with
  | nil => rfl
  | cons cmd rest ih =>
    rw [List.foldl_cons, ih, hashCommand_at, touching, touching, List.filter_cons]
    by_cases touched : i ∈ touchedCells cmd.toRect <;> simp [touched]

/-- The number of the cell of a pixel. -/
def cellIndex (x y : Int) : Nat := (x / cellSize).toNat + (y / cellSize).toNat * cellsX

theorem cellIndex_of_screen (on : screen.Contains x y) :
    cellIndex x y % cellsX = x / 16 ∧ cellIndex x y / cellsX = y / 16 ∧ x / 16 < cellsX ∧ y / 16 < cellsY := by
  obtain ⟨left, right, top, bottom⟩ := on
  have right : x < 1024 := right
  have bottom : y < 768 := bottom
  dsimp only [screen] at left top
  dsimp only [cellIndex, cellSize, cellsX, cellsY]
  omega

theorem overlap_touched (on : screen.Contains x y) (overlap : rectOverlap (cellAt x y) r = true) :
    cellIndex x y ∈ touchedCells r := by
  obtain ⟨left, right, top, bottom⟩ := cellAt_sides on
  obtain ⟨column, row, narrow, low⟩ := cellIndex_of_screen on
  simp only [rectOverlap, gt_iff_lt, Bool.and_eq_true, decide_eq_true_eq] at overlap
  rw [touchedCells_mem]
  refine ⟨⟨cellOf_le ?_, le_cellOf ?_ ?_⟩, cellOf_le ?_, le_cellOf ?_ ?_⟩ <;> omega

/-- Commands that touch a cell alike overlap it alike. -/
theorem seen_of_touching (on : screen.Contains x y) {others : List Command}
    (same : touching (cellIndex x y) commands = touching (cellIndex x y) others) :
    seen (cellAt x y) commands = seen (cellAt x y) others := by
  have inner : ∀ l, seen (cellAt x y) (touching (cellIndex x y) l) = seen (cellAt x y) l := by
    intro l
    rw [seen, touching, List.filter_filter]
    refine List.filter_congr fun cmd _ => ?_
    cases overlap : rectOverlap (cellAt x y) cmd.toRect
    · rfl
    · simp [overlap_touched on overlap]
  rw [← inner, same, inner]

theorem runEnd_spec (dirty : Nat → Bool) (left x : Nat) :
    x ≤ runEnd dirty left x ∧ runEnd dirty left x ≤ x + left ∧
      (∀ i, x ≤ i → i < runEnd dirty left x → dirty i) ∧
      (runEnd dirty left x < x + left → dirty (runEnd dirty left x) = false) := by
  induction left generalizing x with
  | zero =>
    exact ⟨Nat.le_refl x, Nat.le_refl x, fun i low high => absurd high (Nat.not_lt.mpr low),
      fun less => absurd less (Nat.lt_irrefl x)⟩
  | succ left ih =>
    rw [runEnd]
    by_cases here : dirty x
    · rw [if_pos here]
      obtain ⟨low, high, inside, stop⟩ := ih (x + 1)
      refine ⟨by omega, by omega, fun i reached before => ?_, fun less => stop (by omega)⟩
      rcases Nat.eq_or_lt_of_le reached with rfl | later
      · exact here
      · exact inside i later before
    · rw [if_neg here]
      exact ⟨Nat.le_refl x, by omega, fun i low high => absurd high (by omega), fun _ => by simpa using here⟩

/-- The runs of a row: dirty cells, from left to right, and all of them. -/
theorem scanRow_spec (dirty : Nat → Bool) (left x : Nat) :
    (∀ run ∈ scanRow dirty left x, x ≤ run.1 ∧ run.1 < run.2 ∧ run.2 ≤ x + left ∧
        ∀ i, run.1 ≤ i → i < run.2 → dirty i) ∧
      ∀ i, x ≤ i → i < x + left → dirty i → ∃ run ∈ scanRow dirty left x, run.1 ≤ i ∧ i < run.2 := by
  induction left, x using scanRow.induct dirty with
  | case1 x => exact ⟨by simp [scanRow], fun i low high => absurd high (by omega)⟩
  | case2 left x stop ih =>
    obtain ⟨low, high, inside, clean⟩ := runEnd_spec dirty (left + 1) x
    obtain ⟨runs, complete⟩ := ih
    rw [scanRow]
    change x ≤ stop at low
    change stop ≤ x + (left + 1) at high
    change stop < x + (left + 1) → dirty stop = false at clean
    constructor
    · intro run member
      rcases List.mem_append.mp member with first | later
      · by_cases none : x = stop
        · rw [if_neg (not_not.mpr none)] at first
          cases first
        · rw [if_pos none, List.mem_singleton] at first
          subst first
          exact ⟨Nat.le_refl x, Nat.lt_of_le_of_ne low none, high, inside⟩
      · obtain ⟨starts, nonempty, ends, marked⟩ := runs run later
        exact ⟨by omega, nonempty, by omega, marked⟩
    · intro i reached before marked
      rcases Nat.lt_trichotomy i stop with first | rfl | later
      · have some : x ≠ stop := by omega
        refine ⟨(x, stop), List.mem_append_left _ ?_, reached, first⟩
        rw [if_pos some]
        exact List.mem_singleton_self _
      · exact absurd marked (by simp [clean (by omega)])
      · obtain ⟨run, member, found⟩ := complete i later (by omega) marked
        exact ⟨run, List.mem_append_right _ member, found⟩

/-- A run of cells in a row of cells. -/
def strip (row : Nat) (run : Nat × Nat) : Rect :=
  ⟨run.1 * cellSize, row * cellSize, cellSize * (run.2 - run.1), cellSize⟩

/-- The regions to draw again: runs of cells with a changed hash, on the screen. -/
theorem dirtyRegions_mem [DecidableEq H] {hashes1 hashes2 : Nat → H} {region : Rect}
    (member : region ∈ dirtyRegions hashes1 hashes2) :
    ∃ row run, region = strip row run ∧ row < cellsY ∧ run.1 < run.2 ∧ run.2 ≤ cellsX ∧
      ∀ i, run.1 ≤ i → i < run.2 → hashes1 (i + row * cellsX) ≠ hashes2 (i + row * cellsX) := by
  obtain ⟨row, small, found⟩ := List.mem_flatMap.mp member
  obtain ⟨run, scanned, rfl⟩ := List.mem_map.mp found
  obtain ⟨_, nonempty, ends, marked⟩ := (scanRow_spec _ cellsX 0).1 run scanned
  exact ⟨row, run, rfl, List.mem_range.mp small, nonempty, by omega,
    fun i reached before => by simpa using marked i reached before⟩

section Strips

variable {row : Nat} {run : Nat × Nat} (low : row < cellsY) (nonempty : run.1 < run.2) (narrow : run.2 ≤ cellsX)

include low nonempty narrow

theorem strip_sides : (strip row run).x = run.1 * 16 ∧ (strip row run).right = run.2 * 16 ∧
    (strip row run).y = row * 16 ∧ (strip row run).bottom = row * 16 + 16 := by
  dsimp only [cellsX, cellsY] at low narrow
  have right : (strip row run).right = run.1 * 16 + 16 * (run.2 - run.1) := by
    refine toInt32_of_range ?_ ?_ <;> dsimp only [strip, cellSize] <;> omega
  have bottom : (strip row run).bottom = row * 16 + 16 := by
    refine toInt32_of_range ?_ ?_ <;> dsimp only [strip, cellSize] <;> omega
  exact ⟨rfl, by omega, rfl, bottom⟩

theorem strip_plain : (strip row run).Plain ∧ (strip row run).x < (strip row run).right := by
  obtain ⟨left, right, top, bottom⟩ := strip_sides low nonempty narrow
  have w : (strip row run).w = 16 * (run.2 - run.1) := rfl
  have h : (strip row run).h = 16 := rfl
  dsimp only [cellsX, cellsY] at low narrow
  refine ⟨⟨⟨?_, ?_, ?_, ?_⟩, ?_, ?_⟩, ?_⟩ <;> omega

theorem strip_contains : (strip row run).Contains x y ↔ y / 16 = row ∧ run.1 ≤ x / 16 ∧ x / 16 < run.2 := by
  obtain ⟨left, right, top, bottom⟩ := strip_sides low nonempty narrow
  rw [Rect.Contains, left, right, top, bottom]
  omega

/-- A region has what overlaps the cells in it. -/
theorem strip_around (on : screen.Contains x y) (inside : (strip row run).Contains x y) :
    (strip row run).Around x y := by
  refine ⟨inside, fun r overlap => ?_⟩
  obtain ⟨left, right, top, bottom⟩ := strip_sides low nonempty narrow
  obtain ⟨cellLeft, cellRight, cellTop, cellBottom⟩ := cellAt_sides on
  have cell := (strip_contains low nonempty narrow).mp inside
  simp only [rectOverlap, gt_iff_lt, Bool.and_eq_true, decide_eq_true_eq] at overlap ⊢
  omega

end Strips

/-- The pixels in these regions are those whose cells have a changed hash. -/
theorem dirtyRegions_contains [DecidableEq H] {hashes1 hashes2 : Nat → H} (on : screen.Contains x y) :
    (∃ region ∈ dirtyRegions hashes1 hashes2, region.Contains x y) ↔
      hashes1 (cellIndex x y) ≠ hashes2 (cellIndex x y) := by
  obtain ⟨column, row, narrow, low⟩ := cellIndex_of_screen on
  constructor
  · rintro ⟨region, member, inside⟩
    obtain ⟨row', run, rfl, low', nonempty, narrow', changed⟩ := dirtyRegions_mem member
    obtain ⟨here, starts, ends⟩ := (strip_contains low' nonempty narrow').mp inside
    have index : (x / 16).toNat + row' * cellsX = cellIndex x y := by
      dsimp only [cellsX] at *
      omega
    rw [← index]
    exact changed _ (by omega) (by omega)
  · intro changed
    have index : cellIndex x y % cellsX + cellIndex x y / cellsX * cellsX = cellIndex x y := by
      dsimp only [cellsX]
      omega
    obtain ⟨runs, complete⟩ := scanRow_spec (fun x' => hashes1 (x' + cellIndex x y / cellsX * cellsX) ≠
      hashes2 (x' + cellIndex x y / cellsX * cellsX)) cellsX 0
    obtain ⟨run, scanned, starts, ends⟩ := complete (cellIndex x y % cellsX) (Nat.zero_le _)
      (by rw [Nat.zero_add]; exact Nat.mod_lt _ (by decide)) (by rw [index]; exact decide_eq_true changed)
    obtain ⟨_, nonempty, narrow', _⟩ := runs run scanned
    refine ⟨strip (cellIndex x y / cellsX) run, ?_, ?_⟩
    · exact List.mem_flatMap.mpr ⟨_, List.mem_range.mpr (by omega), List.mem_map.mpr ⟨run, scanned, rfl⟩⟩
    · exact (strip_contains (by omega) nonempty (by omega)).mpr ⟨by omega, by omega, by omega⟩

end UmkaOs.Gfx
