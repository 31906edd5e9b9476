import UmkaOs.Gfx.Swap

namespace UmkaOs.Gfx

open Lib

variable {H : Type} {art : Art} {hashing : Hashing H} {x y : Int}

namespace Rect

/-- No pixel lies in both. -/
def Apart (a b : Rect) : Prop := ∀ x y, a.Contains x y → ¬ b.Contains x y

/-- Every pixel of the other rectangle lies inside. -/
def Covers (a b : Rect) : Prop := ∀ x y, b.Contains x y → a.Contains x y

end Rect

/-- Runs of whole cells, each in one row of cells, with no pixel in common, and
only of cells with two different hashes. -/
def ChangedStrips (hashes1 hashes2 : Nat → H) (regions : List Rect) : Prop :=
  regions.Pairwise Rect.Apart ∧ ∀ region ∈ regions, ∃ row run, region = strip row run ∧ row < cellsY ∧
    run.1 < run.2 ∧ run.2 ≤ cellsX ∧
      ∀ i, run.1 ≤ i → i < run.2 → hashes1 (i + row * cellsX) ≠ hashes2 (i + row * cellsX)

/-- The runs of a row go from left to right. -/
theorem scanRow_ordered (dirty : Nat → Bool) (left x : Nat) :
    (scanRow dirty left x).Pairwise fun run next => run.2 ≤ next.1 := by
  induction left, x using scanRow.induct dirty with
  | case1 x =>
    rw [scanRow]
    exact .nil
  | case2 left x stop ih =>
    rw [scanRow]
    by_cases none : x = stop
    · rw [if_neg (not_not.mpr none)]
      exact ih
    · rw [if_pos none]
      refine List.pairwise_cons.mpr ⟨fun run later => ?_, ih⟩
      have starts := ((scanRow_spec dirty _ _).1 run later).1
      show stop ≤ run.1
      omega

theorem strips_apart_of_rows {row row' : Nat} {run run' : Nat × Nat} (low : row < cellsY) (low' : row' < cellsY)
    (nonempty : run.1 < run.2) (narrow : run.2 ≤ cellsX) (nonempty' : run'.1 < run'.2) (narrow' : run'.2 ≤ cellsX)
    (different : row ≠ row') : (strip row run).Apart (strip row' run') := by
  intro x y inside inside'
  have here := (strip_contains low nonempty narrow).mp inside
  have here' := (strip_contains low' nonempty' narrow').mp inside'
  exact different (by omega)

theorem strips_apart_of_runs {row : Nat} {run run' : Nat × Nat} (low : row < cellsY)
    (nonempty : run.1 < run.2) (narrow : run.2 ≤ cellsX) (nonempty' : run'.1 < run'.2) (narrow' : run'.2 ≤ cellsX)
    (ordered : run.2 ≤ run'.1) : (strip row run).Apart (strip row run') := by
  intro x y inside inside'
  have here := (strip_contains low nonempty narrow).mp inside
  have here' := (strip_contains low nonempty' narrow').mp inside'
  omega

/-- The regions of one `gfxSwap`, whatever the hashes are. -/
theorem dirtyRegions_changed [DecidableEq H] (hashes1 hashes2 : Nat → H) :
    ChangedStrips hashes1 hashes2 (dirtyRegions hashes1 hashes2) := by
  have runs : ∀ row, ∀ run ∈ scanRow (fun x => hashes1 (x + row * cellsX) ≠ hashes2 (x + row * cellsX)) cellsX 0,
      run.1 < run.2 ∧ run.2 ≤ cellsX := by
    intro row run scanned
    obtain ⟨_, nonempty, narrow, _⟩ := (scanRow_spec _ cellsX 0).1 run scanned
    exact ⟨nonempty, by omega⟩
  refine ⟨?_, fun region member => dirtyRegions_mem member⟩
  rw [dirtyRegions, List.pairwise_flatMap]
  constructor
  · intro row small
    have low := List.mem_range.mp small
    refine List.pairwise_map.mpr ((scanRow_ordered _ cellsX 0).imp_of_mem fun {run run'} scanned scanned' ordered => ?_)
    obtain ⟨nonempty, narrow⟩ := runs row run scanned
    obtain ⟨nonempty', narrow'⟩ := runs row run' scanned'
    exact strips_apart_of_runs low nonempty narrow nonempty' narrow' ordered
  · refine List.nodup_range.imp_of_mem fun {row row'} small small' different => ?_
    intro region member region' member'
    obtain ⟨run, scanned, rfl⟩ := List.mem_map.mp member
    obtain ⟨run', scanned', rfl⟩ := List.mem_map.mp member'
    obtain ⟨nonempty, narrow⟩ := runs row run scanned
    obtain ⟨nonempty', narrow'⟩ := runs row' run' scanned'
    exact strips_apart_of_rows (List.mem_range.mp small) (List.mem_range.mp small') nonempty narrow nonempty' narrow'
      different

/-- A strip with one pixel of a cell has all of them. -/
theorem strip_covers {row : Nat} {run : Nat × Nat} (low : row < cellsY) (nonempty : run.1 < run.2)
    (narrow : run.2 ≤ cellsX) (on : screen.Contains x y) (inside : (strip row run).Contains x y) :
    (strip row run).Covers (cellAt x y) := by
  intro x' y' same
  obtain ⟨left, right, top, bottom⟩ := cellAt_sides on
  obtain ⟨_, _, _, _⟩ := same
  rw [strip_contains low nonempty narrow] at inside ⊢
  omega

namespace Display

variable {g : Display H}

/-- The display with these commands in its queue. -/
def queued (g : Display H) (commands : List Command) : Display H := { g with commands }

variable [DecidableEq H]

/-- The display when `gfxSwap` has hashed the commands. -/
def hashed (hashing : Hashing H) (g : Display H) : Display H :=
  { g with hashes1 := g.commands.foldl (hashCommand hashing) g.hashes1 }

/-- The regions that `gfxSwap` draws again. -/
def swapRegions (hashing : Hashing H) (g : Display H) : List Rect :=
  dirtyRegions (g.hashed hashing).hashes1 (g.hashed hashing).hashes2

theorem gfxSwap_buffers (art : Art) (hashing : Hashing H) (g : Display H) :
    (g.gfxSwap art hashing).backbuffer =
        ((swapRegions hashing g).foldl (gfxRedrawRegion art) (g.hashed hashing)).backbuffer ∧
      (g.gfxSwap art hashing).pixels =
        ((swapRegions hashing g).foldl (gfxRedrawRegion art) (g.hashed hashing)).pixels :=
  ⟨rfl, rfl⟩

/-- The states of a program that calls the drawing functions, and puts any commands
at all into the queue. -/
inductive Reached (art : Art) (hashing : Hashing H) : Display H → Prop where
  | started {g : Display H} (started : Started hashing g) : Reached art hashing g
  | call {g : Display H} (reached : Reached art hashing g) (call : Call) : Reached art hashing (g.call art hashing call)
  | queued {g : Display H} (reached : Reached art hashing g) (commands : List Command) :
      Reached art hashing (g.queued commands)

/-- Every frame starts with the same hash in all cells. -/
theorem Reached.fresh (reached : Reached art hashing g) :
    ∃ start ∈ [hashing.zeros, hashing.init], g.hashes1 = fun _ => start := by
  induction reached with
  | started started => exact ⟨hashing.zeros, by simp, started.hashes1⟩
  | call reached call ih =>
    by_cases swap : call = .swap
    · subst swap
      exact ⟨hashing.init, by simp, gfxSwap_hashes.1⟩
    · rw [(call_frame swap).1]
      exact ih
  | queued reached commands ih => exact ih

/-- A cell in which two frames differ is drawn again in the second. -/
theorem changed_cell (free : hashing.CollisionFree) (reached : Reached art hashing g) {first second : List Command}
    (on : screen.Contains x y) (differs : seen (cellAt x y) first ≠ seen (cellAt x y) second) :
    ∃ region ∈ swapRegions hashing (((g.queued first).gfxSwap art hashing).queued second),
      region.Covers (cellAt x y) := by
  obtain ⟨start, seed, hashes1⟩ := reached.fresh
  have dirty : second.foldl (hashCommand hashing) ((g.queued first).gfxSwap art hashing).hashes1 (cellIndex x y) ≠
      ((g.queued first).gfxSwap art hashing).hashes2 (cellIndex x y) := by
    rw [hash_at, gfxSwap_hashes.1, gfxSwap_hashes.2]
    show _ ≠ (touching (cellIndex x y) first).foldl hashing.mix (g.hashes1 (cellIndex x y))
    rw [hashes1]
    intro same
    exact differs (seen_of_touching on (free.chain hashing.init (by simp) start seed _ _ same).symm)
  obtain ⟨region, member, inside⟩ := (dirtyRegions_contains on).mpr dirty
  obtain ⟨row, run, rfl, low, nonempty, narrow, _⟩ := dirtyRegions_mem member
  exact ⟨strip row run, member, strip_covers low nonempty narrow on inside⟩

/-- Every cell that two successive frames of any commands differ in is drawn again,
and every `gfxSwap` draws its regions, which are strips of changed cells. -/
theorem dirty_cells (free : hashing.CollisionFree) (reached : Reached art hashing g) (first second : List Command) :
    (∀ x y, screen.Contains x y → seen (cellAt x y) first ≠ seen (cellAt x y) second →
      ∃ region ∈ swapRegions hashing (((g.queued first).gfxSwap art hashing).queued second),
        region.Covers (cellAt x y)) ∧
      ∀ g' : Display H,
        ChangedStrips (g'.hashed hashing).hashes1 (g'.hashed hashing).hashes2 (swapRegions hashing g') ∧
        (g'.gfxSwap art hashing).backbuffer =
          ((swapRegions hashing g').foldl (gfxRedrawRegion art) (g'.hashed hashing)).backbuffer ∧
        (g'.gfxSwap art hashing).pixels =
          ((swapRegions hashing g').foldl (gfxRedrawRegion art) (g'.hashed hashing)).pixels :=
  ⟨fun _ _ on differs => changed_cell free reached on differs,
    fun g' => ⟨dirtyRegions_changed _ _, gfxSwap_buffers art hashing g'⟩⟩

theorem dirty_cells_cleared : ∃ (g' : Display (Option (Bool × List Command))) (regions : List Rect),
    g' = ((blank.queued [cover 0]).gfxSwap plainArt listHashing).queued [] ∧
    (∃ region ∈ regions, region.Covers (cellAt 0 0)) ∧
    (g'.gfxSwap plainArt listHashing).backbuffer =
      (regions.foldl (gfxRedrawRegion plainArt) (g'.hashed listHashing)).backbuffer := by
  obtain ⟨changed, drawn⟩ :=
    @dirty_cells _ plainArt _ _ _ listHashing_free (.started blank_started) [cover 0] []
  exact ⟨_, _, rfl, changed 0 0 (by decide) (by decide), (drawn _).2.1⟩

end Display

end UmkaOs.Gfx
