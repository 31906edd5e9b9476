import Mathlib.Data.List.Induction
import Mathlib.Data.List.Nodup
import Mathlib.Logic.Function.Basic

namespace UmkaOs.Lib

universe u v

variable {K : Type u} {V : Type v} [DecidableEq K]

/-- The memory after a list of writes. -/
def writeAll (memory : K → V) (writes : List (K × V)) : K → V :=
  writes.foldl (fun memory write => Function.update memory write.1 write.2) memory

variable {memory : K → V} {writes : List (K × V)} {k : K} {v : V}

theorem writeAll_concat (write : K × V) :
    writeAll memory (writes ++ [write]) = Function.update (writeAll memory writes) write.1 write.2 := by
  simp [writeAll]

theorem writeAll_append (front back : List (K × V)) :
    writeAll memory (front ++ back) = writeAll (writeAll memory front) back :=
  List.foldl_append

theorem writeAll_outside (outside : ∀ write ∈ writes, write.1 ≠ k) : writeAll memory writes k = memory k := by
  induction writes using List.reverseRecOn with
  | nil => rfl
  | append_singleton writes write ih =>
    have other : k ≠ write.1 := fun same => outside write (by simp) same.symm
    rw [writeAll_concat, Function.update_of_ne other]
    exact ih (fun write member => outside write (List.mem_append_left _ member))

theorem writeAll_inside (agree : ∀ write ∈ writes, write.1 = k → write.2 = v) (member : (k, v) ∈ writes) :
    writeAll memory writes k = v := by
  induction writes using List.reverseRecOn with
  | nil => simp at member
  | append_singleton writes write ih =>
    rw [writeAll_concat]
    by_cases same : k = write.1
    · subst same
      rw [Function.update_self]
      exact agree write (by simp) rfl
    · rw [Function.update_of_ne same]
      refine ih (fun write member => agree write (List.mem_append_left _ member)) ?_
      rcases List.mem_append.mp member with before | here
      · exact before
      · exact absurd (congrArg Prod.fst (List.mem_singleton.mp here)) same

/-- An address that is written with one value, or with none, holds that value or its own. -/
theorem writeAll_at {value : Option V} (writes_iff : ∀ v, (k, v) ∈ writes ↔ value = some v) :
    writeAll memory writes k = value.getD (memory k) := by
  cases value with
  | none =>
    refine writeAll_outside fun write member same => ?_
    have written := (writes_iff write.2).mp (same ▸ member)
    cases written
  | some v =>
    refine writeAll_inside (fun write member same => ?_) ((writes_iff v).mpr rfl)
    exact (Option.some.inj ((writes_iff write.2).mp (same ▸ member))).symm

/-- Entries that are each replaced once by a function of their old value. -/
theorem foldl_modify (f : V → V) {keys : List K} (nodup : keys.Nodup) (memory : K → V) :
    keys.foldl (fun memory k => Function.update memory k (f (memory k))) memory k =
      if k ∈ keys then f (memory k) else memory k := by
  induction keys generalizing memory with
  | nil => simp
  | cons head rest ih =>
    obtain ⟨fresh, nodup⟩ := List.nodup_cons.mp nodup
    rw [List.foldl_cons, ih nodup]
    by_cases same : k = head
    · subst same
      simp [fresh]
    · simp [same]

/-- `values` are stored one after the other, each right below the one before. -/
def descending (ptr : Int) : List V → List (Int × V)
  | [] => []
  | v :: values => (ptr - 1, v) :: descending (ptr - 1) values

variable {ptr : Int} {values : List V} {contents : Int → V}

theorem mem_descending {write : Int × V} (member : write ∈ descending ptr values) :
    ptr - values.length ≤ write.1 ∧ write.1 < ptr := by
  induction values generalizing ptr with
  | nil => simp [descending] at member
  | cons v values ih =>
    rw [List.length_cons]
    rcases List.mem_cons.mp member with rfl | later
    · dsimp only
      omega
    · have range := ih later
      omega

/-- The last write is the lowest one. -/
theorem getLast?_descending {v : V} :
    ((ptr, v) :: descending ptr values).getLast?.map Prod.fst = some (ptr - values.length) := by
  induction values generalizing ptr v with
  | nil => simp [descending]
  | cons w values ih =>
    rw [descending, List.getLast?_cons_cons, ih, List.length_cons]
    congr 1
    omega

/-- Upwards from the lowest one they read backwards. -/
theorem writeAll_descending {k : Nat} (inside : k < values.length) :
    some (writeAll contents (descending ptr values) (ptr - values.length + k)) = values.reverse[k]? := by
  induction values generalizing ptr contents with
  | nil => cases inside
  | cons v values ih =>
    have shift : ptr - ((v :: values).length : Int) + k = ptr - 1 - values.length + k := by
      rw [List.length_cons]
      omega
    have first : writeAll contents (descending ptr (v :: values)) =
        writeAll (Function.update contents (ptr - 1) v) (descending (ptr - 1) values) := rfl
    rw [shift, first, List.reverse_cons]
    by_cases below : k < values.length
    · rw [ih below, List.getElem?_append_left (by simpa using below)]
    · have last : k = values.length := by
        rw [List.length_cons] at inside
        omega
      subst last
      have here : ptr - 1 - (values.length : Int) + values.length = ptr - 1 := by omega
      rw [here, writeAll_outside fun write member => Int.ne_of_lt (mem_descending member).2, Function.update_self]
      simp

end UmkaOs.Lib
