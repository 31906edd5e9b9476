import UmkaOs.Fmt.Print
import UmkaOs.Vfs.Write
import Mathlib.Data.List.GetD

namespace UmkaOs

open Lib

namespace RWStream

variable {s s' : RWStream} {mem : Mem} {writes more : List (List UInt8)} {data : List UInt8}

theorem writeAll_append : s.writeAll (writes ++ more) = (do
    let s ← s.writeAll writes
    s.writeAll more) := by
  induction writes generalizing s with
  | nil => rfl
  | cons data rest ih =>
    rw [List.cons_append, writeAll, writeAll]
    cases s.write data with
    | error e => rfl
    | ok s' => exact ih

/-- The memory with `data` copied to `offs` up to the position `stop`. -/
def filled (mem : Mem) (offs stop : Nat) (data : List UInt8) : Mem := fun i =>
  if offs ≤ i ∧ i < stop then data.getD (i - offs) 0 else mem i

theorem strPut_eq {limit offs : Nat} (room : offs ≤ limit) :
    strPut limit data mem offs =
      (filled mem offs (min (offs + data.length) limit) data, min (offs + data.length) limit) := by
  induction data generalizing mem offs with
  | nil =>
    have stop : min (offs + ([] : List UInt8).length) limit = offs := Nat.min_eq_left room
    rw [stop]
    have same : filled mem offs offs [] = mem := by
      funext i
      rw [filled, if_neg (by omega)]
    rw [same, strPut]
  | cons c rest ih =>
    rw [strPut]
    by_cases inside : offs < limit
    · rw [if_pos inside, ih (Nat.succ_le_of_lt inside)]
      have stop : min (offs + 1 + rest.length) limit = min (offs + (c :: rest).length) limit := by
        rw [List.length_cons]
        congr 1
        omega
      rw [stop]
      congr 1
      funext i
      simp only [filled, List.length_cons]
      by_cases first : i = offs
      · subst first
        have reach : i < min (i + (rest.length + 1)) limit := by omega
        simp [reach]
      · by_cases later : offs + 1 ≤ i
        · obtain ⟨k, rfl⟩ : ∃ k, i = offs + 1 + k := ⟨i - offs - 1, by omega⟩
          have shift : offs + 1 + k - offs = k + 1 := by omega
          have shift' : offs + 1 + k - (offs + 1) = k := by omega
          rw [shift, shift', List.getD_cons_succ, Function.update_of_ne first]
          by_cases reach : offs + 1 + k < min (offs + (rest.length + 1)) limit
          · rw [if_pos ⟨later, reach⟩, if_pos ⟨by omega, reach⟩]
          · rw [if_neg (fun both => reach both.2), if_neg (fun both => reach both.2)]
        · rw [if_neg (fun both => later both.1), if_neg (by omega), Function.update_of_ne first]
    · have full : limit = offs := Nat.le_antisymm (Nat.le_of_not_lt inside) room
      have stop : min (offs + (c :: rest).length) limit = offs := by
        rw [full]
        exact Nat.min_eq_right (Nat.le_add_right _ _)
      rw [if_neg inside, stop]
      congr 1
      funext i
      rw [filled, if_neg (by omega)]

/-- `size` bytes from a source on; what lies behind it is not known. -/
def extended (source : List UInt8) (size : Nat) : List UInt8 :=
  (source ++ List.replicate (size - source.length) 0).take size

@[simp] theorem length_extended (source : List UInt8) (size : Nat) : (extended source size).length = size := by
  rw [extended, List.length_take, List.length_append, List.length_replicate]
  omega

theorem extended_within {source : List UInt8} {size : Nat} (within : size ≤ source.length) :
    extended source size = source.take size := by
  rw [extended, List.take_append_of_le_length within]

/-- The loop does not look further than its limit. -/
theorem strPut_take {limit offs : Nat} : strPut limit (data.take (limit - offs)) mem offs = strPut limit data mem offs := by
  induction data generalizing mem offs with
  | nil => simp
  | cons c rest ih =>
    by_cases inside : offs < limit
    · have more : limit - offs = limit - (offs + 1) + 1 := by omega
      rw [more, List.take_succ_cons, strPut, strPut, if_pos inside, if_pos inside, ih]
    · have full : limit - offs = 0 := by omega
      rw [full, List.take_zero, strPut, strPut, if_neg inside]

/-- A copy that does not read behind its source writes it. -/
theorem writeFrom_eq {source : List UInt8} {size : Nat} (inside : s.reads 0 size ≤ source.length) :
    s.writeFrom source size = s.write (extended source size) := by
  rw [writeFrom, if_neg (Nat.not_lt.mpr inside)]
  cases target : s.target with
  | str mem =>
    simp only [reads, target, Nat.add_zero] at inside
    simp only [reads, target, Nat.add_zero, write, length_extended]
    by_cases none : s.size = 0
    · simp [none, bind, Except.bind, pure, Except.pure]
    · have same : strPut (s.size - 1) (source.take (min size (s.size - 1 - s.offs))) mem s.offs =
          strPut (s.size - 1) (extended source size) mem s.offs := by
        rw [← @strPut_take mem (extended source size), extended, List.take_take, Nat.min_comm _ size,
          List.take_append_of_le_length inside]
      simp only [none, if_false, same, bind, Except.bind, pure, Except.pure]
  | file v p =>
    have within : size ≤ source.length := by simpa [reads, target] using inside
    simp only [reads, target, write, extended_within within, List.length_take, Nat.min_eq_left within]
    simp only [bind, Except.bind, pure, Except.pure]
    cases v.vfsWrite p (source.take size) <;> rfl

theorem reads_le (s : RWStream) (produced size : Nat) : s.reads produced size ≤ size := by
  rw [reads]
  split
  · exact Nat.min_le_left _ _
  · exact Nat.le_refl _

theorem strPut_offs {limit offs : Nat} :
    (strPut limit data mem offs).2 = max offs (min (offs + data.length) limit) := by
  induction data generalizing mem offs with
  | nil => simp [strPut]
  | cons c rest ih =>
    rw [strPut]
    by_cases inside : offs < limit
    · rw [if_pos inside, ih, List.length_cons]
      omega
    · rw [if_neg inside]
      omega

/-- What is read of a later source depends on where the sink ends. -/
theorem write_reads (written : s.write data = .ok s') (produced size : Nat) :
    s'.reads produced size = s.reads (data.length + produced) size := by
  cases target : s.target with
  | str mem =>
    simp only [write, target] at written
    split at written
    · rename_i none
      cases written
      simp only [reads, target, none]
      omega
    · cases written
      simp only [reads, target, strPut_offs]
      omega
  | file v p =>
    simp only [write, target] at written
    obtain ⟨⟨v', count⟩, -, same⟩ := bind_ok written
    cases same
    simp only [reads, target]

theorem writeFrom_within {source : List UInt8} {size : Nat} (within : size ≤ source.length) :
    s.writeFrom source size = s.write (source.take size) := by
  rw [writeFrom_eq (Nat.le_trans (s.reads_le 0 size) within), extended_within within]

/-- The memory after a row of writes that ends at `stop`: the data, and the
terminator if anything was written at all. -/
def printed (mem : Mem) (offs stop : Nat) (writes : List (List UInt8)) : Mem := fun i =>
  if i = stop ∧ writes ≠ [] then 0 else filled mem offs stop writes.flatten i

theorem printed_nil {offs : Nat} : printed mem offs offs [] = mem := by
  funext i
  simp only [printed, filled, ne_eq, not_true_eq_false, and_false, if_false]
  rw [if_neg (by omega)]

theorem printed_cons {offs first stop limit : Nat} (here : first = min (offs + data.length) limit)
    (there : stop = min (first + writes.flatten.length) limit) :
    printed (Function.update (filled mem offs first data) first 0) first stop writes =
      printed mem offs stop (data :: writes) := by
  funext i
  simp only [printed, List.flatten_cons, reduceCtorEq, not_false_eq_true, and_true, ne_eq]
  by_cases ends : i = stop
  · rw [if_pos ends]
    by_cases last : writes = []
    · have same : stop = first := by
        rw [there, here, last]
        simp
      rw [if_neg (by simp [last]), filled, if_neg (by omega), ends, same, Function.update_self]
    · rw [if_pos ⟨ends, last⟩]
  · rw [if_neg (fun both => ends both.1), if_neg ends]
    simp only [filled]
    by_cases before : i < first
    · rw [if_neg (by omega), Function.update_of_ne (by omega), filled]
      by_cases inside : offs ≤ i
      · rw [if_pos ⟨inside, before⟩, if_pos ⟨inside, by omega⟩, List.getD_append _ _ _ _ (by omega)]
      · rw [if_neg (fun both => inside both.1), if_neg (fun both => inside both.1)]
    · by_cases inside : i < stop
      · rw [if_pos ⟨by omega, inside⟩, if_pos ⟨by omega, inside⟩, List.getD_append_right _ _ _ _ (by omega)]
        congr 1
        omega
      · have notFirst : i ≠ first := by omega
        rw [if_neg (fun both => inside both.2), if_neg (fun both => inside both.2),
          Function.update_of_ne notFirst, filled, if_neg (fun both => before both.2)]

theorem writeAll_str {so offs size : Nat} (small : so < 2 ^ 32) (room : offs < size) :
    (⟨so, offs, size, .str mem⟩ : RWStream).writeAll writes =
      .ok ⟨wrap32 (so + writes.flatten.length), min (offs + writes.flatten.length) (size - 1), size,
        .str (printed mem offs (min (offs + writes.flatten.length) (size - 1)) writes)⟩ := by
  induction writes generalizing so offs mem with
  | nil =>
    have stop : min (offs + ([] : List UInt8).length) (size - 1) = offs :=
      Nat.min_eq_left (Nat.le_sub_one_of_lt room)
    rw [List.flatten_nil, stop, printed_nil, List.length_nil, Nat.add_zero, wrap32_of_lt small, writeAll]
  | cons data rest ih =>
    have some : size ≠ 0 := by omega
    have step := @strPut_eq mem data (size - 1) offs (by omega)
    rw [writeAll, write]
    simp only [some, if_false, step, bind, Except.bind]
    rw [ih (wrap32_lt _) (by omega)]
    have stop : min (min (offs + data.length) (size - 1) + rest.flatten.length) (size - 1) =
        min (offs + (data :: rest).flatten.length) (size - 1) := by
      simp only [List.flatten_cons, List.length_append]
      omega
    have count : wrap32 (wrap32 (so + data.length) + rest.flatten.length) =
        wrap32 (so + (data :: rest).flatten.length) := by
      simp [wrap32, Nat.add_assoc]
    rw [count, printed_cons rfl rfl, stop]

/-- A buffer of size 0 only counts. -/
theorem writeAll_none {so offs : Nat} (small : so < 2 ^ 32) :
    (⟨so, offs, 0, .str mem⟩ : RWStream).writeAll writes =
      .ok ⟨wrap32 (so + writes.flatten.length), offs, 0, .str mem⟩ := by
  induction writes generalizing so with
  | nil => simp [writeAll, wrap32_of_lt small]
  | cons data rest ih =>
    rw [writeAll, write]
    simp only [if_true, bind, Except.bind]
    rw [ih (wrap32_lt _)]
    simp [wrap32, Nat.add_assoc]

/-- A file takes everything, in order. -/
theorem writeAll_file {v : Vfs} {t : FileTree} {p : Ptr} {st : Stream} {file : File} {so offs size : Nat}
    (tree : v.Tree t) (opened : v.streams p = some st) (labelled : t.label? st.node = some file)
    (small : so < 2 ^ 32) (room : file.content.length + writes.flatten.length < 2 ^ 32) :
    ∃ v', (⟨so, offs, size, .file v p⟩ : RWStream).writeAll writes =
        .ok ⟨wrap32 (so + writes.flatten.length), offs, size, .file v' p⟩ ∧
      v'.Tree (t.relabel st.node (File.withContent (· ++ writes.flatten))) ∧ Vfs.OnStream v v' p st := by
  induction writes generalizing so v t st file with
  | nil =>
    have same : File.withContent (· ++ ([] : List (List UInt8)).flatten) = id := by
      funext file
      simp [File.withContent]
    refine ⟨v, by simp [writeAll, wrap32_of_lt small], ?_, rfl, Nat.le_refl _, fun _ _ => rfl, st, opened, rfl, rfl⟩
    rw [same, Forest.relabel_id]
    exact tree
  | cons data rest ih =>
    rw [List.flatten_cons, List.length_append] at room
    obtain ⟨v1, written, tree1, first⟩ := @Vfs.Tree.vfsWrite v t p st data tree opened file labelled (by omega)
    obtain ⟨st1, opened1, node, hook⟩ := first.own
    have labelled1 : (t.relabel st.node (File.withContent (· ++ data))).label? st1.node =
        some (file.withContent (· ++ data)) := by
      rw [node, Forest.label?_relabel, labelled]
      rfl
    obtain ⟨v2, further, tree2, second⟩ := ih tree1 opened1 labelled1 (wrap32_lt (so + data.length)) (by
      simp only [File.withContent, List.length_append]
      omega)
    refine ⟨v2, ?_, ?_, first.trans node hook second⟩
    · rw [writeAll, write]
      simp only [written, bind, Except.bind, pure, Except.pure, further]
      simp [wrap32, Nat.add_assoc]
    · have both : File.withContent (· ++ rest.flatten) ∘ File.withContent (· ++ data) =
          File.withContent (· ++ (data :: rest).flatten) := by
        funext file
        simp [File.withContent]
      rw [node, Forest.relabel_relabel, both] at tree2
      exact tree2

end RWStream

end UmkaOs
