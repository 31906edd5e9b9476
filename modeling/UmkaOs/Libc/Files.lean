import UmkaOs.Libc.Compare
import UmkaOs.Vfs.Chunks

/-! `fgetc` and `fputc` of `mock_libc/mock_libc.c`. The end of a file is told apart from
its bytes by `EOF`, which is 0 here. -/

namespace UmkaOs.Libc

open Lib Vfs

/-- `#define EOF 0` -/
def EOF : Int := 0

def fgetc (v : Vfs) (s : Ptr) : Except Fault (Vfs × Int) := do
  let r ← v.vfsRead s 1
  match r.2 with
  | [] => return (r.1, EOF)
  | c :: _ => return (r.1, charOf c)

def fputc (v : Vfs) (c : UInt8) (s : Ptr) : Except Fault (Vfs × Int) := do
  let r ← v.vfsWrite s [c]
  return (r.1, if r.2 = 0 then EOF else charOf c)

/-- `fputc` for one byte after the other, and what the calls return. -/
def putBytes (v : Vfs) (s : Ptr) : List UInt8 → Except Fault (Vfs × List Int)
  | [] => .ok (v, [])
  | c :: bytes => do
    let r ← fputc v c s
    let rest ← putBytes r.1 s bytes
    return (rest.1, r.2 :: rest.2)

/-- `while ((c = fgetc(stream)) != EOF)`, with so much fuel, and the characters it gets. -/
def getBytes : Nat → Vfs → Ptr → Except Fault (Vfs × List Int)
  | 0, _, _ => .error .diverges
  | fuel + 1, v, s => do
    let r ← fgetc v s
    if r.2 = EOF then return (r.1, [])
    else
      let rest ← getBytes fuel r.1 s
      return (rest.1, r.2 :: rest.2)

/-- The bytes are written with success, and read back to the end of the file. -/
def RoundTrip (v : Vfs) (s : Ptr) (path : CString) (bytes : List UInt8) : Prop :=
  ∃ v2 results v3 v4 r fuel v5 got, putBytes v s bytes = .ok (v2, results) ∧ (∀ result ∈ results, result ≠ EOF) ∧
    v2.vfsClose s = .ok v3 ∧ v3.vfsOpen path [114] = .ok (v4, r) ∧ r ≠ 0 ∧
    getBytes fuel v4 r = .ok (v5, got) ∧ got = bytes.map charOf ∧ v5.vfsEof r = .ok true

variable {v v' : Vfs} {t : FileTree} {path : CString} {s : Ptr} {st : Stream} {file : File} {bytes : List UInt8}

/-- Only the byte 0 is taken for the end. -/
theorem charOf_eq_EOF {c : UInt8} : charOf c = EOF ↔ c = 0 := by
  rw [← charOf_inj]
  rfl

theorem vfsWrite_count {written : Nat} (run : v.vfsWrite s bytes = .ok (v', written)) : written = bytes.length := by
  obtain ⟨_, _, run⟩ := bind_ok run
  obtain ⟨_, _, run⟩ := bind_ok run
  obtain ⟨_, _, run⟩ := bind_ok run
  cases run
  rfl

/-- `fputc` writes one byte, and returns it. -/
theorem fputc_iff {c : UInt8} {result : Int} :
    fputc v c s = .ok (v', result) ↔ v.vfsWrite s [c] = .ok (v', 1) ∧ result = charOf c := by
  constructor
  · intro run
    obtain ⟨⟨w, written⟩, wrote, run⟩ := bind_ok run
    cases vfsWrite_count wrote
    cases run
    exact ⟨wrote, rfl⟩
  · rintro ⟨wrote, rfl⟩
    rw [fputc, wrote]
    rfl

/-- Writing byte by byte is writing chunks of one byte, and all of them are returned. -/
theorem putBytes_iff {results : List Int} : putBytes v s bytes = .ok (v', results) ↔
    v.writeChunks s (bytes.map fun c => [c]) = .ok v' ∧ results = bytes.map charOf := by
  induction bytes generalizing v results with
  | nil =>
    rw [putBytes, List.map_nil, List.map_nil, Vfs.writeChunks]
    constructor
    · intro run
      cases run
      exact ⟨rfl, rfl⟩
    · rintro ⟨run, rfl⟩
      cases run
      rfl
  | cons c bytes ih =>
    constructor
    · intro run
      obtain ⟨⟨w, result⟩, first, run⟩ := bind_ok run
      obtain ⟨⟨w', rest⟩, later, run⟩ := bind_ok run
      cases run
      obtain ⟨wrote, rfl⟩ := fputc_iff.mp first
      obtain ⟨chunks, rfl⟩ := ih.mp later
      refine ⟨?_, rfl⟩
      rw [List.map_cons, Vfs.writeChunks, wrote]
      exact chunks
    · rintro ⟨run, rfl⟩
      obtain ⟨⟨w, written⟩, wrote, chunks⟩ := bind_ok run
      cases vfsWrite_count wrote
      rw [putBytes, fputc_iff.mpr ⟨wrote, rfl⟩]
      dsimp only [bind, Except.bind]
      rw [ih.mpr ⟨chunks, rfl⟩]
      rfl

theorem flatten_singletons (bytes : List UInt8) : (bytes.map fun c => [c]).flatten = bytes := by
  rw [← List.flatMap_def, List.flatMap_singleton']

theorem writeChunks_append {front back : List (List UInt8)} (run : v.writeChunks s (front ++ back) = .ok v') :
    ∃ w, v.writeChunks s front = .ok w ∧ w.writeChunks s back = .ok v' := by
  induction front generalizing v with
  | nil => exact ⟨v, rfl, run⟩
  | cons chunk front ih =>
    obtain ⟨r, wrote, later⟩ := bind_ok run
    obtain ⟨w, first, second⟩ := ih later
    refine ⟨w, ?_, second⟩
    rw [Vfs.writeChunks, wrote]
    exact first

/-- A file takes less than 2^32 bytes. -/
theorem putBytes_short {results : List Int} {name : CString} (tree : Tree v t) (stream : v.streams s = some st)
    (label : t.label? st.node = some ⟨name, []⟩) (run : putBytes v s bytes = .ok (v', results)) :
    bytes.length < 2 ^ 32 := by
  by_contra long
  obtain ⟨n, top⟩ : ∃ n, n + 1 = 2 ^ 32 := ⟨2 ^ 32 - 1, rfl⟩
  obtain ⟨chunks, _⟩ := putBytes_iff.mp run
  -- the byte that would make the size wrap around
  have split : bytes = bytes.take n ++ bytes[n] :: bytes.drop (n + 1) := by
    rw [← List.drop_eq_getElem_cons, List.take_append_drop]
  rw [split, List.map_append, List.map_cons] at chunks
  obtain ⟨w, first, later⟩ := writeChunks_append chunks
  obtain ⟨r, wrote, _⟩ := bind_ok later
  have front : (bytes.take n).length = n := List.length_take_of_le (by omega)
  have room : ([] : List UInt8).length + ((bytes.take n).map fun c => [c]).flatten.length < 2 ^ 32 := by
    rw [flatten_singletons, front, List.length_nil]
    omega
  obtain ⟨w', written, tree', alone⟩ := tree.writeChunks stream label room
  cases written.symm.trans first
  obtain ⟨st', stream', node, _⟩ := alone.own
  have label' :
      (t.relabel st.node (File.withContent (· ++ ((bytes.take n).map fun c => [c]).flatten))).label? st'.node =
        some ⟨name, [] ++ ((bytes.take n).map fun c => [c]).flatten⟩ := by
    rw [node, Forest.label?_relabel, label]
    rfl
  have overrun := @Tree.vfsWrite_long w _ s st' [bytes[n]] tree' stream' _ label' (by
    rw [flatten_singletons, List.nil_append, front, List.length_singleton]
    omega)
  cases overrun.symm.trans wrote

theorem fgetc_inside (tree : Tree v t) (opened : v.streams s = some st) (labelled : t.label? st.node = some file)
    (small : file.content.length < 2 ^ 32) (inside : st.i < file.content.length) :
    fgetc v s = .ok (v.setStream s { st with i := st.i + 1 }, charOf file.content[st.i]) := by
  have position : min (st.i + 1) file.content.length = st.i + 1 := Nat.min_eq_left inside
  have byte : (file.content.drop st.i).take 1 = [file.content[st.i]] := by
    rw [List.drop_eq_getElem_cons inside, List.take_succ_cons, List.take_zero]
  rw [fgetc, tree.vfsRead opened labelled small (Nat.le_of_lt inside), position, byte]
  rfl

theorem fgetc_end (tree : Tree v t) (opened : v.streams s = some st) (labelled : t.label? st.node = some file)
    (small : file.content.length < 2 ^ 32) (atEnd : st.i = file.content.length) : fgetc v s = .ok (v, EOF) := by
  have position : min (st.i + 1) file.content.length = st.i := by omega
  rw [fgetc, tree.vfsRead opened labelled small (Nat.le_of_eq atEnd), position, setStream_self opened, atEnd,
    List.drop_length]
  rfl

/-- Without a byte 0 the loop gets what is left of the file, and stops at its end. -/
theorem getBytes_rest {fuel : Nat} (tree : Tree v t) (opened : v.streams s = some st)
    (labelled : t.label? st.node = some file) (small : file.content.length < 2 ^ 32)
    (inside : st.i ≤ file.content.length) (plain : 0 ∉ file.content) (enough : file.content.length < fuel + st.i) :
    getBytes fuel v s = .ok (v.setStream s { st with i := file.content.length },
      (file.content.drop st.i).map charOf) := by
  induction fuel generalizing v st with
  | zero => omega
  | succ fuel ih =>
    rcases Nat.lt_or_eq_of_le inside with before | atEnd
    · have other : charOf file.content[st.i] ≠ EOF := by
        intro same
        exact plain (charOf_eq_EOF.mp same ▸ List.getElem_mem before)
      have later := @ih (v.setStream s { st with i := st.i + 1 }) { st with i := st.i + 1 }
        (tree.setStream opened _) (Function.update_self ..) labelled before (by
          dsimp only
          omega)
      rw [getBytes, fgetc_inside tree opened labelled small before]
      dsimp only [bind, Except.bind]
      rw [if_neg other, later, setStream_setStream, List.drop_eq_getElem_cons before, List.map_cons]
      rfl
    · have same : v.setStream s { st with i := st.i } = v := setStream_self opened
      rw [getBytes, fgetc_end tree opened labelled small atEnd, ← atEnd, same, atEnd, List.drop_length]
      rfl

/-- The round trip succeeds exactly for fewer than 2^32 bytes, none of which is 0. -/
theorem byte_round_trip_iff {v0 v1 w : Vfs} {steps : List (Vfs × Call)} (init : vfsInit empty = .ok v0)
    (run : Run Step v0 steps v) (opened : v.vfsOpen path [119] = .ok (v1, s)) (success : s ≠ 0)
    (stream : v1.streams s = some st) (resolves : v1.vfsGetPath path false = .ok (w, st.node)) (bytes : List UInt8) :
    RoundTrip v1 s path bytes ↔ 0 ∉ bytes ∧ bytes.length < 2 ^ 32 := by
  obtain ⟨_, t, name, _, tree, label, lead, _⟩ := fresh_file init run opened success stream resolves
  constructor
  · rintro ⟨_, results, _, _, _, _, _, _, put, told, _⟩
    refine ⟨fun zero => ?_, putBytes_short tree stream label put⟩
    obtain ⟨_, rfl⟩ := putBytes_iff.mp put
    exact told (charOf 0) (List.mem_map_of_mem zero) rfl
  · rintro ⟨plain, room⟩
    obtain ⟨v2, v3, v4, r, written, closed, reopened, nonnull, tree4, stream4, label4⟩ :=
      tree.chunks_reopened stream label (getPath_short resolves) lead (by rwa [flatten_singletons bytes])
    rw [flatten_singletons] at tree4 label4
    have told : ∀ result ∈ bytes.map charOf, result ≠ EOF := by
      intro result member
      obtain ⟨c, given, rfl⟩ := List.mem_map.mp member
      intro same
      exact plain (charOf_eq_EOF.mp same ▸ given)
    have got := getBytes_rest tree4 stream4 label4 room (Nat.zero_le _) plain (Nat.lt_succ_self _)
    have ended := (tree4.setStream stream4 ⟨st.node, 0, 0, 0, bytes.length⟩).vfsEof (Function.update_self ..) label4
    refine ⟨v2, _, v3, v4, r, bytes.length + 1, _, _, putBytes_iff.mpr ⟨written, rfl⟩, told, closed, reopened, nonnull,
      got, rfl, ?_⟩
    rw [decide_eq_true (Nat.le_refl _)] at ended
    exact ended

theorem byte_round_trip_stdin : ∃ v v1 s, vfsInit empty = .ok v ∧ v.vfsOpen stdinName [119] = .ok (v1, s) ∧
    RoundTrip v1 s stdinName [104, 105, 255] := by
  obtain ⟨v, v1, s, x, w, init, opened, success, stream, resolves, _⟩ := stdin_rewritten
  have trip := (byte_round_trip_iff init (.stop v) opened success stream resolves [104, 105, 255]).mpr (by decide)
  exact ⟨v, v1, s, init, opened, trip⟩

/-- A single byte 0: `fputc` already returns what is `EOF`. -/
theorem zero_byte_lost : ∃ v v1 s x w, vfsInit empty = .ok v ∧ v.vfsOpen stdinName [119] = .ok (v1, s) ∧ s ≠ 0 ∧
    v1.streams s = some ⟨x, 0, 0, 0, 0⟩ ∧ v1.vfsGetPath stdinName false = .ok (w, x) ∧
    ¬ RoundTrip v1 s stdinName [0] := by
  obtain ⟨v, v1, s, x, w, init, opened, success, stream, resolves, _⟩ := stdin_rewritten
  refine ⟨v, v1, s, x, w, init, opened, success, stream, resolves, ?_⟩
  rintro ⟨_, results, _, _, _, _, _, _, put, told, _⟩
  obtain ⟨_, rfl⟩ := putBytes_iff.mp put
  exact told 0 List.mem_cons_self rfl

end UmkaOs.Libc
