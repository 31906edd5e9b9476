import UmkaOs.Vfs.Model

namespace UmkaOs.Vfs

variable {v v' w : Vfs} {p : Ptr} {n : Node}

/-- Sizes fit into a `size_t`. -/
def Sized (v : Vfs) : Prop := ∀ p n, v.nodes p = some n → n.datasize < 2 ^ 32

structure Quiet (v v' : Vfs) : Prop where
  streams : v'.streams = v.streams
  flushed : v'.flushed = v.flushed
  sized : Sized v → Sized v'

theorem Quiet.refl (v : Vfs) : Quiet v v := ⟨rfl, rfl, id⟩

theorem Quiet.trans (first : Quiet v v') (second : Quiet v' w) : Quiet v w :=
  ⟨second.streams.trans first.streams, second.flushed.trans first.flushed, second.sized ∘ first.sized⟩

theorem quiet_of_nodes (nodes : v'.nodes = v.nodes) (streams : v'.streams = v.streams)
    (flushed : v'.flushed = v.flushed) : Quiet v v' :=
  ⟨streams, flushed, fun sized p n found => sized p n (by rw [← nodes]; exact found)⟩

theorem quiet_update (nodes : v'.nodes = Function.update v.nodes p (some n)) (streams : v'.streams = v.streams)
    (flushed : v'.flushed = v.flushed) (fits : Sized v → n.datasize < 2 ^ 32) : Quiet v v' := by
  refine ⟨streams, flushed, fun sized q m found => ?_⟩
  rw [nodes] at found
  by_cases here : q = p
  · subst here
    rw [Function.update_self] at found
    cases found
    exact fits sized
  · rw [Function.update_of_ne here] at found
    exact sized q m found

theorem node_ok (run : v.node p = .ok n) : v.nodes p = some n := by
  rw [node] at run
  split at run
  · rename_i m found
    cases run
    exact found
  · cases run

theorem quiet_setNode {m : Node} (run : v.node p = .ok n) (same : m.datasize = n.datasize) :
    Quiet v (v.setNode p m) :=
  quiet_update rfl rfl rfl (fun sized => by rw [same]; exact sized p n (node_ok run))

/-- Only blocks and used-up names differ. -/
structure Still (v v' : Vfs) : Prop where
  root : v'.root = v.root
  nodes : v'.nodes = v.nodes
  streams : v'.streams = v.streams
  flushed : v'.flushed = v.flushed

theorem Still.refl (v : Vfs) : Still v v := ⟨rfl, rfl, rfl, rfl⟩

theorem Still.trans (first : Still v v') (second : Still v' w) : Still v w :=
  ⟨second.root.trans first.root, second.nodes.trans first.nodes, second.streams.trans first.streams,
    second.flushed.trans first.flushed⟩

theorem Still.quiet (still : Still v v') : Quiet v v' := quiet_of_nodes still.nodes still.streams still.flushed

theorem still_malloc {content : List UInt8} : Still v (v.malloc content).1 := ⟨rfl, rfl, rfl, rfl⟩

theorem still_free (run : v.free p = .ok v') : Still v v' := by
  obtain ⟨_, _, done⟩ := bind_ok run
  cases done
  exact ⟨rfl, rfl, rfl, rfl⟩

theorem quiet_freeNode (run : v.freeNode p = .ok v') : Quiet v v' := by
  obtain ⟨_, _, done⟩ := bind_ok run
  cases done
  refine ⟨rfl, rfl, fun sized q m found => ?_⟩
  by_cases here : q = p
  · subst here
    simp at found
  · exact sized q m ((Function.update_of_ne here _ _).symm.trans found)

theorem still_pushSub {sub sub' : List Ptr} {name : CString} (run : v.pushSub sub name = .ok (v', sub')) :
    Still v v' := by
  rw [pushSub] at run
  split at run
  · cases run
    exact still_malloc
  · cases run

theorem still_splitPath {sub sub' : List Ptr} {current path : CString}
    (run : v.splitPath sub current path = .ok (v', sub')) : Still v v' := by
  induction path generalizing v sub current with
  | nil =>
    rw [splitPath] at run
    split at run
    · cases run
      exact .refl _
    · exact still_pushSub run
  | cons c rest ih =>
    rw [splitPath] at run
    split at run
    · split at run
      · exact ih run
      · obtain ⟨⟨w, sub1⟩, pushed, further⟩ := bind_ok run
        exact (still_pushSub pushed).trans (ih further)
    · exact ih run

theorem still_freeAll {sub : List Ptr} (run : v.freeAll sub = .ok v') : Still v v' := by
  induction sub generalizing v with
  | nil =>
    cases run
    exact .refl _
  | cons p rest ih =>
    obtain ⟨w, freed, further⟩ := bind_ok run
    exact (still_free freed).trans (ih further)

theorem still_dropLast {sub sub' : List Ptr} {base : Bool} (run : v.dropLast sub base = .ok (v', sub')) :
    Still v v' := by
  rw [dropLast.eq_def] at run
  split at run
  · obtain ⟨w, freed, done⟩ := bind_ok run
    cases done
    exact still_free freed
  · cases run
    exact .refl _

theorem still_vfsGetPath {path : CString} {base : Bool} (run : v.vfsGetPath path base = .ok (v', p)) :
    Still v v' := by
  obtain ⟨⟨v1, sub⟩, split, run⟩ := bind_ok run
  obtain ⟨⟨v2, sub'⟩, dropped, run⟩ := bind_ok run
  obtain ⟨q, _, run⟩ := bind_ok run
  obtain ⟨v3, freed, done⟩ := bind_ok run
  cases done
  exact (still_splitPath split).trans ((still_dropLast dropped).trans (still_freeAll freed))

theorem quiet_vfsGetPath {path : CString} {base : Bool} (run : v.vfsGetPath path base = .ok (v', p)) :
    Quiet v v' := (still_vfsGetPath run).quiet

theorem quiet_vfsAlloc {q : Ptr} {file : CString} (run : v.vfsAlloc p file = .ok (v', q)) : Quiet v v' := by
  have new : Quiet v (v.newNode ⟨0, 0, [], 0, 0, 0⟩).1 := quiet_update rfl rfl rfl (fun _ => by decide)
  have made : Quiet v ((v.newNode ⟨0, 0, [], 0, 0, 0⟩).1.malloc [0]).1 :=
    new.trans ((@still_malloc (v.newNode ⟨0, 0, [], 0, 0, 0⟩).1 [0]).quiet)
  have filled : Quiet v (((v.newNode ⟨0, 0, [], 0, 0, 0⟩).1.malloc [0]).1.setNode v.next
      ⟨0, v.next + 1, file, p, 0, 0⟩) :=
    made.trans (quiet_update rfl rfl rfl (fun _ => Nat.two_pow_pos 32))
  rw [vfsAlloc] at run
  by_cases long : filenameSize ≤ file.length
  · simp only [long, if_true] at run
    cases run
  · simp only [long, if_false] at run
    obtain ⟨n, found, run⟩ := bind_ok run
    split at run
    · cases run
      exact filled.trans (quiet_setNode found rfl)
    · obtain ⟨last, _, run⟩ := bind_ok run
      obtain ⟨l, foundL, run⟩ := bind_ok run
      cases run
      exact filled.trans (quiet_setNode foundL rfl)

theorem quiet_vfsCreate_ {path : CString} (run : v.vfsCreate_ path = .ok (v', p)) : Quiet v v' := by
  obtain ⟨⟨v1, q⟩, first, run⟩ := bind_ok run
  have quiet := quiet_vfsGetPath first
  dsimp only at run
  split at run
  · cases run
    exact quiet
  · obtain ⟨⟨v2, q'⟩, second, run⟩ := bind_ok run
    have quiet := quiet.trans (quiet_vfsGetPath second)
    dsimp only at run
    split at run
    · cases run
      exact quiet
    · exact quiet.trans (quiet_vfsAlloc run)

theorem quiet_unlinkFrom {fuel : Nat} {prev child : Ptr} (run : v.unlinkFrom p n fuel prev child = .ok v') :
    Quiet v v' := by
  induction fuel generalizing prev child with
  | zero => cases run
  | succ fuel ih =>
    rw [unlinkFrom] at run
    split at run
    · cases run
      exact .refl _
    · split at run
      · split at run <;>
        · obtain ⟨m, found, run⟩ := bind_ok run
          cases run
          exact quiet_setNode found rfl
      · obtain ⟨_, _, run⟩ := bind_ok run
        exact ih run

theorem quiet_unlink (run : v.unlink p = .ok v') : Quiet v v' := by
  obtain ⟨n, _, run⟩ := bind_ok run
  split at run
  · cases run
    exact .refl _
  · obtain ⟨_, _, run⟩ := bind_ok run
    exact quiet_unlinkFrom run

theorem quiet_freeTree (fuel : Nat) : (∀ v v' p, freeTree fuel v p = .ok v' → Quiet v v') ∧
    ∀ v v' p, freeChildren fuel v p = .ok v' → Quiet v v' := by
  induction fuel with
  | zero =>
    constructor <;>
    · intro v v' p run
      cases run
  | succ fuel ih =>
    constructor
    · intro v v' p run
      rw [freeTree] at run
      obtain ⟨v1, unlinked, run⟩ := bind_ok run
      obtain ⟨n, _, run⟩ := bind_ok run
      obtain ⟨v2, below, run⟩ := bind_ok run
      exact (quiet_unlink unlinked).trans ((ih.2 _ _ _ below).trans (quiet_freeNode run))
    · intro v v' p run
      rw [freeChildren] at run
      split at run
      · cases run
        exact .refl _
      · obtain ⟨n, _, run⟩ := bind_ok run
        obtain ⟨v1, freed, run⟩ := bind_ok run
        exact (ih.1 _ _ _ freed).trans (ih.2 _ _ _ run)

theorem quiet_vfsRemove {path : CString} {c : Int} (run : v.vfsRemove path = .ok (v', c)) : Quiet v v' := by
  obtain ⟨⟨v1, q⟩, found, run⟩ := bind_ok run
  have quiet := quiet_vfsGetPath found
  dsimp only at run
  split at run
  · cases run
    exact quiet
  · obtain ⟨v2, freed, run⟩ := bind_ok run
    cases run
    exact quiet.trans ((quiet_freeTree _).1 _ _ _ freed)

theorem quiet_vfsCreate {path : CString} {c : Int} (run : v.vfsCreate path = .ok (v', c)) : Quiet v v' := by
  obtain ⟨⟨v1, q⟩, created, run⟩ := bind_ok run
  cases run
  exact quiet_vfsCreate_ created

theorem quiet_vfsInit (run : vfsInit v = .ok v') : Quiet v v' := by
  rw [vfsInit] at run
  obtain ⟨⟨v1, _⟩, first, run⟩ := bind_ok run
  obtain ⟨⟨v2, _⟩, second, run⟩ := bind_ok run
  obtain ⟨⟨v3, _⟩, third, run⟩ := bind_ok run
  cases run
  have made : Quiet v { (v.newNode ⟨0, 0, [], 0, 0, 0⟩).1 with root := v.next } :=
    quiet_update (p := v.next) (n := ⟨0, 0, [], 0, 0, 0⟩) rfl rfl rfl (fun _ => by decide)
  exact made.trans ((quiet_vfsCreate first).trans ((quiet_vfsCreate second).trans (quiet_vfsCreate third)))

theorem quiet_vfsClearData (run : v.vfsClearData p = .ok v') : Quiet v v' := by
  obtain ⟨n, _, run⟩ := bind_ok run
  cases run
  exact quiet_update rfl rfl rfl (fun _ => Nat.two_pow_pos 32)

theorem quiet_realloc {size : Nat} {q : Ptr} (run : v.realloc p size = .ok (v', q)) :
    Quiet v v' ∧ v'.nodes = v.nodes := by
  rw [realloc] at run
  split at run
  · cases run
    exact ⟨still_malloc.quiet, rfl⟩
  · obtain ⟨_, _, run⟩ := bind_ok run
    obtain ⟨w, freed, run⟩ := bind_ok run
    cases run
    obtain ⟨_, _, done⟩ := bind_ok freed
    cases done
    exact ⟨((still_free freed).trans still_malloc).quiet, rfl⟩

/-- An append that returns got a block and set the node to it. -/
theorem vfsAppendData_run {bytes : List UInt8} (run : v.vfsAppendData p bytes = .ok v') :
    ∃ n w data b, v.nodes p = some n ∧ n.datasize + bytes.length < 2 ^ 32 ∧
      v.realloc n.data (n.datasize + bytes.length) = .ok (w, data) ∧
      v' = { w with blocks := Function.update w.blocks data (some b) }.setNode p
        { n with data := data, datasize := n.datasize + bytes.length } := by
  obtain ⟨n, found, run⟩ := bind_ok run
  by_cases long : 2 ^ 32 ≤ n.datasize + bytes.length
  · simp only [long, if_true] at run
    cases run
  · simp only [long, if_false] at run
    obtain ⟨⟨w, data⟩, grown, run⟩ := bind_ok run
    obtain ⟨b, _, run⟩ := bind_ok run
    cases run
    exact ⟨n, w, data, _, node_ok found, Nat.lt_of_not_le long, grown, rfl⟩

theorem vfsAppendData_ok {bytes : List UInt8} (run : v.vfsAppendData p bytes = .ok v') :
    Quiet v v' ∧ ∃ n data, v.nodes p = some n ∧ n.datasize + bytes.length < 2 ^ 32 ∧
      v'.nodes = Function.update v.nodes p (some { n with data := data, datasize := n.datasize + bytes.length }) := by
  obtain ⟨n, w, data, b, found, fits, grown, rfl⟩ := vfsAppendData_run run
  obtain ⟨quiet, nodes⟩ := quiet_realloc grown
  refine ⟨quiet.trans (quiet_update rfl rfl rfl (fun _ => fits)), n, data, found, fits, ?_⟩
  simp only [setNode, nodes]

end UmkaOs.Vfs
