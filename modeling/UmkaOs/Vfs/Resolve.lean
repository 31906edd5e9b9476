import UmkaOs.Lib.ForestAppend
import UmkaOs.Vfs.Path

namespace UmkaOs

open Lib

variable {t g : FileTree} {names : List CString} {name : CString} {q x target : Ptr}

theorem resolveFrom_append (front back : List CString) :
    resolveFrom t q (front ++ back) = (resolveFrom t q front).bind (resolveFrom t · back) := by
  induction front generalizing q with
  | nil => rfl
  | cons name front ih => simp only [List.cons_append, resolveFrom, ih, Option.bind_assoc]

theorem stepName_attach (distinct : t.ids.Nodup) (apart : ∀ z ∈ t.ids, z ∉ g.ids) (member : q ∈ t.ids)
    (found : stepName t q name = some target) : stepName (t.attach x g) q name = some target := by
  rw [stepName] at found ⊢
  split at found
  · rename_i up
    rw [if_pos up, Forest.parentOf_attach (apart q member), found]
  · rename_i notUp
    rw [if_neg notUp]
    split at found
    · rename_i stay
      rw [if_pos stay, found]
    · rename_i notStay
      rw [if_neg notStay, Forest.kids_attach distinct apart member]
      split
      · rw [Forest.firstWith_append, found, Option.some_or]
      · rw [Forest.attach, Forest.firstWith_mapKids, found]

/-- Growth behind the children of a node hides nothing. -/
theorem resolveFrom_attach (distinct : t.ids.Nodup) (apart : ∀ z ∈ t.ids, z ∉ g.ids) (member : q ∈ t.ids)
    (found : resolveFrom t q names = some target) : resolveFrom (t.attach x g) q names = some target := by
  induction names generalizing q with
  | nil => exact found
  | cons name names ih =>
    rw [resolveFrom] at found ⊢
    obtain ⟨next, step, further⟩ := Option.bind_eq_some_iff.mp found
    rw [stepName_attach distinct apart member step, Option.bind_some]
    exact ih (Vfs.stepName_mem member step) further

/-- Names stay whatever the files hold. -/
theorem label?_withContent {change : List UInt8 → List UInt8} {y : Ptr} {file : File}
    (labelled : (t.relabel x (File.withContent change)).label? y = some file) :
    ∃ old, t.label? y = some old ∧ old.name = file.name := by
  by_cases here : y = x
  · subst here
    rw [Forest.label?_relabel] at labelled
    obtain ⟨old, label, rfl⟩ := Option.map_eq_some_iff.mp labelled
    exact ⟨old, label, rfl⟩
  · rw [Forest.label?_relabel_of_ne here] at labelled
    exact ⟨file, labelled, rfl⟩

/-- Names are found whatever the files hold. -/
theorem resolveFrom_relabel (change : List UInt8 → List UInt8) :
    resolveFrom (t.relabel x (File.withContent change)) q names = resolveFrom t q names := by
  induction names generalizing q with
  | nil => rfl
  | cons name names ih =>
    have step : stepName (t.relabel x (File.withContent change)) q name = stepName t q name := by
      have blind : ∀ file : File, ((file.withContent change).name == name) = (file.name == name) := fun _ => rfl
      rw [stepName, stepName, Forest.parentOf_relabel, Forest.kids_relabel, Forest.firstWith_relabel blind]
    rw [resolveFrom, resolveFrom, step]
    congr 1
    funext r
    exact ih

end UmkaOs
