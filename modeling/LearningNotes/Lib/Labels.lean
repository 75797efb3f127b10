import Mathlib.Tactic.Ring
import Mathlib.Data.List.Perm.Basic

/-! Collections of keyed values reached behind a label that every key starts with. -/

namespace LearningNotes.Lib

variable {α β : Type}

/-- The entries with a label put in front of every key. -/
def behind (label : List α) (entries : List (List α × β)) : List (List α × β) :=
  entries.map fun entry => (label ++ entry.1, entry.2)

variable (label : List α)

@[simp] theorem behind_cons (entry : List α × β) (entries : List (List α × β)) :
    behind label (entry :: entries) = (label ++ entry.1, entry.2) :: behind label entries := rfl

@[simp] theorem behind_empty : behind label ([] : List (List α × β)) = [] := rfl

@[simp] theorem behind_append (entries others : List (List α × β)) :
    behind label (entries ++ others) = behind label entries ++ behind label others := by
  simp [behind]

@[simp] theorem behind_nil (entries : List (List α × β)) : behind [] entries = entries := by
  simp [behind]

/-- Labels of nested edges are joined. -/
@[simp] theorem behind_behind (outer inner : List α) (entries : List (List α × β)) :
    behind outer (behind inner entries) = behind (outer ++ inner) entries := by
  simp [behind]

theorem behind_perm {entries others : List (List α × β)}
    (reordered : entries.Perm others) : (behind label entries).Perm (behind label others) :=
  reordered.map _

/-- A key behind a label is the label and a key. -/
theorem mem_behind {label : List α} {entries : List (List α × β)} {entry : List α × β} :
    entry ∈ behind label entries ↔ ∃ key, (key, entry.2) ∈ entries ∧ entry.1 = label ++ key := by
  constructor
  · intro inside
    obtain ⟨⟨key, value⟩, listed, same⟩ := List.mem_map.mp inside
    subst same
    exact ⟨key, listed, rfl⟩
  · rintro ⟨key, listed, named⟩
    exact List.mem_map.mpr ⟨(key, entry.2), listed, by rw [← named]⟩

end LearningNotes.Lib
