import Mathlib.Data.List.Basic

/-!
# Neighbours in a list

`Adjacent l a b`: somewhere in `l`, `b` comes right after `a`. In a list without repetitions both
sides determine each other, and the last element has no successor.
-/

namespace Alcove.Lib

variable {α : Type*} {a b c x : α} {l : List α}

/-- `b` comes right after `a` in the list. -/
def Adjacent : List α → α → α → Prop
  | [], _, _ => False
  | x :: l, a, b => x = a ∧ l.head? = some b ∨ Adjacent l a b

namespace Adjacent

theorem mem_left (h : Adjacent l a b) : a ∈ l := by
  induction l with
  | nil => exact h.elim
  | cons x l ih =>
    rcases h with ⟨rfl, -⟩ | h
    · exact List.mem_cons_self
    · exact List.mem_cons_of_mem x (ih h)

theorem mem_tail (h : Adjacent l a b) : b ∈ l.tail := by
  induction l with
  | nil => exact h.elim
  | cons x l ih =>
    rcases h with ⟨-, h⟩ | h
    · exact List.mem_of_head? h
    · exact List.mem_of_mem_tail (ih h)

theorem of_tail (h : Adjacent l.tail a b) : Adjacent l a b := by
  cases l with
  | nil => exact h
  | cons x l => exact .inr h

/-- At the front. -/
theorem head (hhead : l.head? = some a) (hnodup : l.Nodup) (h : Adjacent l a b) :
    l.tail.head? = some b := by
  cases l with
  | nil => cases hhead
  | cons x l =>
    obtain rfl := Option.some.inj hhead
    rcases h with ⟨-, h⟩ | h
    · exact h
    · exact absurd h.mem_left (List.nodup_cons.mp hnodup).1

theorem tail (hhead : l.head? = some c) (hne : a ≠ c) (h : Adjacent l a b) :
    Adjacent l.tail a b := by
  cases l with
  | nil => exact h
  | cons x l =>
    obtain rfl := Option.some.inj hhead
    exact h.resolve_left fun hx => hne hx.1.symm

/-- Nothing comes right before the first element. -/
theorem ne_head (hhead : l.head? = some c) (hnodup : l.Nodup) (h : Adjacent l a b) : b ≠ c := by
  rintro rfl
  cases l with
  | nil => cases hhead
  | cons x l =>
    obtain rfl := Option.some.inj hhead
    exact (List.nodup_cons.mp hnodup).1 h.mem_tail

/-- Nothing comes right after the last element. -/
theorem ne_last (hlast : l.getLast? = some c) (hnodup : l.Nodup) (h : Adjacent l a b) :
    a ≠ c := by
  rintro rfl
  induction l with
  | nil => exact h
  | cons x l ih =>
    obtain ⟨hx, hl⟩ := List.nodup_cons.mp hnodup
    cases l with
    | nil =>
      rcases h with ⟨-, h⟩ | h
      · cases h
      · exact h
    | cons y l =>
      rw [List.getLast?_cons_cons] at hlast
      rcases h with ⟨rfl, -⟩ | h
      · exact hx (List.mem_of_getLast? hlast)
      · exact ih hl h hlast

/-- An element other than the last has a successor. -/
theorem exists_of_ne_last (ha : a ∈ l) (hlast : l.getLast? = some c) (hne : a ≠ c) :
    ∃ b, Adjacent l a b := by
  induction l with
  | nil => cases ha
  | cons x l ih =>
    cases l with
    | nil =>
      obtain rfl := List.mem_singleton.mp ha
      exact absurd (Option.some.inj hlast) hne
    | cons y l =>
      rw [List.getLast?_cons_cons] at hlast
      rcases List.mem_cons.mp ha with rfl | ha
      · exact ⟨y, .inl ⟨rfl, rfl⟩⟩
      · obtain ⟨b, hb⟩ := ih ha hlast
        exact ⟨b, .inr hb⟩

theorem unique_right (hnodup : l.Nodup) (h : Adjacent l a b) (h' : Adjacent l a c) : b = c := by
  induction l with
  | nil => exact h.elim
  | cons x l ih =>
    obtain ⟨hx, hl⟩ := List.nodup_cons.mp hnodup
    rcases h with ⟨rfl, h⟩ | h <;> rcases h' with ⟨heq, h'⟩ | h'
    · exact Option.some.inj (h.symm.trans h')
    · exact absurd h'.mem_left hx
    · exact absurd (heq ▸ h.mem_left) hx
    · exact ih hl h h'

/-- An element put at the end comes right after the last one. -/
theorem append_singleton (hlast : l.getLast? = some c) :
    Adjacent (l ++ [x]) a b ↔ Adjacent l a b ∨ a = c ∧ b = x := by
  induction l with
  | nil => cases hlast
  | cons y l ih =>
    cases l with
    | nil =>
      obtain rfl := Option.some.inj hlast
      simp only [List.cons_append, List.nil_append, Adjacent, List.head?_cons, List.head?_nil,
        Option.some.injEq, or_false, reduceCtorEq, and_false, false_or]
      exact and_congr eq_comm eq_comm
    | cons z l =>
      rw [List.getLast?_cons_cons] at hlast
      have := ih hlast
      simp only [List.cons_append, Adjacent, List.head?_cons] at this ⊢
      rw [this]
      simp only [or_assoc]

end Adjacent

end Alcove.Lib
