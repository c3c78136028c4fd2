import Mathlib.Data.List.Nodup
import Mathlib.Logic.Function.Basic
import Alcove.Lib.Adjacent

/-!
# Linked lists with gaps

A singly linked list in a memory of `next` pointers, in which some links are still to be stored:
`pending a b` when the link from `a` to `b` is. Elements are put at the end, with their link still
pending; a pending link is stored; the first element is left behind once its link is there.
-/

namespace Alcove.Lib

variable {α : Type*}

/-- The list `l` leads from `first` to `last`, each element linked to the one after it, or about to
be. -/
structure GappedChain (next : α → Option α) (pending : α → α → Prop) (first last : α)
    (l : List α) : Prop where
  head : l.head? = some first
  getLast : l.getLast? = some last
  nodup : l.Nodup
  nextLast : next last = none
  linked : ∀ a b, Adjacent l a b → next a = some b ∨ pending a b
  gap : ∀ a b, pending a b → Adjacent l a b ∧ next a = none

namespace GappedChain

variable {next : α → Option α} {pending pending' : α → α → Prop} {first last x y : α} {l : List α}

theorem first_mem (h : GappedChain next pending first last l) : first ∈ l :=
  List.mem_of_head? h.head

theorem singleton (hx : next x = none) (hno : ∀ a b, ¬ pending a b) :
    GappedChain next pending x x [x] where
  head := rfl
  getLast := rfl
  nodup := List.nodup_singleton x
  nextLast := hx
  linked := by
    rintro a b (⟨-, h⟩ | h)
    · cases h
    · exact h.elim
  gap a b hp := absurd hp (hno a b)

theorem congr (h : GappedChain next pending first last l)
    (hpending : ∀ a b, pending' a b ↔ pending a b) :
    GappedChain next pending' first last l := by
  have heq : pending' = pending := by
    funext a b
    exact propext (hpending a b)
  exact heq ▸ h

/-- The successor of the first element is where its link points. -/
theorem adjacent_of_next (h : GappedChain next pending first last l)
    (hnext : next first = some x) : Adjacent l first x := by
  have hne : first ≠ last := by
    rintro rfl
    rw [h.nextLast] at hnext
    cases hnext
  obtain ⟨y, hy⟩ := Adjacent.exists_of_ne_last h.first_mem h.getLast hne
  rcases h.linked first y hy with hlink | hp
  · obtain rfl := Option.some.inj (hlink.symm.trans hnext)
    exact hy
  · rw [(h.gap first y hp).2] at hnext
    cases hnext

/-- A first element that is linked to nothing is the last one, or its link is pending. -/
theorem next_none (h : GappedChain next pending first last l) (hnext : next first = none) :
    first = last ∨ ∃ x, pending first x := by
  by_cases hne : first = last
  · exact .inl hne
  · obtain ⟨y, hy⟩ := Adjacent.exists_of_ne_last h.first_mem h.getLast hne
    refine .inr ⟨y, (h.linked first y hy).resolve_left fun hlink => ?_⟩
    rw [hnext] at hlink
    cases hlink

/-- A chain from an element to itself. -/
theorem eq_singleton (h : GappedChain next pending x x l) : l = [x] := by
  have hhead := h.head
  cases l with
  | nil => cases hhead
  | cons y l =>
    obtain rfl := Option.some.inj hhead
    cases l with
    | nil => rfl
    | cons z l =>
      have hadj : Adjacent (y :: z :: l) y z := .inl ⟨rfl, rfl⟩
      exact absurd rfl (hadj.ne_last h.getLast h.nodup)

/-- A link outside the list is cleared. -/
theorem clear [DecidableEq α] (h : GappedChain next pending first last l) (hx : x ∉ l) :
    GappedChain (Function.update next x none) pending first last l := by
  have hkeep : ∀ a ∈ l, Function.update next x none a = next a := by
    intro a ha
    refine Function.update_of_ne ?_ _ _
    rintro rfl
    exact hx ha
  refine ⟨h.head, h.getLast, h.nodup, ?_, fun a b hab => ?_, fun a b hp => ?_⟩
  · rw [hkeep last (List.mem_of_getLast? h.getLast)]
    exact h.nextLast
  · rw [hkeep a hab.mem_left]
    exact h.linked a b hab
  · obtain ⟨hab, hnone⟩ := h.gap a b hp
    rw [hkeep a hab.mem_left]
    exact ⟨hab, hnone⟩

/-- An element is put at the end, its link pending. -/
theorem append (h : GappedChain next pending first last l) (hx : x ∉ l) (hnext : next x = none)
    (hpending : ∀ a b, pending' a b ↔ pending a b ∨ a = last ∧ b = x) :
    GappedChain next pending' first x (l ++ [x]) where
  head := by
    rw [List.head?_append, h.head]
    rfl
  getLast := List.getLast?_concat
  nodup := by
    refine List.Nodup.append h.nodup (List.nodup_singleton x) ?_
    intro y hy hyx
    exact hx (List.mem_singleton.mp hyx ▸ hy)
  nextLast := hnext
  linked a b hab := by
    rw [hpending]
    rcases (Adjacent.append_singleton h.getLast).mp hab with hab | hab
    · exact (h.linked a b hab).imp_right .inl
    · exact .inr (.inr hab)
  gap a b hp := by
    rw [Adjacent.append_singleton h.getLast]
    rcases (hpending a b).mp hp with hp | ⟨rfl, rfl⟩
    · exact ⟨.inl (h.gap a b hp).1, (h.gap a b hp).2⟩
    · exact ⟨.inr ⟨rfl, rfl⟩, h.nextLast⟩

/-- A pending link is stored. -/
theorem store [DecidableEq α] (h : GappedChain next pending first last l) (hxy : pending x y)
    (hpending : ∀ a b, pending' a b ↔ pending a b ∧ a ≠ x) :
    GappedChain (Function.update next x (some y)) pending' first last l := by
  obtain ⟨hadj, -⟩ := h.gap x y hxy
  refine ⟨h.head, h.getLast, h.nodup, ?_, fun a b hab => ?_, fun a b hp => ?_⟩
  · rw [Function.update_of_ne (Adjacent.ne_last h.getLast h.nodup hadj).symm]
    exact h.nextLast
  · by_cases ha : a = x
    · subst ha
      rw [Adjacent.unique_right h.nodup hab hadj, Function.update_self]
      exact .inl rfl
    · rw [Function.update_of_ne ha, hpending]
      exact (h.linked a b hab).imp_right fun hp => ⟨hp, ha⟩
  · obtain ⟨hp, ha⟩ := (hpending a b).mp hp
    rw [Function.update_of_ne ha]
    exact h.gap a b hp

/-- The first element is left behind. -/
theorem advance (h : GappedChain next pending first last l) (hnext : next first = some x) :
    GappedChain next pending x last l.tail := by
  have hadj := h.adjacent_of_next hnext
  refine ⟨Adjacent.head h.head h.nodup hadj, ?_, h.nodup.sublist (List.tail_sublist l),
    h.nextLast, fun a b hab => h.linked a b hab.of_tail, fun a b hp => ?_⟩
  · have hlast := h.getLast
    have hhead := Adjacent.head h.head h.nodup hadj
    cases l with
    | nil => cases hlast
    | cons y l =>
      cases l with
      | nil => cases hhead
      | cons z l => exact hlast
  · obtain ⟨hab, hnone⟩ := h.gap a b hp
    refine ⟨hab.tail h.head ?_, hnone⟩
    rintro rfl
    rw [hnext] at hnone
    cases hnone

end GappedChain

end Alcove.Lib
