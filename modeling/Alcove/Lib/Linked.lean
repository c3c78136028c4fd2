import Mathlib.Data.List.Nodup
import Mathlib.Data.List.Induction

/-!
# Linked cells

Cells at addresses of any type, each with a pointer to another cell or to none. `Seg next p as q` says
that a walk from the pointer `p` along `next` meets the cells `as` and comes to `q`. In a doubly linked
list (`DLinked`) the walk along `next` from its head and the walk along `prev` from its tail meet the
same cells, in mirrored order.

**Main results:** `Seg.advance`, where a number of steps along a segment ends, and `DLinked.push`, a cell
added behind the last one; by `DLinked.symm` it is added before the first one in the same way.
-/

namespace Alcove.Lib

variable {α : Type*}

/-! ## Segments -/

/-- From `p`, the cells `as` and then `q`; `next a` is `none` where there is no cell. -/
def Seg (next : α → Option (Option α)) : Option α → List α → Option α → Prop
  | p, [], q => p = q
  | p, a :: as, q => p = some a ∧ ∃ r, next a = some r ∧ Seg next r as q

/-- So many steps from a pointer; a step from no cell has no result. -/
def advance (next : α → Option (Option α)) : ℕ → Option α → Option (Option α)
  | 0, p => some p
  | n + 1, p => p.bind fun a => (next a).bind (advance next n)

variable {next prev next' prev' : α → Option (Option α)} {p q head tail : Option α} {a n : α}
  {as bs : List α}

theorem seg_append : Seg next p (as ++ bs) q ↔ ∃ r, Seg next p as r ∧ Seg next r bs q := by
  induction as generalizing p with
  | nil => exact ⟨fun h => ⟨p, rfl, h⟩, fun ⟨_, hp, h⟩ => hp ▸ h⟩
  | cons a as ih =>
    constructor
    · rintro ⟨hp, s, hs, h⟩
      obtain ⟨r, h₁, h₂⟩ := ih.1 h
      exact ⟨r, ⟨hp, s, hs, h₁⟩, h₂⟩
    · rintro ⟨r, ⟨hp, s, hs, h₁⟩, h₂⟩
      exact ⟨hp, s, hs, ih.2 ⟨r, h₁, h₂⟩⟩

/-- A segment depends on the pointers of its own cells only. -/
theorem Seg.congr (h : Seg next p as q) (hframe : ∀ a ∈ as, next' a = next a) : Seg next' p as q := by
  induction as generalizing p with
  | nil => exact h
  | cons a as ih =>
    obtain ⟨hp, r, hr, hrest⟩ := h
    refine ⟨hp, r, (hframe a List.mem_cons_self).trans hr, ih hrest fun b hb => ?_⟩
    exact hframe b (List.mem_cons_of_mem _ hb)

theorem Seg.head_eq (h : Seg next p as none) : p = as.head? := by
  cases as with
  | nil => exact h
  | cons a as => exact h.1

/-- **A walk along a segment comes to the rest of it.** -/
theorem Seg.advance (h : Seg next p as q) {n : ℕ} (hn : n ≤ as.length) :
    ∃ r, Lib.advance next n p = some r ∧ Seg next r (as.drop n) q := by
  induction n generalizing p as with
  | zero => exact ⟨p, rfl, h⟩
  | succ n ih =>
    cases as with
    | nil => cases hn
    | cons a as =>
      obtain ⟨rfl, r, hr, hrest⟩ := h
      obtain ⟨r', hr', h'⟩ := ih hrest (Nat.le_of_succ_le_succ hn)
      refine ⟨r', ?_, h'⟩
      rw [Lib.advance, Option.bind_some, hr]
      exact hr'

/-! ## Doubly linked lists -/

/-- The cells of a doubly linked list, from its head to its tail. -/
structure DLinked (next prev : α → Option (Option α)) (head tail : Option α) (as : List α) : Prop where
  forward : Seg next head as none
  backward : Seg prev tail as.reverse none
  nodup : as.Nodup

/-- The list the other way round. -/
theorem DLinked.symm (h : DLinked next prev head tail as) :
    DLinked prev next tail head as.reverse where
  forward := h.backward
  backward := by
    rw [List.reverse_reverse]
    exact h.forward
  nodup := List.nodup_reverse.2 h.nodup

theorem DLinked.nil : DLinked next prev none none [] := ⟨rfl, rfl, List.nodup_nil⟩

/-- **A cell is added behind the last one.** -/
theorem DLinked.push (h : DLinked next prev head tail as) (hn : n ∉ as) (hnext : next' n = some none)
    (hprev : prev' n = some tail) (hlast : ∀ t, tail = some t → next' t = some (some n))
    (hframe : ∀ a ∈ as, tail ≠ some a → next' a = next a) (hframe' : ∀ a ∈ as, prev' a = prev a) :
    DLinked next' prev' (head.or (some n)) (some n) (as ++ [n]) where
  forward := by
    rcases List.eq_nil_or_concat as with rfl | ⟨as, t, rfl⟩
    · obtain rfl : head = none := h.forward
      exact ⟨rfl, none, hnext, rfl⟩
    · rw [List.concat_eq_append] at h hframe ⊢
      have htail : tail = some t := by
        have hback := h.backward.head_eq
        rwa [List.reverse_append] at hback
      obtain ⟨r, hpre, rfl, -⟩ := seg_append.1 h.forward
      have hhead : head.or (some n) = head := by
        rw [h.forward.head_eq]
        cases as <;> rfl
      rw [hhead, List.append_assoc]
      refine seg_append.2 ⟨some t, hpre.congr fun a ha => ?_, rfl, some n, hlast t htail, rfl, none,
        hnext, rfl⟩
      refine hframe a (List.mem_append_left _ ha) fun hta => ?_
      -- the last cell is in no other place
      obtain rfl := Option.some.inj (htail.symm.trans hta)
      exact (List.nodup_append.1 h.nodup).2.2 t ha t (List.mem_singleton_self t) rfl
  backward := by
    rw [List.reverse_append]
    exact ⟨rfl, tail, hprev, h.backward.congr fun a ha => hframe' a (List.mem_reverse.1 ha)⟩
  nodup := by
    rw [List.nodup_append]
    refine ⟨h.nodup, List.nodup_singleton n, fun a ha b hb hab => hn ?_⟩
    rw [← List.mem_singleton.1 hb, ← hab]
    exact ha

end Alcove.Lib
