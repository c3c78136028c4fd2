import Mathlib.Data.List.Basic
import Mathlib.Data.Nat.Notation

/-!
# Lines of ancestors

Every element has at most one parent. `Lineage parent a l` says that the line of `a`, from `a` up to an
element without a parent, is `l`. A walk that looks at `n` elements of the line (`climb`) finds the first
one that has what it looks for, when the line is no longer than that.

**Main results:** `climb_eq` and `Lineage.nodup`.
-/

namespace Alcove.Lib

variable {α β : Type*} {parent parent' : α → Option α} {a b p : α} {l l' : List α}

/-- The line of ancestors of an element, the element first. -/
inductive Lineage (parent : α → Option α) : α → List α → Prop
  | root {a : α} (h : parent a = none) : Lineage parent a [a]
  | child {a p : α} {l : List α} (h : parent a = some p) (hl : Lineage parent p l) :
      Lineage parent a (a :: l)

namespace Lineage

theorem self_mem (h : Lineage parent a l) : a ∈ l := by
  cases h with
  | root _ => exact List.mem_singleton.mpr rfl
  | child _ _ => exact List.mem_cons_self

theorem unique (h : Lineage parent a l) (h' : Lineage parent a l') : l = l' := by
  induction h generalizing l' with
  | root h =>
    cases h' with
    | root _ => rfl
    | child hp _ => rw [h] at hp; cases hp
  | child h _ ih =>
    cases h' with
    | root hp => rw [h] at hp; cases hp
    | child hp hl =>
      rw [h] at hp
      cases hp
      rw [ih hl]

theorem of_parent (h : Lineage parent a l) (hp : parent a = some p) :
    ∃ l', Lineage parent p l' ∧ l = a :: l' := by
  cases h with
  | root h => rw [h] at hp; cases hp
  | child h hl =>
    rw [h] at hp
    cases hp
    exact ⟨_, hl, rfl⟩

/-- The line of an ancestor is the rest of the line. -/
theorem of_mem (h : Lineage parent a l) (hb : b ∈ l) : ∃ l', Lineage parent b l' ∧ l' <:+ l := by
  induction h with
  | root h =>
    rw [List.mem_singleton] at hb
    subst hb
    exact ⟨_, .root h, List.suffix_refl _⟩
  | @child a p l h hl ih =>
    rcases List.mem_cons.mp hb with rfl | hb
    · exact ⟨_, .child h hl, List.suffix_refl _⟩
    · obtain ⟨l', hl', hsuffix⟩ := ih hb
      exact ⟨l', hl', hsuffix.trans (List.suffix_cons a l)⟩

/-- No element is above itself. -/
theorem not_mem_tail (h : Lineage parent a (a :: l)) : a ∉ l := by
  intro ha
  cases h with
  | root _ => cases ha
  | child hp hl =>
    obtain ⟨l', hl', hsuffix⟩ := hl.of_mem ha
    have heq := hl'.unique (.child hp hl)
    have hlen := hsuffix.length_le
    rw [heq, List.length_cons] at hlen
    omega

theorem nodup (h : Lineage parent a l) : l.Nodup := by
  induction h with
  | root _ => exact List.nodup_cons.mpr ⟨List.not_mem_nil, List.nodup_nil⟩
  | child h hl ih => exact List.nodup_cons.mpr ⟨(Lineage.child h hl).not_mem_tail, ih⟩

/-- The line depends on the parents of its elements only. -/
theorem congr (h : Lineage parent a l) (hp : ∀ b ∈ l, parent' b = parent b) :
    Lineage parent' a l := by
  induction h with
  | root h => exact .root ((hp _ (List.mem_singleton.mpr rfl)).trans h)
  | child h _ ih =>
    exact .child ((hp _ List.mem_cons_self).trans h) (ih fun b hb => hp b (List.mem_cons_of_mem _ hb))

/-- The ancestors above an element have shorter lines. -/
theorem length_lt (h : Lineage parent a (a :: l)) (hb : b ∈ l) (h' : Lineage parent b l') :
    l'.length < (a :: l).length := by
  cases h with
  | root _ => cases hb
  | child _ hl =>
    obtain ⟨l₂, hl₂, hsuffix⟩ := hl.of_mem hb
    rw [h'.unique hl₂]
    exact Nat.lt_succ_of_le hsuffix.length_le

end Lineage

/-- What `f` finds at the first `n` elements of the line. -/
def climb (parent : α → Option α) (f : α → Option β) : ℕ → α → Option β
  | 0, _ => none
  | n + 1, a => (f a).or ((parent a).bind (climb parent f n))

/-- **A walk that is long enough sees the whole line.** -/
theorem climb_eq {f : α → Option β} (h : Lineage parent a l) {n : ℕ} (hn : l.length ≤ n) :
    climb parent f n a = l.findSome? f := by
  induction h generalizing n with
  | root h =>
    obtain ⟨n, rfl⟩ := Nat.exists_eq_add_of_le' hn
    rw [List.length_singleton, climb, h, List.findSome?_singleton]
    cases f _ <;> rfl
  | child h _ ih =>
    rw [List.length_cons] at hn
    obtain ⟨n, rfl⟩ := Nat.exists_eq_add_of_le' (Nat.le_of_add_left_le hn)
    rw [climb, h, Option.bind_some, ih (by omega), List.findSome?_cons]
    cases f _ <;> rfl

end Alcove.Lib
