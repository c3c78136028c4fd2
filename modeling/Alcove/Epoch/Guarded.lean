import Alcove.Epoch.Placed

/-!
# Held pointers are guarded

The argument of `epoch.h` (`Guarded`): a pointer that a thread holds was retired at an epoch not
before the one the thread advertises, and a collection in progress has either seen that epoch or
has it still ahead.
-/

namespace Alcove.Epoch

open Lib

variable {s s' : State}

/-- The collection at this point spares the pointers retired at the epoch `x` that the thread of
index `i` holds: it has seen an epoch up to `x`, or the index is still ahead. -/
def Pc.Spares (i x : ℕ) : Pc → Prop
  | .gcScan n k mn => mn ≤ x ∨ k ≤ i ∧ i < n
  | .gcWalk safe _ => safe ≤ x
  | _ => True

/-- The node is for a pointer that the thread `t`, registered with the index `i`, holds. -/
structure Guards (s : State) (t i : ℕ) (node : RetireNode) : Prop where
  idx : (s.reactors t).myIdx = some i
  held : node.ptr ∈ (s.reactors t).held

/-- The pointers that threads hold are guarded against the collections. -/
structure Guarded (s : State) : Prop where
  epoch : ∀ t i j, ∀ node ∈ (s.epochThreads j).retireHead, Guards s t i node →
    s.quiescent i ≤ node.retireEpoch
  spares : ∀ t i w j, ∀ node ∈ (s.epochThreads j).retireHead, Guards s t i node →
    (s.reactors w).myIdx = some j → (s.reactors w).pc.Spares i node.retireEpoch

theorem guarded_init : Guarded State.init where
  epoch := by
    intro t i j node hn
    cases hn
  spares := by
    intro t i w j node hn
    cases hn

namespace Guarded

variable {t : ℕ} {r : Reactor}

/-- The thread `t` becomes `r`. What it holds anew is in no list, and its collection goes on to
spare what the threads hold. -/
theorem move (h : Guarded s) (hthreads : s'.epochThreads = s.epochThreads)
    (hr : s'.reactors = (s.setReactor t r).reactors)
    (hheld : ∀ p ∈ r.held, r.myIdx = (s.reactors t).myIdx ∧
      (p ∈ (s.reactors t).held ∨ ∀ j, ∀ node ∈ (s.epochThreads j).retireHead, node.ptr ≠ p))
    (hpc : (∀ i x, r.pc.Spares i x) ∨ r.myIdx = (s.reactors t).myIdx ∧
      ∀ u i x, (s.reactors u).myIdx = some i → (s.reactors u).held ≠ [] → s.quiescent i ≤ x →
        (s.reactors t).pc.Spares i x → r.pc.Spares i x) : Guarded s' := by
  have hq : s'.quiescent = s.quiescent := by
    funext i
    show (s'.epochThreads i).quiescent = _
    rw [hthreads]
    rfl
  have hback : ∀ u i j, ∀ node ∈ (s.epochThreads j).retireHead, Guards s' u i node →
      Guards s u i node := by
    intro u i j node hn hg
    obtain ⟨hidx, hmem⟩ := hg
    rw [hr, reactors_setReactor] at hidx hmem
    split at hmem
    · rename_i hut
      rw [if_pos hut] at hidx
      obtain ⟨hsame, hp⟩ := hheld _ hmem
      subst hut
      exact ⟨hsame ▸ hidx, hp.resolve_right fun hno => hno j node hn rfl⟩
    · rename_i hut
      rw [if_neg hut] at hidx
      exact ⟨hidx, hmem⟩
  constructor
  · intro u i j node hn hg
    rw [hthreads] at hn
    rw [hq]
    exact h.epoch u i j node hn (hback u i j node hn hg)
  · intro u i w j node hn hg hw
    rw [hthreads] at hn
    have hold := hback u i j node hn hg
    rw [hr, reactors_setReactor] at hw ⊢
    split at hw
    · rename_i hwt
      rw [if_pos hwt]
      rcases hpc with hpc | ⟨hsame, hpc⟩
      · exact hpc i _
      · refine hpc u i _ hold.idx (List.ne_nil_of_mem hold.held) (h.epoch u i j node hn hold) ?_
        exact h.spares u i t j node hn hold (hsame ▸ hw)
    · rename_i hwt
      rw [if_neg hwt]
      exact h.spares u i w j node hn hold hw

/-- The lists only lose nodes. -/
theorem congr (h : Guarded s) (hr : s'.reactors = s.reactors)
    (hq : ∀ i, s'.quiescent i = s.quiescent i)
    (hlist : ∀ i, (s'.epochThreads i).retireHead.Sublist (s.epochThreads i).retireHead) :
    Guarded s' where
  epoch := by
    intro t i j node hn hg
    rw [hq]
    exact h.epoch t i j node ((hlist j).subset hn) ⟨hr ▸ hg.idx, hr ▸ hg.held⟩
  spares := by
    intro t i w j node hn hg hw
    rw [hr] at hw ⊢
    exact h.spares t i w j node ((hlist j).subset hn) ⟨hr ▸ hg.idx, hr ▸ hg.held⟩ hw

/-- A thread that holds nothing advertises a new epoch. -/
theorem announce (h : Guarded s) (hreg : Reg s) {i : ℕ} {e : EpochThread}
    (hi : (s.reactors t).myIdx = some i) (hidx : r.myIdx = (s.reactors t).myIdx)
    (hheld : r.held = []) (hpc : ∀ i x, r.pc.Spares i x)
    (he : e.retireHead.Sublist (s.epochThreads i).retireHead) :
    Guarded ((s.setThread i e).setReactor t r) := by
  have hmove : Guarded (s.setReactor t r) := by
    refine h.move rfl rfl (fun p hp => ?_) (.inl hpc)
    rw [hheld] at hp
    cases hp
  have hsub : ∀ j, ((s.setThread i e).epochThreads j).retireHead.Sublist
      (s.epochThreads j).retireHead := by
    intro j
    show (Function.update s.epochThreads i e j).retireHead.Sublist _
    by_cases hj : j = i
    · rw [hj, Function.update_self]
      exact he
    · rw [Function.update_of_ne hj]
  constructor
  · intro u k j node hn hg
    -- the thread that announces holds nothing, and no other thread has its index
    have hki : k ≠ i := by
      rintro rfl
      have hut : u ≠ t := by
        rintro rfl
        have hmem := hg.held
        rw [show ((s.setThread k e).setReactor u r).reactors u = r from
          Function.update_self _ _ _, hheld] at hmem
        cases hmem
      have hu := hg.idx
      rw [show ((s.setThread k e).setReactor t r).reactors u = s.reactors u from
        Function.update_of_ne hut _ _] at hu
      exact hut (hreg.inj u t k hu hi)
    have hle := hmove.epoch u k j node ((hsub j).subset hn) ⟨hg.idx, hg.held⟩
    show (Function.update s.epochThreads i e k).quiescent ≤ _
    rw [Function.update_of_ne hki]
    exact hle
  · intro u k w j node hn hg hw
    exact hmove.spares u k w j node ((hsub j).subset hn) ⟨hg.idx, hg.held⟩ hw

/-- A node enters the list of a thread that does not collect; its epoch is the global one. -/
theorem retire (h : Guarded s) (hreg : Reg s) {i g : ℕ} {node : RetireNode} {e : EpochThread}
    (hi : (s.reactors t).myIdx = some i) (hidx : r.myIdx = (s.reactors t).myIdx)
    (hheld : r.held = (s.reactors t).held) (hpc : ∀ i x, r.pc.Spares i x)
    (he : e.retireHead = node :: (s.epochThreads i).retireHead)
    (hq : e.quiescent = s.quiescent i) (hepoch : node.retireEpoch = s.epochGlobal) :
    Guarded ({ s with epochGlobal := g }.setReactor t r |>.setThread i e) := by
  have hmove : Guarded ({ s with epochGlobal := g }.setReactor t r) :=
    h.move rfl rfl (fun p hp => ⟨hidx, .inl (hheld ▸ hp)⟩) (.inl hpc)
  have hlist : ∀ j, ∀ n ∈ (Function.update s.epochThreads i e j).retireHead,
      n ∈ (s.epochThreads j).retireHead ∨ j = i ∧ n = node := by
    intro j n hn
    by_cases hj : j = i
    · rw [hj, Function.update_self, he] at hn
      rcases List.mem_cons.mp hn with rfl | hn
      · exact .inr ⟨hj, rfl⟩
      · exact .inl (hj ▸ hn)
    · rw [Function.update_of_ne hj] at hn
      exact .inl hn
  have hquiescent : ∀ k, (Function.update s.epochThreads i e k).quiescent = s.quiescent k := by
    intro k
    by_cases hk : k = i
    · rw [hk, Function.update_self, hq]
    · rw [Function.update_of_ne hk]
      rfl
  constructor
  · intro u k j n hn hg
    show (Function.update s.epochThreads i e k).quiescent ≤ _
    rw [hquiescent]
    rcases hlist j n hn with hn | ⟨-, rfl⟩
    · exact hmove.epoch u k j n hn ⟨hg.idx, hg.held⟩
    · rw [hepoch]
      exact hreg.quiescent_le k
  · intro u k w j n hn hg hw
    rcases hlist j n hn with hn | ⟨hj, -⟩
    · exact hmove.spares u k w j n hn ⟨hg.idx, hg.held⟩ hw
    · -- the owner of the list is the thread itself, which has left the call
      have hwt : w = t := by
        refine hreg.inj_setReactor (t := t) (r := r) hidx w t i (hj ▸ hw) ?_
        rw [reactors_setReactor, if_pos rfl, hidx]
        exact hi
      show Pc.Spares k n.retireEpoch (Function.update s.reactors t r w).pc
      rw [hwt, Function.update_self]
      exact hpc k _

end Guarded

end Alcove.Epoch
