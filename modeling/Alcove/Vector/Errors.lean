import Alcove.Vector.Simulation

/-!
# Elements that are no numbers

On the numbers of vectors, an element that is none of them raises the flag when it is read, and the flag stays
raised. Every loop reads every element of every operand before anything is written there, or stops because the
flag is up (`TensorCall.catches`).
-/

namespace Alcove.Vector

open Lib

variable {ι D : Type}

namespace View

/-- The flag is up. -/
def Failed (W : View ι D) : Prop := W.err = true

/-- The flag is up, or the element is no number. -/
def Flagged (v : ι) (i : ℕ) (W : View ι D) : Prop := W.err = true ∨ W.num v i = none

/-- The flag stays up. -/
abbrev Stays {α : Type} (q : StateM (View ι D) α) : Prop := Triple Failed q fun _ => Failed

/-- The element does not become a number unnoticed. -/
abbrev Keeps {α : Type} (v : ι) (i : ℕ) (q : StateM (View ι D) α) : Prop :=
  Triple (Flagged v i) q fun _ => Flagged v i

/-- The element raises the flag. -/
abbrev Catches {α : Type} (v : ι) (i : ℕ) (q : StateM (View ι D) α) : Prop :=
  Triple (Flagged v i) q fun _ => Failed

variable {α β : Type} {v w : ι} {i j n : ℕ} {q : StateM (View ι D) α}

theorem stays_pure (a : α) : Stays (pure a : StateM (View ι D) α) := .pure fun _ h => h

theorem keeps_pure (a : α) : Keeps v i (pure a : StateM (View ι D) α) := .pure fun _ h => h

/-- What follows a check of the flag is left out when it is up. -/
theorem stays_unless {q : StateM (View ι D) α} (a : α) : Stays (do if ← failed then pure a else q) := by
  intro W h
  rw [Rel.run_failed h]
  exact h

theorem keeps_unless (a : α) (hq : Keeps v i q) : Keeps v i (do if ← failed then pure a else q) := by
  intro W h
  cases he : W.err with
  | true =>
    rw [Rel.run_failed he]
    exact h
  | false =>
    rw [Rel.run_failed he]
    exact hq W h

theorem catches_unless (a : α) (hq : Catches v i q) : Catches v i (do if ← failed then pure a else q) := by
  intro W h
  cases he : W.err with
  | true =>
    rw [Rel.run_failed he]
    exact he
  | false =>
    rw [Rel.run_failed he]
    exact hq W h

/-! ## Loops -/

variable {body : ℕ → α → StateM (View ι D) α} {a : α}

theorem stays_loop (h : ∀ i < n, ∀ a, Stays (body i a)) : Stays (loop n body a) :=
  Triple.loop (I := fun _ _ => Failed) h a

theorem keeps_loop (h : ∀ j < n, ∀ a, Keeps v i (body j a)) : Keeps v i (loop n body a) :=
  Triple.loop (I := fun _ _ => Flagged v i) h a

/-- Turn `k` raises the flag. -/
theorem catches_loop {k : ℕ} (hk : k < n) (hbefore : ∀ j < k, ∀ a, Keeps v i (body j a))
    (hat : ∀ a, Catches v i (body k a)) (hafter : ∀ j < n, k < j → ∀ a, Stays (body j a)) :
    Catches v i (loop n body a) := by
  refine .mono (.loop (I := fun j _ W => if j ≤ k then Flagged v i W else Failed W) (fun j hj a => ?_) a)
    (fun W h => by simpa using h) fun _ W h => by rwa [if_neg (by omega)] at h
  obtain hlt | rfl | hgt := lt_trichotomy j k
  · exact (hbefore j hlt a).mono (fun W h => by rwa [if_pos hlt.le] at h) fun _ W h => by
      rwa [if_pos (show j + 1 ≤ k from hlt)]
  · exact (hat a).mono (fun W h => by rwa [if_pos le_rfl] at h) fun _ W h => by rwa [if_neg (by omega)]
  · exact (hafter j hj hgt a).mono (fun W h => by rwa [if_neg (by omega)] at h) fun _ W h => by
      rwa [if_neg (by omega)]

theorem stays_loopUnless : Stays (loopUnless failed n body a) := stays_loop fun _ _ a => stays_unless a

theorem keeps_loopUnless (h : ∀ j < n, ∀ a, Keeps v i (body j a)) : Keeps v i (loopUnless failed n body a) :=
  keeps_loop fun j hj a => keeps_unless a (h j hj a)

theorem catches_loopUnless {k : ℕ} (hk : k < n) (hbefore : ∀ j < k, ∀ a, Keeps v i (body j a))
    (hat : ∀ a, Catches v i (body k a)) : Catches v i (loopUnless failed n body a) :=
  catches_loop hk (fun j hj a => keeps_unless a (hbefore j hj a)) (fun a => catches_unless a (hat a))
    fun _ _ _ a => stays_unless a

theorem finish_failed (r : Result ι D) : Triple Failed (finish r) fun o _ => o = .error .nonNumeric := by
  intro W h
  rw [finish, Rel.run_failed h]
  rfl

/-! ## Reading and writing -/

variable [Arith D]

theorem stays_read : Stays (read w j : StateM (View ι D) D) := by
  intro W h
  show (W.err || _) = true
  rw [show W.err = true from h, Bool.true_or]

theorem keeps_read : Keeps v i (read w j : StateM (View ι D) D) := by
  intro W h
  show (W.err || _) = true ∨ W.num v i = none
  obtain h | h := h
  · exact .inl (by rw [h, Bool.true_or])
  · exact .inr h

theorem catches_read : Catches v i (read v i : StateM (View ι D) D) := by
  intro W h
  show (W.err || (W.num v i).isNone) = true
  obtain h | h := h
  · rw [h, Bool.true_or]
  · rw [h, Option.isNone_none, Bool.or_true]

variable [DecidableEq ι]

omit [Arith D] in
theorem stays_write (x : D) : Stays (write w j x) := fun _ h => h

omit [Arith D] in
theorem keeps_write (x : D) (h : w = v → j ≠ i) : Keeps v i (write w j x) := by
  rintro W (he | hn)
  · exact .inl he
  · refine .inr ?_
    show Function.update W.num w _ v i = none
    obtain rfl | hw := eq_or_ne v w
    · rw [Function.update_self, Function.update_of_ne (h rfl).symm, hn]
    · rw [Function.update_of_ne hw, hn]

/-! ## The loops of the builtins -/

omit [DecidableEq ι] in
theorem stays_dotLoop {f g : ℕ → StateM (View ι D) D} {s : D} (hf : ∀ j, Stays (f j)) (hg : ∀ j, Stays (g j)) :
    Stays (dotLoop n f g s) :=
  stays_loop fun j _ _ => (hf j).bind fun _ => (hg j).bind fun _ => stays_pure _

omit [DecidableEq ι] in
theorem keeps_dotLoop {f g : ℕ → StateM (View ι D) D} {s : D} (hf : ∀ j, Keeps v i (f j))
    (hg : ∀ j, Keeps v i (g j)) : Keeps v i (dotLoop n f g s) :=
  keeps_loop fun j _ _ => (hf j).bind fun _ => (hg j).bind fun _ => keeps_pure _

omit [DecidableEq ι] in
/-- A product of elements of two vectors, one of which is the element that is no number. -/
theorem catches_dotLoop {a b : ι} {p q : ℕ → ℕ} {s : D} {k : ℕ} (hk : k < n)
    (h : (v = a ∧ i = p k) ∨ (v = b ∧ i = q k)) :
    Catches v i (dotLoop n (fun j => read a (p j)) (fun j => read b (q j)) s) := by
  refine catches_loop hk (fun j _ _ => keeps_read.bind fun _ => keeps_read.bind fun _ => keeps_pure _) (fun _ => ?_)
    fun j _ _ _ => stays_read.bind fun _ => stays_read.bind fun _ => stays_pure _
  obtain ⟨rfl, rfl⟩ | ⟨rfl, rfl⟩ := h
  · exact catches_read.bind fun _ => stays_read.bind fun _ => stays_pure _
  · exact keeps_read.bind fun _ => catches_read.bind fun _ => stays_pure _

theorem catches_binaryLoop {op : D → D → D} {y x : ι} (hv : v = y ∨ v = x) (hi : i < n) :
    Catches v i (binaryLoop op n y x) := by
  refine catches_loopUnless hi (fun j hj _ => keeps_read.bind fun _ => keeps_read.bind fun _ =>
    keeps_unless _ (keeps_write _ fun _ => by omega)) fun _ => ?_
  obtain rfl | rfl := hv
  · exact catches_read.bind fun _ => stays_read.bind fun _ => stays_unless _
  · exact keeps_read.bind fun _ => catches_read.bind fun _ => stays_unless _

theorem catches_unaryLoop {f : D → D} (hi : i < n) : Catches v i (unaryLoop f n v) :=
  catches_loopUnless hi (fun j hj _ => keeps_read.bind fun _ => keeps_unless _ (keeps_write _ fun _ => by omega))
    fun _ => catches_read.bind fun _ => stays_unless _

omit [DecidableEq ι] in
theorem catches_sumLoop (hi : i < n) : Catches v i (sumLoop n v : StateM (View ι D) D) :=
  catches_loopUnless hi (fun _ _ _ => keeps_read.bind fun _ => keeps_pure _) fun _ =>
    catches_read.bind fun _ => stays_pure _

omit [DecidableEq ι] in
theorem catches_argmaxLoop (hi : i < n) : Catches v i (argmaxLoop n v : StateM (View ι D) (ℤ × D)) :=
  catches_loopUnless hi (fun _ _ _ => keeps_read.bind fun _ => keeps_unless _ (keeps_pure _)) fun _ =>
    catches_read.bind fun _ => stays_unless _

/-- The maximum is taken of all elements before the first is written. -/
theorem catches_softmaxLoops (hi : i < n) : Catches v i (softmaxLoops n v : StateM (View ι D) Unit) := by
  have hrest (m : D) : Stays (do
      let s ← loopUnless failed n (fun i s => do
        let x := Arith.exp ((← read v i) - m)
        write v i x
        return s + x) zero
      let inv := if Arith.lt zero s then one / s else zero
      loopUnless failed n (fun i _ => do write v i ((← read v i) * inv)) () : StateM (View ι D) Unit) :=
    stays_loopUnless.bind fun _ => stays_loopUnless
  obtain rfl | hpos := Nat.eq_zero_or_pos i
  · exact catches_read.bind fun _ => stays_loopUnless.bind fun m => hrest m
  · obtain ⟨k, rfl⟩ : ∃ k, i = k + 1 := ⟨i - 1, by omega⟩
    refine keeps_read.bind fun _ => .bind ?_ fun m => hrest m
    exact catches_loopUnless (show k < n - 1 by omega) (fun _ _ _ => keeps_read.bind fun _ => keeps_pure _) fun _ =>
      catches_read.bind fun _ => stays_pure _

/-! ## Matrices -/

variable {m r c : ℕ} {a b x : ι} {bias : Option ι}

omit [DecidableEq ι] in
theorem catches_matvecLoops (hr : r < m) (hc : c < n) (h : (v = a ∧ i = r * n + c) ∨ (v = x ∧ i = c)) :
    Catches v i (matvecLoops m n a x : StateM (View ι D) (List D)) :=
  catches_loopUnless hr (fun _ _ _ => (keeps_dotLoop (fun _ => keeps_read) fun _ => keeps_read).bind fun _ =>
    keeps_pure _) fun _ => (catches_dotLoop hc h).bind fun _ => stays_pure _

omit [DecidableEq ι] in
theorem stays_readBias : Stays (readBias j bias : StateM (View ι D) D) := by
  cases bias with
  | none => exact stays_pure _
  | some b => exact stays_read

omit [DecidableEq ι] in
theorem keeps_readBias : Keeps v i (readBias j bias : StateM (View ι D) D) := by
  cases bias with
  | none => exact keeps_pure _
  | some b => exact keeps_read

omit [DecidableEq ι] in
theorem catches_readBias (h : bias = some v) : Catches v i (readBias i bias : StateM (View ι D) D) := by
  rw [h]
  exact catches_read

theorem catches_matvecbangLoops {out : ι} (hout : v ≠ out) (hr : r < m) (hc : c < n)
    (h : (v = a ∧ i = r * n + c) ∨ (v = x ∧ i = c) ∨ (bias = some v ∧ i = r)) :
    Catches v i (matvecbangLoops m n out a x bias : StateM (View ι D) Unit) := by
  refine catches_loopUnless hr (fun _ _ _ => keeps_readBias.bind fun _ =>
    (keeps_dotLoop (fun _ => keeps_read) fun _ => keeps_read).bind fun _ =>
      keeps_write _ fun e => absurd e.symm hout) fun _ => ?_
  obtain h | h | ⟨hb, rfl⟩ := h
  · exact keeps_readBias.bind fun _ => (catches_dotLoop hc (.inl h)).bind fun _ => stays_write _
  · exact keeps_readBias.bind fun _ => (catches_dotLoop hc (.inr h)).bind fun _ => stays_write _
  · exact (catches_readBias hb).bind fun _ =>
      (stays_dotLoop (fun _ => stays_read) fun _ => stays_read).bind fun _ => stays_write _

theorem keeps_matvectRow {out u : ι} (hout : v ≠ out) : Keeps v i (matvectRow n r out a u : StateM (View ι D) Unit) :=
  keeps_read.bind fun _ => keeps_loop fun _ _ _ => keeps_read.bind fun _ => keeps_read.bind fun _ =>
    keeps_write _ fun e => absurd e.symm hout

theorem catches_matvectRow {out u : ι} (hout : v ≠ out) (hc : c < n)
    (h : (v = a ∧ i = r * n + c) ∨ (v = u ∧ i = r)) :
    Catches v i (matvectRow n r out a u : StateM (View ι D) Unit) := by
  obtain ⟨rfl, rfl⟩ | ⟨rfl, rfl⟩ := h
  · refine keeps_read.bind fun _ => catches_loop hc (fun _ _ _ => keeps_read.bind fun _ => keeps_read.bind fun _ =>
      keeps_write _ fun e => absurd e.symm hout) (fun _ => ?_) fun _ _ _ _ => ?_
    · exact keeps_read.bind fun _ => catches_read.bind fun _ => stays_write _
    · exact stays_read.bind fun _ => stays_read.bind fun _ => stays_write _
  · exact catches_read.bind fun _ => stays_loop fun _ _ _ => stays_read.bind fun _ => stays_read.bind fun _ =>
      stays_write _

theorem catches_matvectbangLoops {out u : ι} (hout : v ≠ out) (hr : r < m) (hc : c < n)
    (h : (v = a ∧ i = r * n + c) ∨ (v = u ∧ i = r) ∨ (bias = some v ∧ i = c)) :
    Catches v i (matvectbangLoops m n out a u bias : StateM (View ι D) Unit) := by
  have hkeep (j : ℕ) : Keeps v i (do write out j (← readBias j bias) : StateM (View ι D) Unit) :=
    keeps_readBias.bind fun _ => keeps_write _ fun e => absurd e.symm hout
  have hrow (h : (v = a ∧ i = r * n + c) ∨ (v = u ∧ i = r)) :
      Catches v i (matvectbangLoops m n out a u bias : StateM (View ι D) Unit) :=
    (keeps_loop fun j _ _ => hkeep j).bind fun _ =>
      catches_loopUnless hr (fun _ _ _ => keeps_matvectRow hout) fun _ => catches_matvectRow hout hc h
  obtain h | h | ⟨hb, rfl⟩ := h
  · exact hrow (.inl h)
  · exact hrow (.inr h)
  · refine .bind (catches_loop hc (fun j _ _ => hkeep j) (fun _ => ?_) fun _ _ _ _ => ?_) fun _ => stays_loopUnless
    · exact (catches_readBias hb).bind fun _ => stays_write _
    · exact stays_readBias.bind fun _ => stays_write _

/-- The target of `vec-ger!` may be the element's vector: no earlier store is to its index. -/
theorem catches_vecgerLoops {alpha : D} {u w : ι} (hr : r < m) (hc : c < n) (hu : u = a → n = 1)
    (h : (v = a ∧ i = r * n + c) ∨ (v = u ∧ i = r ∧ c = 0) ∨ (v = w ∧ i = c ∧ r = 0)) :
    Catches v i (vecgerLoops alpha m n a u w) := by
  have hlt {p q : ℕ} (hq : q < n) (hlex : p < r ∨ (p = r ∧ q < c)) : p * n + q < r * n + c := by
    obtain hp | ⟨rfl, hq'⟩ := hlex
    · have : p * n + n ≤ r * n := by
        calc p * n + n = (p + 1) * n := by ring
          _ ≤ r * n := Nat.mul_le_mul_right n hp
      omega
    · omega
  have hne {p q : ℕ} (hq : q < n) (hlex : p < r ∨ (p = r ∧ q < c)) (e : a = v) : p * n + q ≠ i := by
    have := hlt hq hlex
    obtain ⟨-, rfl⟩ | ⟨hv, rfl, rfl⟩ | ⟨-, rfl, rfl⟩ := h
    · omega
    · obtain rfl := hu (hv.symm.trans e.symm)
      omega
    · omega
  have hkeep {p q : ℕ} {au : D} (hq : q < n) (hlex : p < r ∨ (p = r ∧ q < c)) : Keeps v i (do
      let x ← read a (p * n + q)
      write a (p * n + q) (x + au * (← read w q)) : StateM (View ι D) Unit) :=
    keeps_read.bind fun _ => keeps_read.bind fun _ => keeps_write _ (hne hq hlex)
  have hstay {p q : ℕ} {au : D} : Stays (do
      let x ← read a (p * n + q)
      write a (p * n + q) (x + au * (← read w q)) : StateM (View ι D) Unit) :=
    stays_read.bind fun _ => stays_read.bind fun _ => stays_write _
  refine catches_loopUnless hr (fun p hp _ => keeps_read.bind fun _ => keeps_loop fun q hq _ => hkeep hq (.inl hp))
    fun _ => ?_
  obtain ⟨rfl, rfl⟩ | ⟨rfl, rfl, rfl⟩ | ⟨rfl, rfl, rfl⟩ := h
  · refine keeps_read.bind fun _ => catches_loop hc (fun q hq _ => hkeep (hq.trans hc) (.inr ⟨rfl, hq⟩)) (fun _ => ?_)
      fun _ _ _ _ => hstay
    exact catches_read.bind fun _ => stays_read.bind fun _ => stays_write _
  · exact catches_read.bind fun _ => stays_loop fun _ _ _ => hstay
  · refine keeps_read.bind fun _ => catches_loop hc (fun q hq _ => hkeep (hq.trans hc) (.inr ⟨rfl, hq⟩)) (fun _ => ?_)
      fun _ _ _ _ => hstay
    exact keeps_read.bind fun _ => catches_read.bind fun _ => stays_write _

omit [DecidableEq ι] in
theorem catches_matmulLoops {k p : ℕ} (hr : r < m) (hp : p < k) (h : (v = a ∧ i = r * k + p) ∨
    (v = b ∧ i = p * n + c ∧ c < n)) : Catches v i (matmulLoops m k n a b : StateM (View ι D) (List D)) := by
  refine catches_loopUnless hr (fun _ _ _ => keeps_loopUnless fun _ _ _ => keeps_read.bind fun _ =>
    keeps_loopUnless fun _ _ _ => keeps_read.bind fun _ => keeps_pure _) fun _ =>
    catches_loopUnless hp (fun _ _ _ => keeps_read.bind fun _ =>
      keeps_loopUnless fun _ _ _ => keeps_read.bind fun _ => keeps_pure _) fun _ => ?_
  obtain ⟨rfl, rfl⟩ | ⟨rfl, rfl, hc⟩ := h
  · exact catches_read.bind fun _ => stays_loopUnless
  · exact keeps_read.bind fun _ => catches_loopUnless hc (fun _ _ _ => keeps_read.bind fun _ => keeps_pure _) fun _ =>
      catches_read.bind fun _ => stays_pure _

end View

end Alcove.Vector
