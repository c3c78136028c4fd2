import Alcove.Vector.Views
import Mathlib.Tactic.Ring

/-!
# The loops of the source and those on numbers

For every combination of kinds the loops that run refine the one loop on numbers. Raw doubles are stored only
into vectors of doubles, unless the target of `mat-vec!` or `mat-vec-t!` is boxed (`TensorCall.rawTarget`).

**Main result:** `TensorCall.refines`.
-/

namespace Alcove.Vector

open Lib

variable {ι D : Type} [Arith D] {L : ι → ℕ} {κ : ι → Kind} {clean : Prop} {n i : ℕ}

/-- Vectors of some kinds and of the lengths `L` that hold these numbers. -/
def Done (L : ι → ℕ) (σ : Mem ι D) (W : View ι D) : Prop := ∃ κ, Rel L κ False σ W

theorem Rel.done {σ : Mem ι D} {W : View ι D} (h : Rel L κ clean σ W) : Done L σ W :=
  ⟨κ, { h with clean := False.elim }⟩

namespace TensorCall

variable [DecidableEq ι] {c : TensorCall ι (Boxed D)}

theorem eval_error (e : TensorError) (h : c.check L = some e) : c.eval L = pure (.error e) := by
  rw [eval, h]

theorem eval_ok (h : c.check L = none) : c.eval L = c.loops L >>= View.finish := by
  rw [eval, h]

/-- On vectors of the kinds `κ` and the lengths `L`, a call does what it does on their numbers. -/
def Simulates (L : ι → ℕ) (κ : ι → Kind) (c : TensorCall ι (Boxed D)) : Prop :=
  Refines (Rel L κ True) (Done L) c.run (c.eval L)

end TensorCall

namespace Rel

open Kernel TensorCall

/-- The end of a builtin. -/
theorem finish_done (r : Result ι D) :
    Refines (Rel L κ clean) (Done L) (Kernel.finish r) (View.finish r) :=
  (finish r).mono (fun _ _ h => h) fun _ _ h => h.done

theorem ok_done (r : Result ι D) :
    Refines (Rel L κ True) (Done L) (pure (.ok r) : Kernel ι D (Outcome ι D)) (View.finish r) :=
  skip_failed <| (Refines.pure _).mono (fun _ _ h => h) fun _ _ h => h.done

theorem error_done (e : TensorError) :
    Refines (Rel L κ clean) (Done L) (pure (.error e) : Kernel ι D (Outcome ι D)) (pure (.error e)) :=
  (Refines.pure _).mono (fun _ _ h => h) fun _ _ h => h.done

theorem then_finish {α : Type} {p : Kernel ι D α} {q : StateM (View ι D) α} {κ' : ι → Kind} {clean' : Prop}
    {r : α → Result ι D} (h : Refines (Rel L κ clean) (Rel L κ' clean') p q) :
    Refines (Rel L κ clean) (Done L) (p >>= fun a => Kernel.finish (r a)) (q >>= fun a => View.finish (r a)) :=
  h.bind fun a => finish_done (r a)

/-- The loop of a dot product, however the elements are read. -/
theorem dotLoop {f g : ℕ → Kernel ι D D} {f' g' : ℕ → StateM (View ι D) D} {s : D}
    (hf : ∀ i < n, Refines (Rel L κ clean) (Rel L κ clean) (f i) (f' i))
    (hg : ∀ i < n, Refines (Rel L κ clean) (Rel L κ clean) (g i) (g' i)) :
    Refines (Rel L κ clean) (Rel L κ clean)
      (loop n (fun i s => do return s + (← f i) * (← g i)) s) (View.dotLoop n f' g' s) :=
  .loop (fun i hi _ => (hf i hi).bind fun _ => (hg i hi).bind fun _ => .pure _) s

/-! ## Rows and biases -/

/-- An index of a matrix of `m` rows of length `n`. -/
theorem index_lt {m n i j : ℕ} (hi : i < m) (hj : j < n) : i * n + j < m * n :=
  calc i * n + j < i * n + n := by omega
    _ = (i + 1) * n := by ring
    _ ≤ m * n := Nat.mul_le_mul_right n hi

theorem run_misfit (m : ℕ) (bias : Option ι) (σ : Mem ι D) (W : View ι D) (h : Rel L κ clean σ W) :
    ∃ σ', (Kernel.biasMisfit m bias).run σ = some (misfit L m bias, σ') ∧ Rel L κ clean σ' W := by
  cases bias with
  | none => exact ⟨σ, rfl, h⟩
  | some b => exact ⟨σ, by rw [misfit, ← h.len b]; rfl, h⟩

theorem bind_misfit {β : Type} {m : ℕ} {bias : Option ι} {f : Bool → Kernel ι D β} {q : StateM (View ι D) β}
    {S : Mem ι D → View ι D → Prop} (h : Refines (Rel L κ clean) S (f (misfit L m bias)) q) :
    Refines (Rel L κ clean) S (Kernel.biasMisfit m bias >>= f) q :=
  .bind_left _ (run_misfit m bias) h

/-- The bias is a vector of doubles, if there is one. -/
def BiasIsF64 (κ : ι → Kind) : Option ι → Bool
  | none => true
  | some b => κ b = .f64

theorem run_biasIsF64 (bias : Option ι) (σ : Mem ι D) (W : View ι D) (h : Rel L κ clean σ W) :
    ∃ σ', (Kernel.biasIsF64 bias).run σ = some (BiasIsF64 κ bias, σ') ∧ Rel L κ clean σ' W := by
  cases bias with
  | none => exact ⟨σ, rfl, h⟩
  | some b => exact ⟨σ, by rw [BiasIsF64, ← h.kind b]; rfl, h⟩

theorem bind_biasIsF64 {β : Type} {bias : Option ι} {f : Bool → Kernel ι D β} {q : StateM (View ι D) β}
    {S : Mem ι D → View ι D → Prop} (h : Refines (Rel L κ clean) S (f (BiasIsF64 κ bias)) q) :
    Refines (Rel L κ clean) S (Kernel.biasIsF64 bias >>= f) q :=
  .bind_left _ (run_biasIsF64 bias) h

theorem length_of_fits {m : ℕ} {b : ι} (h : ¬ misfit L m (some b) = true) : L b = m := by
  simpa [misfit] using h

theorem biasDouble {m : ℕ} {bias : Option ι} (hk : BiasIsF64 κ bias) (hm : ¬ misfit L m bias = true) (hi : i < m) :
    Refines (Rel L κ clean) (Rel L κ clean) (Kernel.biasDouble i bias : Kernel ι D D) (View.readBias i bias) := by
  cases bias with
  | none => exact .pure _
  | some b => exact double (of_decide_eq_true hk) (length_of_fits hm ▸ hi)

theorem readBias {m : ℕ} {bias : Option ι} (hm : ¬ misfit L m bias = true) (hi : i < m) :
    Refines (Rel L κ False) (Rel L κ False) (Kernel.readBias i bias : Kernel ι D D) (View.readBias i bias) := by
  cases bias with
  | none => exact .pure _
  | some b => exact readDouble (length_of_fits hm ▸ hi)

variable [DecidableEq ι]

/-! ## Reductions -/

theorem vecdot (a b : ι) : Simulates L κ (.dot a b : TensorCall ι (Boxed D)) := by
  refine bind_len <| bind_len ?_
  by_cases h : L a = L b
  case neg =>
    rw [if_pos h, eval_error .shape (by simp [check, h])]
    exact error_done _
  rw [if_neg (by simpa using h), eval_ok (by simp [check, h])]
  simp only [loops, bind_assoc, pure_bind]
  have hb {i : ℕ} (hi : i < L a) : i < L b := h ▸ hi
  refine bind_kind <| bind_kind <| weaken ?_
  split <;> rename_i ha hk
  · exact then_finish <| dotLoop (fun i hi => double ha hi) fun i hi => double hk (hb hi)
  · exact then_finish <| dotLoop (fun i hi => genDouble ha hi) fun i hi => genDouble hk (hb hi)
  · exact then_finish <| dotLoop (fun i hi => intDouble ha hi) fun i hi => double hk (hb hi)
  · exact then_finish <| dotLoop (fun i hi => double ha hi) fun i hi => intDouble hk (hb hi)
  · exact then_finish <| dotLoop (fun i hi => readDouble hi) fun i hi => readDouble (hb hi)

theorem vecsum (v : ι) : Simulates L κ (.sum v : TensorCall ι (Boxed D)) := by
  refine bind_len <| bind_kind ?_
  rw [eval_ok rfl]
  simp only [loops, bind_assoc, pure_bind]
  split
  case isTrue hk =>
    exact then_finish <| loop_clean (fun i hi s => (double hk hi).bind fun _ => .pure _) _
  case isFalse =>
    exact weaken <| then_finish <| .loopUnless failed (fun i hi s => (readDouble hi).bind fun _ => .pure _) _

theorem vecargmax (v : ι) : Simulates L κ (.argmax v : TensorCall ι (Boxed D)) := by
  refine bind_len <| bind_kind ?_
  rw [eval_ok rfl]
  simp only [loops, bind_assoc, pure_bind]
  split
  case isTrue hk =>
    refine then_finish <| loop_clean (fun i hi s => (double hk hi).bind fun _ => skip_failed ?_) _
    exact .pure _
  case isFalse =>
    refine weaken <| then_finish <|
      .loopUnless failed (fun i hi s => (readDouble hi).bind fun _ => failed.bind fun b => ?_) _
    cases b <;> exact .pure _

/-! ## Element by element -/

/-- The loops of a binary update, with a target that has room for doubles. -/
theorem binaryLoops (op : D → D → D) {y x : ι} (hy : κ y ≠ .i64) (hn : L y = n) (hx : L x = n) :
    ∃ c, Refines (Rel L κ True) (Rel L κ c) (Kernel.binaryLoops op n y x) (View.binaryLoop op n y x) := by
  subst hn
  by_cases hk : κ y = .f64 ∧ κ x = .f64
  · refine ⟨True, bind_kind <| bind_kind ?_⟩
    rw [if_pos hk]
    refine loop_clean (fun i hi _ => (double hk.1 hi).bind fun _ =>
      (double hk.2 (hx ▸ hi)).bind fun _ => skip_failed ?_) ()
    exact setDouble hk.1 hi
  · refine ⟨False, weaken <| bind_kind <| bind_kind ?_⟩
    rw [if_neg hk]
    refine .loopUnless failed (fun i hi _ => (readDouble hi).bind fun _ =>
      (readDouble (hx ▸ hi)).bind fun _ => failed.bind fun b => ?_) ()
    cases b
    · exact writeDouble hy hi
    · exact .pure _

theorem binaryInplace {op : D → D → D} {y x : ι} {c : TensorCall ι (Boxed D)}
    (hc : c.check L = if L y ≠ L x then some .shape else none)
    (hl : c.loops L = do
      View.binaryLoop op (L y) y x
      return .vector y) :
    Refines (Rel L κ True) (Done L) (Kernel.binaryInplace op y x) (c.eval L) := by
  refine bind_len <| bind_len ?_
  by_cases h : L y = L x
  case neg =>
    rw [if_pos h, eval_error .shape (by simp [hc, h])]
    exact error_done _
  rw [if_neg (by simpa using h), eval_ok (by simp [hc, h]), hl]
  simp only [bind_assoc, pure_bind]
  obtain ⟨_, hloop⟩ := binaryLoops op (show promoted κ y y ≠ .i64 from promoted_ne_i64) rfl h.symm
  exact requireFloatWritable <| then_finish hloop

theorem vecaxpy (y x : ι) (a : Boxed D) : Simulates L κ (.axpy y a x) := by
  show Refines _ _ (Kernel.vecaxpy y a x) _
  rw [Kernel.vecaxpy]
  cases ha : a.toDouble with
  | none =>
    rw [eval_error .badArgs (by simp [check, ha])]
    exact error_done _
  | some a' => exact binaryInplace (by simp [check, ha]) (by simp [loops, scalar, ha])

theorem veccountle (s v : ι) (lim : Boxed D) : Simulates L κ (.countLe s v lim) := by
  show Refines _ _ (Kernel.veccountle s v lim) _
  rw [Kernel.veccountle]
  cases ha : lim.toDouble with
  | none =>
    rw [eval_error .badArgs (by simp [check, ha])]
    exact error_done _
  | some a' => exact binaryInplace (by simp [check, ha]) (by simp [loops, scalar, ha])

theorem vecadd (y x : ι) : Simulates L κ (.add y x : TensorCall ι (Boxed D)) := binaryInplace rfl rfl

theorem vecsub (y x : ι) : Simulates L κ (.sub y x : TensorCall ι (Boxed D)) := binaryInplace rfl rfl

theorem vecmul (y x : ι) : Simulates L κ (.mul y x : TensorCall ι (Boxed D)) := binaryInplace rfl rfl

theorem vecscale (v : ι) (a : Boxed D) : Simulates L κ (.scale v a) := by
  show Refines _ _ (Kernel.vecscale v a) _
  rw [Kernel.vecscale]
  cases ha : a.toDouble with
  | none =>
    rw [eval_error .badArgs (by simp [check, ha])]
    exact error_done _
  | some a' =>
    rw [eval_ok (by simp [check, ha])]
    simp only [loops, bind_assoc, pure_bind, scalar, ha, Option.getD_some]
    refine requireFloatWritable <| bind_len <| bind_kind ?_
    split
    case isTrue hk =>
      refine then_finish <| loop_clean (fun i hi _ => (double hk hi).bind fun _ => skip_failed ?_) ()
      exact setDouble hk hi
    case isFalse =>
      refine weaken <| then_finish <| .loopUnless failed (fun i hi _ => (readDouble hi).bind fun _ =>
        failed.bind fun b => ?_) ()
      cases b
      · exact writeDouble promoted_ne_i64 hi
      · exact .pure _

/-- The relation after an element `x` was read. -/
def AfterRead (L : ι → ℕ) (κ : ι → Kind) (clean : Prop) (v : ι) (i : ℕ) (x : D) (σ : Mem ι D) (W : View ι D) : Prop :=
  Rel L κ clean σ W ∧ (W.err = false → W.num v i = some x)

omit [DecidableEq ι] in
theorem read_bind {v : ι} {p : Kernel ι D D} {f : D → Kernel ι D Unit} {g : D → StateM (View ι D) Unit}
    (hp : Refines (Rel L κ clean) (Rel L κ clean) p (View.read v i))
    (h : ∀ x, Refines (AfterRead L κ clean v i x) (Rel L κ clean) (f x) (g x)) :
    Refines (Rel L κ clean) (Rel L κ clean) (p >>= f) (View.read v i >>= g) := by
  intro σ W hR
  obtain ⟨σ₁, h₁, hR₁⟩ := hp σ W hR
  have hread : ((View.read v i).run W).2.err = false → W.num v i = some ((View.read v i).run W).1 := by
    show (W.err || (W.num v i).isNone) = false → W.num v i = some ((W.num v i).getD zero)
    cases W.num v i <;> simp
  obtain ⟨σ₂, h₂, hR₂⟩ := h _ σ₁ _ ⟨hR₁, hread⟩
  refine ⟨σ₂, ?_, hR₂⟩
  rw [StateT.run_bind, h₁]
  exact h₂

/-- A store that is left out when it would change nothing. -/
theorem reluStore {v : ι} {x : D} {w : Kernel ι D Unit}
    (hw : Refines (Rel L κ clean) (Rel L κ clean) w (View.write v i zero)) {σ : Mem ι D} {W : View ι D}
    (h : AfterRead L κ clean v i x σ W) (he : W.err = false) :
    ∃ σ', (if Arith.lt x zero then w else pure ()).run σ = some ((), σ') ∧
      Rel L κ clean σ' (W.set v i (some (if Arith.lt x zero then zero else x))) := by
  obtain ⟨hR, hx⟩ := h
  split
  · exact hw σ W hR
  · refine ⟨σ, rfl, ?_⟩
    rw [View.set, ← hx he, Function.update_eq_self, Function.update_eq_self]
    exact hR

theorem vecrelu (v : ι) : Simulates L κ (.relu v : TensorCall ι (Boxed D)) := by
  rw [Simulates, eval_ok rfl]
  simp only [loops, bind_assoc, pure_bind]
  refine requireFloatWritable <| bind_len <| bind_kind ?_
  split
  case isTrue hk =>
    refine then_finish <| loop_clean (fun i hi _ => read_bind (double hk hi) fun x => ?_) ()
    intro σ W h
    have he : W.err = false := h.1.clean trivial
    rw [run_failed he]
    exact reluStore (setDouble hk hi) h he
  case isFalse =>
    refine weaken <| then_finish <| .loopUnless failed (fun i hi _ => read_bind (readDouble hi) fun x => ?_) ()
    intro σ W h
    cases he : W.err with
    | true =>
      rw [run_failed he, run_failed' (h.1.err.trans he)]
      exact ⟨σ, rfl, h.1⟩
    | false =>
      rw [run_failed he, run_failed' (h.1.err.trans he)]
      exact reluStore (writeDouble promoted_ne_i64 hi) h he

/-! ## Copies -/

omit [DecidableEq ι] in
theorem boxed_toDouble {k : Kind} {e : Cell D} {o : Option D} (h : e.num k = some o) :
    (Tensor.boxed e).toDouble = o := by
  cases k <;> cases e <;> cases h
  · rfl
  · rename_i n
    by_cases hn : fixFits n
    · rw [Tensor.boxed, if_pos hn, Boxed.toDouble, of_decide_eq_true hn]
    · rw [Tensor.boxed, if_neg hn, Boxed.toDouble]
  · rfl

omit [DecidableEq ι] in
/-- A cell that is read, with its number. -/
theorem run_cell {σ : Mem ι D} {W : View ι D} (hR : Rel L κ clean σ W) {v : ι} (hi : i < L v) :
    ∃ e, (Kernel.cell v i).run σ = some (e, σ) ∧ e.num (κ v) = some (W.num v i) := by
  obtain ⟨e, he, hn⟩ := hR.cell v i hi
  refine ⟨e, ?_, hn⟩
  show Option.map _ _ = _
  rw [he]
  rfl

theorem copyCell {d s : ι} (hk : κ d = κ s) (hd : i < L d) (hs : i < L s) :
    Refines (Rel L κ clean) (Rel L κ clean) (Kernel.cell (D := D) s i >>= Kernel.put d i) (View.copyAt d s i) := by
  intro σ W hR
  obtain ⟨e, he, hn⟩ := hR.run_cell hs
  obtain ⟨σ', hσ, hR'⟩ := hR.put_cell hd (by rw [hk]; exact hn)
  refine ⟨σ', ?_, hR'⟩
  rw [StateT.run_bind, he]
  exact hσ

/-- A value that is stored, whatever the kind of the vector is. -/
theorem setBoxed {σ : Mem ι D} {W : View ι D} {d : ι} {e : Boxed D} (hR : Rel L κ clean σ W) (hd : i < L d) :
    ∃ κ' σ', (Kernel.setBoxed d i e).run σ = some ((), σ') ∧ Rel L κ' clean σ' (W.set d i e.toDouble) := by
  have hpromote : ∃ κ' σ', ((Kernel.promote d >>= fun _ => Kernel.put d i (.box e)) : Kernel ι D Unit).run σ =
      some ((), σ') ∧ Rel L κ' clean σ' (W.set d i e.toDouble) := by
    have hR' : Rel L (Function.update κ d .gen) clean _ W :=
      hR.replace (e := .box .other) (f := fun c => .box (Tensor.boxed c)) fun c o hc => congrArg some (boxed_toDouble hc)
    obtain ⟨σ', hσ, h⟩ := hR'.put_cell hd (e := .box e) (by rw [Function.update_self]; rfl)
    exact ⟨_, σ', hσ, h⟩
  have hput {c : Cell D} (hc : c.num (κ d) = some e.toDouble) :
      ∃ κ' σ', (Kernel.put d i c).run σ = some ((), σ') ∧ Rel L κ' clean σ' (W.set d i e.toDouble) := by
    obtain ⟨σ', hσ, h⟩ := hR.put_cell hd hc
    exact ⟨κ, σ', hσ, h⟩
  rw [Kernel.setBoxed, run_kind, hR.kind]
  cases hk : κ d <;> cases e <;> first | exact hput (by rw [hk]; rfl) | exact hpromote

theorem copyLoop {d s : ι} (hd : L d = n) (hs : L s = n) :
    Refines (Rel L κ True) (fun σ W => ∃ κ, Rel L κ True σ W)
      (loop n (fun i _ => do Kernel.setBoxed d i (← Kernel.getBoxed s i)) () : Kernel ι D Unit)
      (View.copyLoop n d s) := by
  refine .mono (.loop (R := fun σ W => ∃ κ, Rel L κ True σ W) (fun i hi _ => ?_) ()) (fun _ _ h => ⟨κ, h⟩)
    fun _ _ h => h
  rintro σ W ⟨κ, hR⟩
  obtain ⟨e, he, hn⟩ := hR.run_cell (hs ▸ hi)
  obtain ⟨κ', σ', hσ, h⟩ := hR.setBoxed (e := Tensor.boxed e) (hd ▸ hi)
  rw [boxed_toDouble hn] at h
  refine ⟨σ', ?_, κ', h⟩
  rw [StateT.run_bind, Kernel.getBoxed, StateT.run_bind, he]
  exact hσ

theorem veccopy (d s : ι) : Simulates L κ (.copy d s : TensorCall ι (Boxed D)) := by
  refine bind_len <| bind_len ?_
  by_cases h : L d = L s
  case neg =>
    rw [if_pos h, eval_error .shape (by simp [check, h])]
    exact error_done _
  rw [if_neg (by simpa using h), eval_ok (by simp [check, h])]
  by_cases hds : d = s
  · rw [if_pos hds]
    simp only [loops, if_pos hds, pure_bind]
    exact ok_done _
  · rw [if_neg hds]
    simp only [loops, if_neg hds, bind_assoc, pure_bind]
    refine bind_kind <| bind_kind ?_
    split
    case isTrue hk => exact .bind (.loop (fun i hi _ => copyCell hk hi (h ▸ hi)) ()) fun _ => ok_done _
    case isFalse => exact (copyLoop rfl h.symm).bind fun _ σ W ⟨κ, hR⟩ => ok_done _ σ W hR

/-! ## Softmax -/

/-- What was written is read. -/
theorem write_read {α : Type} (v : ι) (i : ℕ) (x : D) (f : D → StateM (View ι D) α) :
    (View.write v i x >>= fun _ => View.read v i >>= f) = View.write v i x >>= fun _ => f x := by
  funext W
  have h : (View.read v i).run (W.set v i (some x)) = (x, W.set v i (some x)) := by
    simp [View.read, View.set, StateT.run]
  show (f ((View.read v i).run _).1).run ((View.read v i).run _).2 = _
  rw [h]
  rfl

theorem softmaxDoubles {v : ι} (hk : κ v = .f64) (hn : L v = n + 1) :
    Refines (Rel L κ True) (Rel L κ True) (do
      let m ← loop n (fun i m => do
        let x ← Kernel.double v (i + 1)
        return if Arith.lt m x then x else m) (← Kernel.double v 0)
      let s ← loop (n + 1) (fun i s => do
        Kernel.setDouble v i (Arith.exp ((← Kernel.double v i) - m))
        return s + (← Kernel.double v i)) zero
      let inv := if Arith.lt zero s then one / s else zero
      loop (n + 1) (fun i _ => do Kernel.setDouble v i ((← Kernel.double v i) * inv)) () : Kernel ι D Unit)
      (View.softmaxLoops (n + 1) v) := by
  have hi {i : ℕ} (h : i < n + 1) : i < L v := hn ▸ h
  refine (double hk (hi (by omega))).seq fun _ => .seq ?_ fun m => .seq ?_ fun s => ?_
  · exact loop_clean (fun i h _ => (double hk (hi (by omega))).bind fun _ => .pure _) _
  · refine loop_clean (fun i h s => (double hk (hi h)).bind fun x => ?_) _
    rw [← write_read v i (Arith.exp (x - m)) fun y => pure (s + y)]
    exact (setDouble hk (hi h)).bind fun _ => (double hk (hi h)).bind fun _ => .pure _
  · exact loop_clean (fun i h _ => (double hk (hi h)).bind fun _ => setDouble hk (hi h)) _

theorem softmaxAny {v : ι} (hk : κ v ≠ .i64) (hn : L v = n + 1) :
    Refines (Rel L κ False) (Rel L κ False) (do
      let m ← loopUnless Kernel.failed n (fun i m => do
        let x ← Kernel.readDouble v (i + 1)
        return if Arith.lt m x then x else m) (← Kernel.readDouble v 0)
      let s ← loopUnless Kernel.failed (n + 1) (fun i s => do
        let x := Arith.exp ((← Kernel.readDouble v i) - m)
        Kernel.writeDouble v i x
        return s + x) zero
      let inv := if Arith.lt zero s then one / s else zero
      loopUnless Kernel.failed (n + 1) (fun i _ => do
        Kernel.writeDouble v i ((← Kernel.readDouble v i) * inv)) () : Kernel ι D Unit)
      (View.softmaxLoops (n + 1) v) := by
  have hi {i : ℕ} (h : i < n + 1) : i < L v := hn ▸ h
  refine (readDouble (hi (by omega))).seq fun _ => .seq ?_ fun m => .seq ?_ fun s => ?_
  · exact .loopUnless failed (fun i h _ => (readDouble (hi (by omega))).bind fun _ => .pure _) _
  · exact .loopUnless failed (fun i h _ =>
      (readDouble (hi h)).bind fun _ => (writeDouble hk (hi h)).bind fun _ => .pure _) _
  · exact .loopUnless failed (fun i h _ => (readDouble (hi h)).bind fun _ => writeDouble hk (hi h)) _

theorem vecsoftmax (v : ι) : Simulates L κ (.softmax v : TensorCall ι (Boxed D)) := by
  rw [Simulates, eval_ok rfl]
  refine requireFloatWritable <| bind_len ?_
  cases hn : L v with
  | zero =>
    simp only [loops, hn, if_pos, pure_bind]
    exact ok_done _
  | succ n =>
    simp only [loops, hn, if_neg (Nat.succ_ne_zero n), bind_assoc, pure_bind]
    refine bind_kind ?_
    split
    case isTrue hk => simpa using then_finish (softmaxDoubles hk hn)
    case isFalse => simpa using weaken <| then_finish (softmaxAny promoted_ne_i64 hn)

/-! ## Matrices -/

theorem matvec (a x : ι) : Simulates L κ (.matVec a x : TensorCall ι (Boxed D)) := by
  refine bind_len <| bind_len ?_
  by_cases h : L x = 0 ∨ L a % L x ≠ 0
  case pos =>
    rw [if_pos h, eval_error .shape (by rw [check, if_pos h])]
    exact error_done _
  rw [if_neg h, eval_ok (by rw [check, if_neg h])]
  simp only [loops, bind_assoc, pure_bind]
  have ha {i j : ℕ} (hi : i < L a / L x) (hj : j < L x) : i * L x + j < L a :=
    (index_lt hi hj).trans_le (Nat.div_mul_le_self _ _)
  refine bind_kind <| bind_kind ?_
  split
  case isTrue hk =>
    exact then_finish <| loop_clean (fun i hi _ =>
      (dotLoop (fun j hj => double hk.1 (ha hi hj)) fun j hj => double hk.2 hj).bind fun _ => .pure _) _
  case isFalse =>
    exact weaken <| then_finish <| .loopUnless failed (fun i hi _ =>
      (dotLoop (fun j hj => readDouble (ha hi hj)) fun j hj => readDouble hj).bind fun _ => .pure _) _

theorem matvecbang {out a x : ι} {bias : Option ι}
    (hout : check L (.matVecTo out a x bias : TensorCall ι (Boxed D)) = none → κ out ≠ .gen) :
    Simulates L κ (.matVecTo out a x bias : TensorCall ι (Boxed D)) := by
  refine bind_len <| bind_len <| bind_len ?_
  by_cases h : L x = 0 ∨ L out = 0 ∨ L a ≠ L out * L x
  case pos =>
    rw [if_pos h, eval_error .shape (by rw [check, if_pos (by tauto)])]
    exact error_done _
  rw [if_neg h]
  refine bind_misfit ?_
  by_cases hb : misfit L (L out) bias = true
  case pos =>
    rw [if_pos hb, eval_error .shape (by rw [check, if_pos (by tauto)])]
    exact error_done _
  have hok : check L (.matVecTo out a x bias : TensorCall ι (Boxed D)) = none := by
    rw [check, if_neg (by tauto)]
  rw [if_neg hb, eval_ok hok]
  simp only [loops, bind_assoc, pure_bind]
  have ha {i j : ℕ} (hi : i < L out) (hj : j < L x) : i * L x + j < L a := by
    have := index_lt hi hj
    omega
  have hk' : promoted κ out out = .f64 := promoted_f64 (hout hok)
  refine requireFloatWritable <| bind_kind <| bind_kind <| bind_biasIsF64 ?_
  split
  case isTrue hk =>
    refine then_finish <| loop_clean (fun i hi _ => .seq (biasDouble hk.2.2 hb hi) fun _ => .seq ?_ fun _ => ?_) _
    · exact dotLoop (fun j hj => double hk.1 (ha hi hj)) fun j hj => double hk.2.1 hj
    · exact setDouble hk' hi
  case isFalse =>
    refine weaken <| then_finish <| .loopUnless failed (fun i hi _ =>
      .seq (readBias hb hi) fun _ => .seq ?_ fun _ => ?_) _
    · exact dotLoop (fun j hj => readDouble (ha hi hj)) fun j hj => readDouble hj
    · exact setDouble hk' hi

theorem matvectDoubles {m : ℕ} {out a v : ι} {bias : Option ι} (hk : κ out = .f64)
    (hkav : κ a = .f64 ∧ κ v = .f64 ∧ BiasIsF64 κ bias = true) (hn : L out = n) (hm : L v = m)
    (ha : L a = m * n) (hb : ¬ misfit L n bias = true) :
    Refines (Rel L κ True) (Rel L κ True) (do
      loop n (fun j _ => do Kernel.setDouble out j (← Kernel.biasDouble j bias)) ()
      loop m (fun i _ => do
        let vi ← Kernel.double v i
        loop n (fun j _ => do
          Kernel.setDouble out j ((← Kernel.double out j) + vi * (← Kernel.double a (i * n + j)))) ()) () :
        Kernel ι D Unit)
      (View.matvectbangLoops m n out a v bias) := by
  obtain ⟨ka, kv, kb⟩ := hkav
  subst hn hm
  refine .seq (.loop (fun j hj _ => ?_) ()) fun _ => loop_clean (fun i hi _ => .seq (double kv hi) fun _ =>
    .loop (fun j hj _ => ?_) ()) ()
  · exact (biasDouble kb hb hj).seq fun _ => setDouble hk hj
  · exact (double hk hj).seq fun _ => (double ka (ha ▸ index_lt hi hj)).seq fun _ => setDouble hk hj

theorem matvectAny {m : ℕ} {out a v : ι} {bias : Option ι} (hk : κ out = .f64) (hn : L out = n) (hm : L v = m)
    (ha : L a = m * n) (hb : ¬ misfit L n bias = true) :
    Refines (Rel L κ False) (Rel L κ False) (do
      loop n (fun j _ => do Kernel.setDouble out j (← Kernel.readBias j bias)) ()
      loopUnless Kernel.failed m (fun i _ => do
        let vi ← Kernel.readDouble v i
        loop n (fun j _ => do
          Kernel.setDouble out j ((← Kernel.double out j) + vi * (← Kernel.readDouble a (i * n + j)))) ()) () :
        Kernel ι D Unit)
      (View.matvectbangLoops m n out a v bias) := by
  subst hn hm
  refine .seq (.loop (fun j hj _ => ?_) ()) fun _ => .loopUnless failed (fun i hi _ => .seq (readDouble hi) fun _ =>
    .loop (fun j hj _ => ?_) ()) ()
  · exact (readBias hb hj).seq fun _ => setDouble hk hj
  · exact (double hk hj).seq fun _ => (readDouble (ha ▸ index_lt hi hj)).seq fun _ => setDouble hk hj

theorem matvectbang {out a v : ι} {bias : Option ι}
    (hout : check L (.matVecTTo out a v bias : TensorCall ι (Boxed D)) = none → κ out ≠ .gen) :
    Simulates L κ (.matVecTTo out a v bias : TensorCall ι (Boxed D)) := by
  refine bind_len <| bind_len <| bind_len ?_
  by_cases h : L v = 0 ∨ L out = 0 ∨ L a ≠ L v * L out
  case pos =>
    rw [if_pos h, eval_error .shape (by rw [check, if_pos (by tauto)])]
    exact error_done _
  rw [if_neg h]
  refine bind_misfit ?_
  by_cases hb : misfit L (L out) bias = true
  case pos =>
    rw [if_pos hb, eval_error .shape (by rw [check, if_pos (by tauto)])]
    exact error_done _
  have hok : check L (.matVecTTo out a v bias : TensorCall ι (Boxed D)) = none := by
    rw [check, if_neg (by tauto)]
  rw [if_neg hb, eval_ok hok]
  simp only [loops, bind_assoc, pure_bind]
  have ha : L a = L v * L out := by tauto
  have hk' : promoted κ out out = .f64 := promoted_f64 (hout hok)
  refine requireFloatWritable <| bind_kind <| bind_kind <| bind_biasIsF64 ?_
  split
  case isTrue hk => simpa using then_finish (matvectDoubles hk' hk rfl rfl ha hb)
  case isFalse => simpa using weaken <| then_finish (matvectAny hk' rfl rfl ha hb)

theorem vecger (a : ι) (alpha : Boxed D) (u v : ι) : Simulates L κ (.ger a alpha u v) := by
  show Refines _ _ (Kernel.vecger a alpha u v) _
  rw [Kernel.vecger]
  cases hα : alpha.toDouble with
  | none =>
    rw [eval_error .badArgs (by simp [check, hα])]
    exact error_done _
  | some α =>
    refine bind_len <| bind_len <| bind_len ?_
    by_cases h : L u = 0 ∨ L v = 0 ∨ L a ≠ L u * L v
    case pos =>
      rw [if_pos h, eval_error .shape (by simp [check, hα, h])]
      exact error_done _
    rw [if_neg h, eval_ok (by simp [check, hα, h])]
    simp only [loops, bind_assoc, pure_bind, scalar, hα, Option.getD_some]
    have ha {i j : ℕ} (hi : i < L u) (hj : j < L v) : i * L v + j < L a := by
      have := index_lt hi hj
      omega
    refine requireFloatWritable <| bind_kind <| bind_kind <| bind_kind ?_
    split
    case isTrue hk =>
      refine then_finish <| loop_clean (fun i hi _ => .seq (double hk.2.1 hi) fun _ =>
        .loop (fun j hj _ => ?_) ()) ()
      exact (double hk.1 (ha hi hj)).seq fun _ => (double hk.2.2 hj).seq fun _ => setDouble hk.1 (ha hi hj)
    case isFalse =>
      refine weaken <| then_finish <| .loopUnless failed (fun i hi _ => .seq (readDouble hi) fun _ =>
        .loop (fun j hj _ => ?_) ()) ()
      exact (readDouble (ha hi hj)).seq fun _ => (readDouble hj).seq fun _ =>
        writeDouble promoted_ne_i64 (ha hi hj)

theorem matmul (a b : ι) (k : Boxed D) : Simulates L κ (.matMul a b k) := by
  cases k with
  | float x =>
    rw [Simulates, eval_error .badArgs rfl]
    exact error_done _
  | other =>
    rw [Simulates, eval_error .badArgs rfl]
    exact error_done _
  | fix k =>
    refine bind_len <| bind_len ?_
    by_cases h : k.1 ≤ 0 ∨ L a % k.1.toNat ≠ 0 ∨ L b % k.1.toNat ≠ 0
    case pos =>
      rw [if_pos h, eval_error .shape (by rw [check, if_pos h])]
      exact error_done _
    rw [if_neg h]
    by_cases hc : capLimit ≤ L a / k.1.toNat * (L b / k.1.toNat)
    case pos =>
      simp only [if_pos hc]
      rw [eval_error .tooLarge (by rw [check, if_neg h, if_pos hc])]
      exact error_done _
    simp only [if_neg hc]
    rw [eval_ok (by rw [check, if_neg h, if_neg hc])]
    simp only [loops, bind_assoc, pure_bind, innerDim]
    have ha {i p : ℕ} (hi : i < L a / k.1.toNat) (hp : p < k.1.toNat) : i * k.1.toNat + p < L a :=
      (index_lt hi hp).trans_le (Nat.div_mul_le_self _ _)
    have hb {p j : ℕ} (hp : p < k.1.toNat) (hj : j < L b / k.1.toNat) :
        p * (L b / k.1.toNat) + j < L b :=
      (index_lt hp hj).trans_le (Nat.mul_div_le _ _)
    refine bind_kind <| bind_kind ?_
    split
    case isTrue hk =>
      refine then_finish <| loop_clean (fun i hi _ => loop_clean (fun p hp _ =>
        .seq (double hk.1 (ha hi hp)) fun _ => loop_clean (fun j hj _ => ?_) _) _) _
      exact (double hk.2 (hb hp hj)).seq fun _ => .pure _
    case isFalse =>
      refine weaken <| then_finish <| .loopUnless failed (fun i hi _ => .loopUnless failed (fun p hp _ =>
        .seq (readDouble (ha hi hp)) fun _ => .loopUnless failed (fun j hj _ => ?_) _) _) _
      exact (readDouble (hb hp hj)).seq fun _ => .pure _

end Rel

namespace TensorCall

variable [DecidableEq ι]

/-- The target of `mat-vec!` or `mat-vec-t!`, into which the results are stored as raw doubles. -/
def rawTarget {α : Type} : TensorCall ι α → Option ι
  | matVecTo out _ _ _ | matVecTTo out _ _ _ => some out
  | _ => none

/-- Whatever the kinds are, a call does what it does on the numbers, unless its raw target is boxed. -/
theorem refines {c : TensorCall ι (Boxed D)}
    (h : c.check L = none → ∀ t, c.rawTarget = some t → κ t ≠ .gen) : c.Simulates L κ := by
  cases c with
  | dot a b => exact Rel.vecdot a b
  | sum v => exact Rel.vecsum v
  | argmax v => exact Rel.vecargmax v
  | axpy y a x => exact Rel.vecaxpy y x a
  | scale v a => exact Rel.vecscale v a
  | add y x => exact Rel.vecadd y x
  | sub y x => exact Rel.vecsub y x
  | mul y x => exact Rel.vecmul y x
  | countLe c s lim => exact Rel.veccountle c s lim
  | copy d s => exact Rel.veccopy d s
  | relu v => exact Rel.vecrelu v
  | softmax v => exact Rel.vecsoftmax v
  | matVec a x => exact Rel.matvec a x
  | matVecTo out a x bias => exact Rel.matvecbang fun hok => h hok out rfl
  | matVecTTo out a v bias => exact Rel.matvectbang fun hok => h hok out rfl
  | ger a alpha u v => exact Rel.vecger a alpha u v
  | matMul a b k => exact Rel.matmul a b k

end TensorCall

/-! ## Boxed targets -/

namespace Rel

open TensorCall

variable [DecidableEq ι] {x : D}

theorem setDouble_faults {v : ι} (hk : κ v = .gen) :
    Faults (Rel L κ clean) (Kernel.setDouble v i x : Kernel ι D Unit) := by
  refine .left _ (run_kindOf v) ?_
  rw [hk]
  exact fun _ _ _ => rfl

omit [DecidableEq ι] in
theorem loopUnless_faults {α : Type} {body : ℕ → α → Kernel ι D α} (hn : 0 < n)
    (h : ∀ a, Faults (Rel L κ True) (body 0 a)) (a : α) :
    Faults (Rel L κ True) (loopUnless Kernel.failed n body a) := by
  refine .loop hn (fun a σ W hR => ?_) a
  rw [run_failed' (hR.err.trans (hR.clean trivial))]
  exact h a σ W hR

omit [DecidableEq ι] in
theorem weaken_faults {α : Type} {p : Kernel ι D α} (h : Faults (Rel L κ False) p) : Faults (Rel L κ clean) p :=
  h.mono fun _ _ h => { h with clean := False.elim }

theorem promoted_gen {v : ι} (hk : κ v = .gen) : promoted κ v = κ := by simp [promoted, hk]

/-- The first store into a boxed target of `mat-vec!`. -/
theorem matvecbang_faults {out a x : ι} {bias : Option ι} (hk : κ out = .gen)
    (hok : check L (.matVecTo out a x bias : TensorCall ι (Boxed D)) = none) :
    Faults (Rel L κ True) (Kernel.matvecbang out a x bias : Kernel ι D (Outcome ι D)) := by
  have hshape : ¬ (L x = 0 ∨ L out = 0 ∨ L a ≠ L out * L x ∨ misfit L (L out) bias = true) := by
    intro h
    rw [check, if_pos h] at hok
    cases hok
  have h : ¬ (L x = 0 ∨ L out = 0 ∨ L a ≠ L out * L x) := by tauto
  have hb : ¬ misfit L (L out) bias = true := by tauto
  have hm : 0 < L out := by omega
  have ha {j : ℕ} (hj : j < L x) : 0 * L x + j < L a := by
    have := index_lt hm hj
    omega
  refine .left _ (run_len a) <| .left _ (run_len x) <| .left _ (run_len out) ?_
  rw [if_neg h]
  refine .left _ (run_misfit _ _) ?_
  rw [if_neg hb]
  refine .left _ (run_requireFloatWritable out) ?_
  rw [promoted_gen hk]
  refine .left _ (run_kindOf a) <| .left _ (run_kindOf x) <| .left _ (run_biasIsF64 bias) ?_
  split
  case isTrue hk' =>
    exact .bind <| .loop hm (fun _ => .after (biasDouble hk'.2.2 hb hm) fun _ => .after
      (dotLoop (fun j hj => double hk'.1 (ha hj)) fun j hj => double hk'.2.1 hj) fun _ => setDouble_faults hk) ()
  case isFalse =>
    exact .bind <| loopUnless_faults hm (fun _ => weaken_faults <| .after (readBias hb hm) fun _ => .after
      (dotLoop (fun j hj => readDouble (ha hj)) fun j hj => readDouble hj) fun _ => setDouble_faults hk) ()

/-- The first store into a boxed target of `mat-vec-t!`. -/
theorem matvectbang_faults {out a v : ι} {bias : Option ι} (hk : κ out = .gen)
    (hok : check L (.matVecTTo out a v bias : TensorCall ι (Boxed D)) = none) :
    Faults (Rel L κ True) (Kernel.matvectbang out a v bias : Kernel ι D (Outcome ι D)) := by
  have hshape : ¬ (L v = 0 ∨ L out = 0 ∨ L a ≠ L v * L out ∨ misfit L (L out) bias = true) := by
    intro h
    rw [check, if_pos h] at hok
    cases hok
  have h : ¬ (L v = 0 ∨ L out = 0 ∨ L a ≠ L v * L out) := by tauto
  have hb : ¬ misfit L (L out) bias = true := by tauto
  have hn : 0 < L out := by omega
  refine .left _ (run_len a) <| .left _ (run_len v) <| .left _ (run_len out) ?_
  rw [if_neg h]
  refine .left _ (run_misfit _ _) ?_
  rw [if_neg hb]
  refine .left _ (run_requireFloatWritable out) ?_
  rw [promoted_gen hk]
  refine .left _ (run_kindOf a) <| .left _ (run_kindOf v) <| .left _ (run_biasIsF64 bias) ?_
  split
  case isTrue hk' =>
    exact .bind <| .loop hn (fun _ => .after (biasDouble hk'.2.2 hb hn) fun _ => setDouble_faults hk) ()
  case isFalse =>
    exact weaken_faults <| .bind <| .loop hn (fun _ => .after (readBias hb hn) fun _ => setDouble_faults hk) ()

end Rel

/-- A raw store into a boxed target is a fault. -/
theorem TensorCall.faults [DecidableEq ι] {c : TensorCall ι (Boxed D)} {t : ι} (hok : c.check L = none)
    (ht : c.rawTarget = some t) (hk : κ t = .gen) : Faults (Rel L κ True) c.run := by
  cases c with
  | matVecTo out a x bias =>
    obtain rfl := Option.some.inj ht
    exact Rel.matvecbang_faults hk hok
  | matVecTTo out a v bias =>
    obtain rfl := Option.some.inj ht
    exact Rel.matvectbang_faults hk hok
  | _ => cases ht

end Alcove.Vector
