import Alcove.Vector.Kinds

/-!
# What an in-place operation leaves in its target

For each in-place operation a closed form of the target after it, in terms of the numbers before it
(`TensorCall.spec`). Elementwise loops and `vec-ger!` reach it however their arguments are aliased, as each
index is read before it is written. The row products reach it when they do not read what they have written
(`TensorCall.AliasSafe`).

**Main result:** `TensorCall.loops_spec`.
-/

namespace Alcove.Vector

open Lib

variable {ι D : Type}

/-- `s + f 0 * g 0 + ... + f (n - 1) * g (n - 1)`, from the left. -/
def dotSum [Arith D] (f g : ℕ → D) (s : D) : ℕ → D
  | 0 => s
  | n + 1 => dotSum f g s n + f n * g n

/-! ## Runs -/

namespace View

variable {α : Type} {n : ℕ}

theorem run_loop {body : ℕ → α → StateM (View ι D) α} {A : ℕ → α} {S : ℕ → View ι D}
    (h : ∀ i < n, (body i (A i)).run (S i) = (A (i + 1), S (i + 1))) :
    (loop n body (A 0)).run (S 0) = (A n, S n) := by
  induction n with
  | zero => rfl
  | succ n ih =>
    show (body n ((loop n body (A 0)).run (S 0)).1).run ((loop n body (A 0)).run (S 0)).2 = _
    rw [ih fun i hi => h i (by omega)]
    exact h n (by omega)

theorem run_loopUnless {body : ℕ → α → StateM (View ι D) α} {A : ℕ → α} {S : ℕ → View ι D}
    (hS : ∀ i < n, (S i).err = false) (h : ∀ i < n, (body i (A i)).run (S i) = (A (i + 1), S (i + 1))) :
    (loopUnless failed n body (A 0)).run (S 0) = (A n, S n) :=
  run_loop fun i hi => (Rel.run_failed (hS i hi) _).trans (h i hi)

variable [Arith D] {W : View ι D} {v : ι} {i : ℕ} {x : D}

/-- A number that is read. -/
theorem run_read (h : W.num v i = some x) : (read v i).run W = (x, W) := by
  show ((W.num v i).getD zero, _) = _
  rw [h]
  simp

theorem run_dotLoop {f g : ℕ → StateM (View ι D) D} {F G : ℕ → D} {s : D}
    (hf : ∀ j < n, (f j).run W = (F j, W)) (hg : ∀ j < n, (g j).run W = (G j, W)) :
    (dotLoop n f g s).run W = (dotSum F G s n, W) := by
  refine run_loop (A := dotSum F G s) (S := fun _ => W) fun j hj => ?_
  show _ = (dotSum F G s j + F j * G j, W)
  rw [StateT.run_bind, hf j hj]
  show ((g j >>= fun y => pure _ : StateM _ _).run W) = _
  rw [StateT.run_bind, hg j hj]
  rfl

variable [DecidableEq ι]

/-- The first `n` indices of `t` have the numbers of `g`. -/
def filled (W : View ι D) (t : ι) (g : ℕ → D) (n : ℕ) : View ι D :=
  { W with num := Function.update W.num t fun k => if k < n then some (g k) else W.num t k }

variable {t : ι} {g : ℕ → D}

omit [Arith D] in
theorem filled_zero : W.filled t g 0 = W := by simp [filled]

omit [Arith D] in
theorem filled_succ (n : ℕ) : (W.filled t g n).set t n (some (g n)) = W.filled t g (n + 1) := by
  simp only [filled, set, Function.update_self, Function.update_idem]
  congr 2
  funext k
  obtain rfl | hk := eq_or_ne k n
  · simp
  · simp only [Function.update_of_ne hk]
    by_cases h : k < n
    · rw [if_pos h, if_pos (by omega)]
    · rw [if_neg h, if_neg (by omega)]

omit [Arith D] in
/-- What was not written yet. -/
theorem filled_num (h : v = t → n ≤ i) : (W.filled t g n).num v i = W.num v i := by
  simp only [filled]
  obtain rfl | hv := eq_or_ne v t
  · rw [Function.update_self, if_neg (by have := h rfl; omega)]
  · rw [Function.update_of_ne hv]

omit [Arith D] in
theorem filled_self (h : i < n) : (W.filled t g n).num t i = some (g i) := by
  simp [filled, h]

omit [Arith D] in
/-- A loop that fills `t` from index 0 on. -/
theorem run_fill {body : ℕ → Unit → StateM (View ι D) Unit}
    (h : ∀ i < n, (body i ()).run (W.filled t g i) = ((), (W.filled t g i).set t i (some (g i)))) :
    (loop n body ()).run W = ((), W.filled t g n) := by
  have h := run_loop (A := fun _ => ()) (S := W.filled t g) fun i hi => (h i hi).trans (by rw [filled_succ])
  rwa [filled_zero] at h

omit [Arith D] in
theorem run_fillUnless {body : ℕ → Unit → StateM (View ι D) Unit} (he : W.err = false)
    (h : ∀ i < n, (body i ()).run (W.filled t g i) = ((), (W.filled t g i).set t i (some (g i)))) :
    (loopUnless failed n body ()).run W = ((), W.filled t g n) :=
  run_fill fun i hi => (Rel.run_failed (W := W.filled t g i) he _).trans (h i hi)

omit [Arith D] [DecidableEq ι] in
/-- A number that is read, and what follows. -/
theorem run_bind {α β : Type} {p : StateM (View ι D) α} {f : α → StateM (View ι D) β} {a : α} {W' : View ι D}
    (h : p.run W = (a, W')) : (p >>= f).run W = (f a).run W' := by
  rw [StateT.run_bind, h]
  rfl

/-! ## Element by element -/

theorem run_binaryLoop {op : D → D → D} {y x : ι} {f f' : ℕ → D} (he : W.err = false)
    (hy : ∀ i < n, W.num y i = some (f i)) (hx : ∀ i < n, W.num x i = some (f' i)) :
    (binaryLoop op n y x).run W = ((), W.filled y (fun i => op (f i) (f' i)) n) := by
  refine run_fillUnless he fun i hi => ?_
  rw [run_bind (run_read ((filled_num fun _ => le_rfl).trans (hy i hi))),
    run_bind (run_read ((filled_num fun _ => le_rfl).trans (hx i hi)))]
  exact Rel.run_failed (W := W.filled y _ i) he _

theorem run_unaryLoop {op : D → D} {f : ℕ → D} (he : W.err = false) (hv : ∀ i < n, W.num v i = some (f i)) :
    (unaryLoop op n v).run W = ((), W.filled v (fun i => op (f i)) n) := by
  refine run_fillUnless he fun i hi => ?_
  rw [run_bind (run_read ((filled_num fun _ => le_rfl).trans (hv i hi)))]
  exact Rel.run_failed (W := W.filled v _ i) he _

omit [Arith D] in
theorem run_copyLoop {d s : ι} {f : ℕ → D} (hds : d ≠ s) (hs : ∀ i < n, W.num s i = some (f i)) :
    (copyLoop n d s).run W = ((), W.filled d f n) := by
  refine run_fill fun i hi => ?_
  rw [← hs i hi, ← filled_num fun e => absurd e.symm hds]
  rfl

/-! ## Matrices -/

/-- The bias of a row. -/
def biasNum (w : ι → ℕ → D) (i : ℕ) : Option ι → D
  | none => zero
  | some b => w b i

omit [DecidableEq ι] in
theorem run_readBias {w : ι → ℕ → D} {bias : Option ι} (h : ∀ b, bias = some b → W.num b i = some (w b i)) :
    (readBias i bias).run W = (biasNum w i bias, W) := by
  cases bias with
  | none => rfl
  | some b => exact run_read (h b rfl)

variable {w : ι → ℕ → D} {m : ℕ} {out a u : ι} {bias : Option ι}

theorem run_matvecbangLoops (he : W.err = false) (ha : ∀ i < m * n, W.num a i = some (w a i))
    (hx : ∀ j < n, W.num u j = some (w u j)) (hb : ∀ b, bias = some b → ∀ i < m, W.num b i = some (w b i))
    (haout : a = out → n = 1) (hxout : u = out → m = 1) :
    (matvecbangLoops m n out a u bias).run W = ((), W.filled out
      (fun i => dotSum (fun j => w a (i * n + j)) (w u) (biasNum w i bias) n) m) := by
  refine run_fillUnless he fun i hi => ?_
  rw [run_bind (run_readBias fun b hb' => (filled_num fun _ => le_rfl).trans (hb b hb' i hi)),
    run_bind (run_dotLoop (F := fun j => w a (i * n + j)) (G := w u) (fun j hj => run_read ?_)
      fun j hj => run_read ?_)]
  · rfl
  · refine (filled_num fun e => ?_).trans (ha _ (Rel.index_lt hi hj))
    rw [haout e]
    omega
  · refine (filled_num fun e => ?_).trans (hx j hj)
    have := hxout e
    omega

/-- An element after the update of rank one. -/
def rankOne (w : ι → ℕ → D) (alpha : D) (n : ℕ) (a u v : ι) (k : ℕ) : D := w a k + alpha * w u (k / n) * w v (k % n)

theorem run_vecgerLoops {alpha : D} {v : ι} (he : W.err = false) (ha : ∀ i < m * n, W.num a i = some (w a i))
    (hu : ∀ i < m, W.num u i = some (w u i)) (hv : ∀ j < n, W.num v j = some (w v j))
    (hua : u = a → n = 1) (hva : v = a → m = 1) :
    (vecgerLoops alpha m n a u v).run W = ((), W.filled a (rankOne w alpha n a u v) (m * n)) := by
  have hrow : ∀ i < m, ((do
      let au := alpha * (← read u i)
      loop n (fun j _ => do
        let x ← read a (i * n + j)
        write a (i * n + j) (x + au * (← read v j))) () : StateM (View ι D) Unit)).run
        (W.filled a (rankOne w alpha n a u v) (i * n)) =
      ((), W.filled a (rankOne w alpha n a u v) ((i + 1) * n)) := by
    intro i hi
    rw [run_bind (run_read ((filled_num fun e => by rw [hua e, Nat.mul_one]).trans (hu i hi))), Nat.succ_mul]
    refine run_loop (A := fun _ => ()) (S := fun j => W.filled a _ (i * n + j)) fun j hj => ?_
    have hlt := Rel.index_lt hi hj
    have hdiv : (i * n + j) / n = i := by
      rw [Nat.mul_comm, Nat.mul_add_div (by omega), Nat.div_eq_of_lt hj, Nat.add_zero]
    have hmod : (i * n + j) % n = j := by rw [Nat.mul_comm, Nat.mul_add_mod, Nat.mod_eq_of_lt hj]
    rw [run_bind (run_read ((filled_num fun _ => le_rfl).trans (ha _ hlt))),
      run_bind (run_read ((filled_num fun e => ?_).trans (hv j hj)))]
    · show ((), View.set _ a (i * n + j) _) = ((), W.filled a _ (i * n + j + 1))
      rw [← filled_succ, rankOne, hdiv, hmod]
    · have := hva e
      obtain rfl : i = 0 := by omega
      omega
  have h : (vecgerLoops alpha m n a u v).run (W.filled a (rankOne w alpha n a u v) (0 * n)) =
      ((), W.filled a (rankOne w alpha n a u v) (m * n)) :=
    run_loopUnless (A := fun _ => ()) (S := fun i => W.filled a (rankOne w alpha n a u v) (i * n)) (fun _ _ => he) hrow
  rwa [Nat.zero_mul, filled_zero] at h

/-- Column `j` after `i` rows. -/
def column (w : ι → ℕ → D) (a u : ι) (bias : Option ι) (n i j : ℕ) : D :=
  dotSum (w u) (fun i => w a (i * n + j)) (biasNum w j bias) i

/-- A row that is added, when it is not read from what was written. -/
theorem run_matvectRow {i : ℕ} {g : ℕ → D} {vi : D} {r : ℕ → D} (hu : (W.filled out g n).num u i = some vi)
    (ha : ∀ j < n, ∀ G : ℕ → D, ((W.filled out g n).filled out G j).num a (i * n + j) = some (r j)) :
    (matvectRow n i out a u).run (W.filled out g n) = ((), W.filled out (fun j => g j + vi * r j) n) := by
  have hfill : (W.filled out g n).filled out (fun j => g j + vi * r j) n =
      W.filled out (fun j => g j + vi * r j) n := by
    simp only [filled, Function.update_self, Function.update_idem]
    congr 2
    funext k
    by_cases hk : k < n <;> simp [hk]
  rw [matvectRow, run_bind (run_read hu), ← hfill]
  refine run_fill fun j hj => ?_
  rw [run_bind (run_read ((filled_num fun _ => le_rfl).trans (filled_self hj))), run_bind (run_read (ha j hj _))]
  rfl

theorem run_matvectbangLoops (he : W.err = false) (ha : ∀ i < m * n, W.num a i = some (w a i))
    (hu : ∀ i < m, W.num u i = some (w u i)) (hb : ∀ b, bias = some b → ∀ j < n, W.num b j = some (w b j))
    (h : (out ≠ u ∧ out ≠ a) ∨ (bias = some out ∧ m = 1)) :
    (matvectbangLoops m n out a u bias).run W = ((), W.filled out (column w a u bias n m) n) := by
  have hbias : (loop n (fun j _ => do write out j (← readBias j bias)) () : StateM (View ι D) Unit).run W =
      ((), W.filled out (fun j => biasNum w j bias) n) :=
    run_fill fun j hj => by
      rw [run_bind (run_readBias fun b hb' => (filled_num fun _ => le_rfl).trans (hb b hb' j hj))]
      rfl
  have hrow : ∀ i < m, (matvectRow n i out a u).run (W.filled out (column w a u bias n i) n) =
      ((), W.filled out (column w a u bias n (i + 1)) n) := by
    intro i hi
    obtain ⟨hout, hout'⟩ | ⟨rfl, rfl⟩ := h
    · refine run_matvectRow ?_ fun j hj G => ?_
      · exact (filled_num fun e => absurd e.symm hout).trans (hu i hi)
      · exact (filled_num fun e => absurd e.symm hout').trans <|
          (filled_num fun e => absurd e.symm hout').trans (ha _ (Rel.index_lt hi hj))
    · -- the bias is the target: nothing has changed before the only row
      obtain rfl : i = 0 := by omega
      have hsame : W.filled out (column w a u (some out) n 0) n = W := by
        have : (fun k => if k < n then some (column w a u (some out) n 0 k) else W.num out k) = W.num out := by
          funext k
          by_cases hk : k < n
          · rw [if_pos hk, hb out rfl k hk]
            rfl
          · rw [if_neg hk]
        rw [filled, this, Function.update_eq_self]
      refine run_matvectRow ?_ fun j hj G => ?_
      · rw [hsame]
        exact hu 0 hi
      · rw [hsame, filled_num fun _ => by omega]
        exact ha _ (Rel.index_lt hi hj)
  rw [matvectbangLoops, run_bind hbias]
  exact run_loopUnless (A := fun _ => ()) (S := fun i => W.filled out (column w a u bias n i) n) (fun _ _ => he) hrow

end View

/-! ## Calls -/

namespace TensorCall

/-- The target of an in-place operation on vectors. -/
def target {α : Type} : TensorCall ι α → Option ι
  | axpy y _ _ | add y _ | sub y _ | mul y _ => some y
  | scale v _ => some v
  | countLe c _ _ => some c
  | copy d _ => some d
  | matVecTo out _ _ _ | matVecTTo out _ _ _ => some out
  | ger a _ _ _ => some a
  | _ => none

/-- The row products of `mat-vec!` and `mat-vec-t!` do not read what they have written. -/
def AliasSafe {α : Type} (L : ι → ℕ) : TensorCall ι α → Prop
  | matVecTo out _ x _ => out ≠ x ∨ L out = 1
  | matVecTTo out a v bias => (out ≠ v ∧ out ≠ a) ∨ (bias = some out ∧ L v = 1)
  | _ => True

variable [Arith D]

/-- The number at an index of the target after an in-place operation, from the numbers before it. -/
def spec (L : ι → ℕ) (w : ι → ℕ → D) (c : TensorCall ι (Boxed D)) (k : ℕ) : D :=
  match c with
  | axpy y a x => w y k + scalar a * w x k
  | scale v a => w v k * scalar a
  | add y x => w y k + w x k
  | sub y x => w y k - w x k
  | mul y x => w y k * w x k
  | countLe c s lim => w c k + if Arith.le (w s k) (scalar lim) then one else zero
  | copy _ s => w s k
  | matVecTo _ a x bias => dotSum (fun j => w a (k * L x + j)) (w x) (View.biasNum w k bias) (L x)
  | matVecTTo out a v bias => View.column w a v bias (L out) (L v) k
  | ger a alpha u v => View.rankOne w (scalar alpha) (L v) a u v k
  | _ => zero

variable [DecidableEq ι] {L : ι → ℕ} {c : TensorCall ι (Boxed D)}

/-- An accepted in-place operation on numbers leaves the closed form in its target. -/
theorem loops_spec {t : ι} {w : ι → ℕ → D} {W : View ι D} (hok : c.check L = none) (ht : c.target = some t)
    (hsafe : c.AliasSafe L) (he : W.err = false)
    (hw : ∀ v ∈ c.operands, ∀ i < L v, W.num v i = some (w v i)) :
    ∃ W', (c.loops L).run W = (.vector t, W') ∧ W'.err = false ∧
      ∀ k < L t, W'.num t k = some (c.spec L w k) := by
  have hfill {q : StateM (View ι D) Unit} {g : ℕ → D} {n : ℕ} (hn : n = L t) (h : q.run W = ((), W.filled t g n))
      (hg : ∀ k < L t, g k = c.spec L w k) :
      ∃ W', (do q; return .vector t : StateM (View ι D) (Result ι D)).run W = (.vector t, W') ∧ W'.err = false ∧
        ∀ k < L t, W'.num t k = some (c.spec L w k) := by
    refine ⟨W.filled t g n, View.run_bind h, he, fun k hk => ?_⟩
    rw [View.filled_self (hn ▸ hk), hg k hk]
  have hbin {op : D → D → D} {y x : ι} (hyx : L y = L x) (hy : y ∈ c.operands) (hx : x ∈ c.operands) :
      (View.binaryLoop op (L y) y x).run W = ((), W.filled y (fun i => op (w y i) (w x i)) (L y)) :=
    View.run_binaryLoop he (hw y hy) fun i hi => hw x hx i (hyx ▸ hi)
  cases c with
  | axpy y a x =>
    cases ht
    exact hfill rfl (hbin (not_not.mp (passed (passed hok).2).1) (by simp [operands]) (by simp [operands])) fun _ _ => rfl
  | scale v a =>
    cases ht
    exact hfill rfl (View.run_unaryLoop he (hw t (by simp [operands]))) fun _ _ => rfl
  | add y x =>
    cases ht
    exact hfill rfl (hbin (not_not.mp (passed hok).1) (by simp [operands]) (by simp [operands])) fun _ _ => rfl
  | sub y x =>
    cases ht
    exact hfill rfl (hbin (not_not.mp (passed hok).1) (by simp [operands]) (by simp [operands])) fun _ _ => rfl
  | mul y x =>
    cases ht
    exact hfill rfl (hbin (not_not.mp (passed hok).1) (by simp [operands]) (by simp [operands])) fun _ _ => rfl
  | countLe y x lim =>
    cases ht
    exact hfill rfl (hbin (not_not.mp (passed (passed hok).2).1) (by simp [operands]) (by simp [operands])) fun _ _ => rfl
  | copy d s =>
    cases ht
    have hds : L t = L s := not_not.mp (passed hok).1
    by_cases h : t = s
    · subst h
      simp only [loops, if_pos]
      exact ⟨W, rfl, he, hw t (by simp [operands])⟩
    · simp only [loops, if_neg h]
      refine hfill rfl (View.run_copyLoop h fun i hi => hw s (by simp [operands]) i (hds ▸ hi)) fun _ _ => rfl
  | matVecTo out a x bias =>
    cases ht
    obtain ⟨hx, hm, ha, hb⟩ : L x ≠ 0 ∧ L t ≠ 0 ∧ L a = L t * L x ∧ ¬ misfit L (L t) bias = true := by
      simpa [check] using hok
    refine hfill rfl (View.run_matvecbangLoops (w := w) he (fun i hi => hw a (by simp [operands]) i (ha ▸ hi))
      (hw x (by simp [operands])) (fun b hb' i hi => ?_) (fun e => ?_) fun e => ?_) fun _ _ => rfl
    · subst hb'
      exact hw b (by simp [operands]) i (Rel.length_of_fits hb ▸ hi)
    · subst e
      exact Nat.eq_of_mul_eq_mul_left (Nat.pos_of_ne_zero hm) (by omega)
    · exact hsafe.resolve_left fun h => h e.symm
  | matVecTTo out a v bias =>
    cases ht
    obtain ⟨hm, hn, ha, hb⟩ : L v ≠ 0 ∧ L t ≠ 0 ∧ L a = L v * L t ∧ ¬ misfit L (L t) bias = true := by
      simpa [check] using hok
    refine hfill rfl (View.run_matvectbangLoops (w := w) he (fun i hi => hw a (by simp [operands]) i (ha ▸ hi))
      (hw v (by simp [operands])) (fun b hb' i hi => ?_) hsafe) fun _ _ => rfl
    subst hb'
    exact hw b (by simp [operands]) i (Rel.length_of_fits hb ▸ hi)
  | ger a alpha u v =>
    cases ht
    obtain ⟨hm, hn, ha⟩ : L u ≠ 0 ∧ L v ≠ 0 ∧ L t = L u * L v := by simpa using (passed (passed hok).2).1
    refine hfill ha.symm (View.run_vecgerLoops (w := w) he (fun i hi => hw t (by simp [operands]) i (ha ▸ hi))
      (hw u (by simp [operands])) (hw v (by simp [operands])) (fun e => ?_) fun e => ?_) fun _ _ => rfl
    · subst e
      exact Nat.eq_of_mul_eq_mul_left (Nat.pos_of_ne_zero hm) (by omega)
    · subst e
      exact Nat.eq_of_mul_eq_mul_right (Nat.pos_of_ne_zero hn) (by omega)
  | _ => cases ht

end TensorCall

end Alcove.Vector
