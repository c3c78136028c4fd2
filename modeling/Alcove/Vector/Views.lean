import Alcove.Vector.Tensor
import Mathlib.Tactic.SplitIfs

/-!
# The numbers of vectors

A `View` has for each vector the number at each index, if the element is one, and the flag. It knows nothing of
kinds, windows and cells, and on it each builtin is one loop. Whatever the kinds are, the loop of the source
that runs refines that one, as long as no raw double is stored over a pointer (`TensorCall.refines`).
-/

namespace Alcove.Vector

open Lib

/-- The numbers at the indices of vectors, and the flag. -/
structure View (ι D : Type) where
  num : ι → ℕ → Option D
  err : Bool

variable {ι D : Type} [Arith D]

namespace View

/-- An element; one that is no number raises the flag. -/
def read (v : ι) (i : ℕ) : StateM (View ι D) D := fun W =>
  ((W.num v i).getD zero, { W with err := W.err || (W.num v i).isNone })

def failed : StateM (View ι D) Bool := fun W => (W.err, W)

/-- The end of a builtin. -/
def finish (r : Result ι D) : StateM (View ι D) (Outcome ι D) := do
  if ← failed then return .error .nonNumeric else return .ok r

variable [DecidableEq ι]

/-- An index of a vector that gets a number, or none. -/
def set (W : View ι D) (v : ι) (i : ℕ) (x : Option D) : View ι D :=
  { W with num := Function.update W.num v (Function.update (W.num v) i x) }

def write (v : ι) (i : ℕ) (x : D) : StateM (View ι D) Unit := fun W => ((), W.set v i (some x))

/-- An element of `s` that is copied to `d`, number or not. -/
def copyAt (d s : ι) (i : ℕ) : StateM (View ι D) Unit := fun W => ((), W.set d i (W.num s i))

/-! ## The loops -/

/-- The sum of `f i * g i` from `s` on. -/
def dotLoop (n : ℕ) (f g : ℕ → StateM (View ι D) D) (s : D) : StateM (View ι D) D :=
  loop n (fun i s => do return s + (← f i) * (← g i)) s

/-- `y[i] = op(y[i], x[i])` -/
def binaryLoop (op : D → D → D) (n : ℕ) (y x : ι) : StateM (View ι D) Unit :=
  loopUnless failed n (fun i _ => do
    let yv ← read y i
    let xv ← read x i
    if ← failed then return () else write y i (op yv xv)) ()

/-- `v[i] = f(v[i])` -/
def unaryLoop (f : D → D) (n : ℕ) (v : ι) : StateM (View ι D) Unit :=
  loopUnless failed n (fun i _ => do
    let x ← read v i
    if ← failed then return () else write v i (f x)) ()

def sumLoop (n : ℕ) (v : ι) : StateM (View ι D) D :=
  loopUnless failed n (fun i s => do return s + (← read v i)) zero

def argmaxLoop (n : ℕ) (v : ι) : StateM (View ι D) (ℤ × D) :=
  loopUnless failed n (fun i best => do
    let x ← read v i
    if ← failed then return best else return Kernel.better i x best) (-1, zero)

def copyLoop (n : ℕ) (d s : ι) : StateM (View ι D) Unit := loop n (fun i _ => copyAt d s i) ()

def softmaxLoops (n : ℕ) (v : ι) : StateM (View ι D) Unit := do
  let m ← loopUnless failed (n - 1) (fun i m => do
    let x ← read v (i + 1)
    return if Arith.lt m x then x else m) (← read v 0)
  let s ← loopUnless failed n (fun i s => do
    let x := Arith.exp ((← read v i) - m)
    write v i x
    return s + x) zero
  let inv := if Arith.lt zero s then one / s else zero
  loopUnless failed n (fun i _ => do write v i ((← read v i) * inv)) ()

def matvecLoops (m n : ℕ) (a x : ι) : StateM (View ι D) (List D) :=
  loopUnless failed m (fun i y => do
    let s ← dotLoop n (fun j => read a (i * n + j)) (read x) zero
    return y.set i s) (List.replicate m zero)

/-- The bias of a row. -/
def readBias (i : ℕ) : Option ι → StateM (View ι D) D
  | none => return zero
  | some b => read b i

def matvecbangLoops (m n : ℕ) (out a x : ι) (bias : Option ι) : StateM (View ι D) Unit :=
  loopUnless failed m (fun i _ => do
    let s ← dotLoop n (fun j => read a (i * n + j)) (read x) (← readBias i bias)
    write out i s) ()

/-- Row `i` of the transposed product. -/
def matvectRow (n i : ℕ) (out a v : ι) : StateM (View ι D) Unit := do
  let vi ← read v i
  loop n (fun j _ => do write out j ((← read out j) + vi * (← read a (i * n + j)))) ()

def matvectbangLoops (m n : ℕ) (out a v : ι) (bias : Option ι) : StateM (View ι D) Unit := do
  loop n (fun j _ => do write out j (← readBias j bias)) ()
  loopUnless failed m (fun i _ => matvectRow n i out a v) ()

def vecgerLoops (alpha : D) (m n : ℕ) (a u v : ι) : StateM (View ι D) Unit :=
  loopUnless failed m (fun i _ => do
    let au := alpha * (← read u i)
    loop n (fun j _ => do
      let x ← read a (i * n + j)
      write a (i * n + j) (x + au * (← read v j))) ()) ()

def matmulLoops (m k n : ℕ) (a b : ι) : StateM (View ι D) (List D) :=
  loopUnless failed m (fun i c => loopUnless failed k (fun p c => do
    let aip ← read a (i * k + p)
    loopUnless failed n (fun j c => do
      let y ← read b (p * n + j)
      return c.modify (i * n + j) (· + aip * y)) c) c) (List.replicate (m * n) zero)

end View

/-! ## Calls -/

namespace TensorCall

/-- `has_bias && vec_len(bexp) != m` -/
def misfit (L : ι → ℕ) (m : ℕ) : Option ι → Bool
  | none => false
  | some b => L b ≠ m

/-- The checks of a call on vectors of the lengths `L`. -/
def check (L : ι → ℕ) : TensorCall ι (Boxed D) → Option TensorError
  | dot a b => if L a ≠ L b then some .shape else none
  | sum _ | argmax _ | relu _ | softmax _ => none
  | axpy y a x => if a.toDouble = none then some .badArgs else if L y ≠ L x then some .shape else none
  | scale _ a => if a.toDouble = none then some .badArgs else none
  | add y x | sub y x | mul y x | copy y x => if L y ≠ L x then some .shape else none
  | countLe c s lim => if lim.toDouble = none then some .badArgs else if L c ≠ L s then some .shape else none
  | matVec a x => if L x = 0 ∨ L a % L x ≠ 0 then some .shape else none
  | matVecTo out a x bias =>
    if L x = 0 ∨ L out = 0 ∨ L a ≠ L out * L x ∨ misfit L (L out) bias then some .shape else none
  | matVecTTo out a v bias =>
    if L v = 0 ∨ L out = 0 ∨ L a ≠ L v * L out ∨ misfit L (L out) bias then some .shape else none
  | ger a alpha u v =>
    if alpha.toDouble = none then some .badArgs
    else if L u = 0 ∨ L v = 0 ∨ L a ≠ L u * L v then some .shape else none
  | matMul a b (.fix k) =>
    if k.1 ≤ 0 ∨ L a % k.1.toNat ≠ 0 ∨ L b % k.1.toNat ≠ 0 then some .shape
    else if capLimit ≤ L a / k.1.toNat * (L b / k.1.toNat) then some .tooLarge else none
  | matMul _ _ _ => some .badArgs

/-- The scalar of an accepted call. -/
def scalar (a : Boxed D) : D := a.toDouble.getD zero

/-- The inner dimension of a product. -/
def innerDim : Boxed D → ℕ
  | .fix k => k.1.toNat
  | _ => 0

variable [DecidableEq ι]

open View

/-- The loops of an accepted call on vectors of the lengths `L`. -/
def loops (L : ι → ℕ) : TensorCall ι (Boxed D) → StateM (View ι D) (Result ι D)
  | dot a b => do return .float (← dotLoop (L a) (read a) (read b) zero)
  | sum v => do return .float (← sumLoop (L v) v)
  | argmax v => do return .index (← argmaxLoop (L v) v).1
  | axpy y a x => do
    binaryLoop (fun yv xv => yv + scalar a * xv) (L y) y x
    return .vector y
  | scale v a => do
    unaryLoop (· * scalar a) (L v) v
    return .vector v
  | add y x => do
    binaryLoop (· + ·) (L y) y x
    return .vector y
  | sub y x => do
    binaryLoop (· - ·) (L y) y x
    return .vector y
  | mul y x => do
    binaryLoop (· * ·) (L y) y x
    return .vector y
  | countLe c s lim => do
    binaryLoop (fun cv sv => cv + if Arith.le sv (scalar lim) then one else zero) (L c) c s
    return .vector c
  | copy d s => do
    if d = s then return .vector d
    else do
      copyLoop (L d) d s
      return .vector d
  | relu v => do
    unaryLoop (fun x => if Arith.lt x zero then zero else x) (L v) v
    return .vector v
  | softmax v => do
    if L v = 0 then return .vector v
    else do
      softmaxLoops (L v) v
      return .vector v
  | matVec a x => do return .fresh (← matvecLoops (L a / L x) (L x) a x)
  | matVecTo out a x bias => do
    matvecbangLoops (L out) (L x) out a x bias
    return .vector out
  | matVecTTo out a v bias => do
    matvectbangLoops (L v) (L out) out a v bias
    return .vector out
  | ger a alpha u v => do
    vecgerLoops (scalar alpha) (L u) (L v) a u v
    return .vector a
  | matMul a b k => do return .fresh (← matmulLoops (L a / innerDim k) (innerDim k) (L b / innerDim k) a b)

/-- A call on the numbers of vectors of the lengths `L`. -/
def eval (L : ι → ℕ) (c : TensorCall ι (Boxed D)) : StateM (View ι D) (Outcome ι D) :=
  match c.check L with
  | some e => return .error e
  | none => do finish (← c.loops L)

end TensorCall

/-! ## The vectors that have these numbers -/

/-- The number in a cell of a vector, if it is one; `none` for a cell of another kind. -/
def Cell.num : Kind → Cell D → Option (Option D)
  | .i64, .int n => some (some (Doubles.ofInt n))
  | .f64, .double x => some (some x)
  | .gen, .box e => some e.toDouble
  | _, _ => none

/-- Vectors of the kinds `κ` and the lengths `L` that hold these numbers. If `clean`, the flag is down. -/
structure Rel (L : ι → ℕ) (κ : ι → Kind) (clean : Prop) (σ : Mem ι D) (W : View ι D) : Prop where
  err : σ.err = W.err
  kind : ∀ v, (σ.vec v).kind = κ v
  len : ∀ v, (σ.vec v).len = L v
  cell : ∀ v, ∀ i < L v, ∃ c, (σ.vec v).cells[(σ.vec v).start + i]? = some c ∧ c.num (κ v) = some (W.num v i)
  clean : clean → W.err = false

namespace Rel

variable {L : ι → ℕ} {κ : ι → Kind} {c : Prop} {S : Mem ι D → View ι D → Prop} {α β : Type} {v : ι} {i : ℕ}

theorem run_len (v : ι) (σ : Mem ι D) (W : View ι D) (h : Rel L κ c σ W) :
    ∃ σ', (Kernel.len v).run σ = some (L v, σ') ∧ Rel L κ c σ' W :=
  ⟨σ, by rw [← h.len v]; rfl, h⟩

theorem bind_len {f : ℕ → Kernel ι D β} {q : StateM (View ι D) β} (h : Refines (Rel L κ c) S (f (L v)) q) :
    Refines (Rel L κ c) S (Kernel.len v >>= f) q :=
  .bind_left _ (run_len v) h

theorem run_kindOf (v : ι) (σ : Mem ι D) (W : View ι D) (h : Rel L κ c σ W) :
    ∃ σ', (Kernel.kind v).run σ = some (κ v, σ') ∧ Rel L κ c σ' W :=
  ⟨σ, by rw [← h.kind v]; rfl, h⟩

theorem bind_kind {f : Kind → Kernel ι D β} {q : StateM (View ι D) β} (h : Refines (Rel L κ c) S (f (κ v)) q) :
    Refines (Rel L κ c) S (Kernel.kind v >>= f) q :=
  .bind_left _ (run_kindOf v) h

theorem weaken {p : Kernel ι D α} {q : StateM (View ι D) α} (h : Refines (Rel L κ False) S p q) :
    Refines (Rel L κ c) S p q :=
  h.mono (fun _ _ h => { h with clean := False.elim }) fun _ _ h => h

theorem failed : Refines (Rel L κ c) (Rel L κ c) (Kernel.failed : Kernel ι D Bool) View.failed :=
  fun σ W h => ⟨σ, by rw [← show σ.err = (View.failed.run W).1 from h.err]; rfl, h⟩

theorem finish (r : Result ι D) :
    Refines (Rel L κ c) (Rel L κ c) (Kernel.finish r) (View.finish r) := by
  refine failed.bind fun b => ?_
  cases b <;> exact .pure _

omit [Arith D] in
theorem run_failed {W : View ι D} {b : Bool} (h : W.err = b) (g : Bool → StateM (View ι D) β) :
    (View.failed >>= g).run W = (g b).run W := by
  subst h
  rfl

omit [Arith D] in
theorem run_failed' {σ : Mem ι D} {b : Bool} (h : σ.err = b) (g : Bool → Kernel ι D β) :
    (Kernel.failed >>= g).run σ = (g b).run σ := by
  subst h
  rfl

omit [Arith D] in
theorem run_kind {σ : Mem ι D} {f : Kind → Kernel ι D β} :
    (Kernel.kind v >>= f).run σ = (f (σ.vec v).kind).run σ := rfl

/-- With the flag down, a check of it changes nothing. -/
theorem skip_failed {p : Kernel ι D β} {g : Bool → StateM (View ι D) β}
    (h : Refines (Rel L κ True) S p (g false)) : Refines (Rel L κ True) S p (View.failed >>= g) := by
  intro σ W hR
  obtain ⟨σ', hp, hS⟩ := h σ W hR
  have e := run_failed (hR.clean trivial) g
  exact ⟨σ', by rw [e]; exact hp, by rw [e]; exact hS⟩

/-- A loop that does not look at the flag, against one that does. -/
theorem loop_clean {n : ℕ} {body : ℕ → α → Kernel ι D α} {body' : ℕ → α → StateM (View ι D) α}
    (h : ∀ i < n, ∀ a, Refines (Rel L κ True) (Rel L κ True) (body i a) (body' i a)) (a : α) :
    Refines (Rel L κ True) (Rel L κ True) (loop n body a) (loopUnless View.failed n body' a) :=
  .loop (fun i hi a => skip_failed (h i hi a)) a

/-! ## Reading -/

theorem read {f : Cell D → Kernel ι D D} (hi : i < L v)
    (h : ∀ e o, e.num (κ v) = some o → (c → o.isSome) ∧
      ∀ σ, (f e).run σ = some (o.getD zero, { σ with err := σ.err || o.isNone })) :
    Refines (Rel L κ c) (Rel L κ c) (Kernel.cell v i >>= f) (View.read v i) := by
  intro σ W hR
  obtain ⟨e, he, hn⟩ := hR.cell v i hi
  obtain ⟨hc, hf⟩ := h e _ hn
  have hcell : (Kernel.cell v i).run σ = some (e, σ) := by
    show Option.map _ _ = _
    rw [he]
    rfl
  refine ⟨{ σ with err := σ.err || (W.num v i).isNone }, ?_, ?_, hR.kind, hR.len, hR.cell, ?_⟩
  · rw [StateT.run_bind, hcell]
    exact hf σ
  · show _ = (W.err || _)
    rw [hR.err]
  · intro hclean
    obtain ⟨x, hx⟩ := Option.isSome_iff_exists.mp (hc hclean)
    show (W.err || _) = false
    simp [hR.clean hclean, hx]

theorem double (hk : κ v = .f64) (hi : i < L v) :
    Refines (Rel L κ c) (Rel L κ c) (Kernel.double v i : Kernel ι D D) (View.read v i) := by
  refine read hi fun e o he => ?_
  rw [hk] at he
  cases e with
  | double x =>
    obtain rfl : some x = o := Option.some.inj he
    exact ⟨fun _ => rfl, fun σ => by rw [Option.isNone_some, Bool.or_false]; rfl⟩
  | int n => cases he
  | box e => cases he

theorem intDouble (hk : κ v = .i64) (hi : i < L v) :
    Refines (Rel L κ c) (Rel L κ c) (Kernel.intDouble v i : Kernel ι D D) (View.read v i) := by
  rw [Kernel.intDouble, Kernel.int, bind_assoc]
  refine read hi fun e o he => ?_
  rw [hk] at he
  cases e with
  | int n =>
    obtain rfl : some (Doubles.ofInt n) = o := Option.some.inj he
    exact ⟨fun _ => rfl, fun σ => by rw [Option.isNone_some, Bool.or_false]; rfl⟩
  | double x => cases he
  | box e => cases he

theorem genDouble (hk : κ v = .gen) (hi : i < L v) :
    Refines (Rel L κ False) (Rel L κ False) (Kernel.genDouble v i : Kernel ι D D) (View.read v i) := by
  refine read hi fun e o he => ⟨False.elim, fun σ => ?_⟩
  rw [hk] at he
  cases e with
  | int n => cases he
  | double x => cases he
  | box e =>
    obtain rfl : e.toDouble = o := Option.some.inj he
    cases e with
    | fix n =>
      rw [Boxed.toDouble, Option.isNone_some, Bool.or_false]
      rfl
    | float x =>
      rw [Boxed.toDouble, Option.isNone_some, Bool.or_false]
      rfl
    | other =>
      rw [Boxed.toDouble, Option.isNone_none, Bool.or_true]
      rfl

theorem readDouble (hi : i < L v) :
    Refines (Rel L κ False) (Rel L κ False) (Kernel.readDouble v i : Kernel ι D D) (View.read v i) := by
  refine bind_kind ?_
  split <;> rename_i hk
  · exact double hk hi
  · exact intDouble hk hi
  · exact genDouble hk hi

/-! ## Writing -/

variable [DecidableEq ι] {x : D}

/-- A cell that is overwritten by one of the kind of its vector. -/
theorem put_cell {σ : Mem ι D} {W : View ι D} (hR : Rel L κ c σ W) (hi : i < L v) {e : Cell D} {o : Option D}
    (he : e.num (κ v) = some o) :
    ∃ σ', (Kernel.put v i e).run σ = some ((), σ') ∧ Rel L κ c σ' (W.set v i o) := by
  obtain ⟨e₀, h₀, -⟩ := hR.cell v i hi
  have hlt := (List.getElem?_eq_some_iff.mp h₀).1
  refine ⟨_, if_pos hlt, hR.err, fun w => ?_, fun w => ?_, fun w k hk => ?_, hR.clean⟩
  · obtain rfl | hw := eq_or_ne w v
    · simp [hR.kind w]
    · simp [hw, hR.kind w]
  · obtain rfl | hw := eq_or_ne w v
    · simp [hR.len w]
    · simp [hw, hR.len w]
  · simp only [View.set]
    obtain rfl | hw := eq_or_ne w v
    · simp only [Function.update_self]
      obtain rfl | hki := eq_or_ne k i
      · exact ⟨e, by simp [hlt], by rw [Function.update_self, he]⟩
      · rw [Function.update_of_ne hki, List.getElem?_set_ne (by omega)]
        exact hR.cell w k hk
    · simp only [Function.update_of_ne hw]
      exact hR.cell w k hk

theorem put {e : Cell D} (hi : i < L v) (he : e.num (κ v) = some (some x)) :
    Refines (Rel L κ c) (Rel L κ c) (Kernel.put v i e) (View.write v i x) :=
  fun _ _ hR => hR.put_cell hi he

theorem setDouble (hk : κ v = .f64) (hi : i < L v) :
    Refines (Rel L κ c) (Rel L κ c) (Kernel.setDouble v i x) (View.write v i x) := by
  refine bind_kind ?_
  rw [hk]
  exact put hi (by rw [hk]; rfl)

theorem writeDouble (hk : κ v ≠ .i64) (hi : i < L v) :
    Refines (Rel L κ c) (Rel L κ c) (Kernel.writeDouble v i x) (View.write v i x) := by
  refine bind_kind ?_
  split <;> rename_i h
  · exact put hi (by rw [h]; rfl)
  · exact absurd h hk
  · exact put hi (by rw [h]; rfl)

/-- The kinds after `VEC_REQUIRE_FLOAT_WRITABLE`. -/
def promoted (κ : ι → Kind) (v : ι) : ι → Kind := if κ v = .i64 then Function.update κ v .f64 else κ

theorem promoted_ne_i64 : promoted κ v v ≠ .i64 := by
  unfold promoted
  split
  · simp
  · assumption

theorem promoted_f64 (h : κ v ≠ .gen) : promoted κ v v = .f64 := by
  cases hk : κ v <;> simp_all [promoted]

/-- The integer of a cell. -/
def intOf (e : Cell D) : ℤ := e.asInt.getD 0

omit [Arith D] in
/-- The window of a vector, cell by cell. -/
theorem window_getElem? {t : Tensor D} (hi : i < t.len) : t.window[i]? = t.cells[t.start + i]? := by
  simp [Tensor.window, hi]

theorem mapM_some {f : α → Option β} {g : α → β} {l : List α} (h : ∀ a ∈ l, f a = some (g a)) :
    l.mapM f = some (l.map g) := by
  induction l with
  | nil => rfl
  | cons a l ih => simp [h a, ih fun b hb => h b (by simp [hb])]

omit [Arith D] in
theorem store_getElem? {t : Tensor D} {k : Kind} {e : Cell D} {ws : List (Cell D)} (hi : i < ws.length) :
    (t.store k e ws).cells[t.start + i]? = ws[i]? := by
  rw [Tensor.store, List.append_assoc, List.getElem?_append_right (by simp), List.getElem?_append_left (by simp [hi])]
  simp

/-- The storage of a vector that is replaced, with the same numbers. -/
theorem replace {σ : Mem ι D} {W : View ι D} (hR : Rel L κ c σ W) {k : Kind} {e : Cell D} {f : Cell D → Cell D}
    (hf : ∀ e o, e.num (κ v) = some o → (f e).num k = some o) :
    Rel L (Function.update κ v k) c
      { σ with vec := Function.update σ.vec v ((σ.vec v).store k e ((σ.vec v).window.map f)) } W := by
  refine ⟨hR.err, fun w => ?_, fun w => ?_, fun w i hi => ?_, hR.clean⟩
  · obtain rfl | hw := eq_or_ne w v
    · simp [Tensor.store]
    · simp [hw, hR.kind w]
  · obtain rfl | hw := eq_or_ne w v
    · simp [Tensor.store, hR.len w]
    · simp [hw, hR.len w]
  · obtain ⟨e₀, h₀, hn⟩ := hR.cell w i hi
    obtain rfl | hw := eq_or_ne w v
    · simp only [Function.update_self]
      have hw := window_getElem? (show i < (σ.vec w).len by rw [hR.len]; exact hi)
      rw [h₀] at hw
      have hlt : i < ((σ.vec w).window.map f).length := by
        simpa using (List.getElem?_eq_some_iff.mp hw).1
      refine ⟨f e₀, ?_, hf _ _ hn⟩
      rw [show (Tensor.store _ k e _).start = (σ.vec w).start from rfl, store_getElem? hlt, List.getElem?_map, hw]
      rfl
    · simp only [Function.update_of_ne hw]
      exact ⟨e₀, h₀, hn⟩

omit [DecidableEq ι] in
theorem promoteI64ToF64_eq {σ : Mem ι D} {W : View ι D} (hR : Rel L κ c σ W) (hk : κ v = .i64) :
    (σ.vec v).promoteI64ToF64 = some ((σ.vec v).store .f64 (.double zero)
      ((σ.vec v).window.map fun e => .double (Doubles.ofInt (intOf e)))) := by
  have hint : ∀ e ∈ (σ.vec v).window, e.asInt = some (intOf e) := by
    intro e he
    obtain ⟨i, hi, rfl⟩ := List.getElem_of_mem he
    have hw : i < (σ.vec v).len := by
      simp only [Tensor.window, List.length_take] at hi
      omega
    obtain ⟨e, h₀, hn⟩ := hR.cell v i (by rw [← hR.len]; exact hw)
    rw [← window_getElem? hw, List.getElem?_eq_getElem hi] at h₀
    rw [Option.some.inj h₀]
    rw [hk] at hn
    cases e with
    | int n => rfl
    | double x => cases hn
    | box e => cases hn
  rw [Tensor.promoteI64ToF64, mapM_some hint]
  simp [Function.comp_def]

theorem run_requireFloatWritable (v : ι) (σ : Mem ι D) (W : View ι D) (hR : Rel L κ c σ W) :
    ∃ σ', (Kernel.requireFloatWritable v).run σ = some ((), σ') ∧ Rel L (promoted κ v) c σ' W := by
  simp only [Kernel.requireFloatWritable, promoted, StateT.run, hR.kind]
  split
  case isFalse => exact ⟨σ, rfl, hR⟩
  case isTrue hk =>
    rw [hR.promoteI64ToF64_eq hk]
    refine ⟨_, rfl, hR.replace fun e o he => ?_⟩
    rw [hk] at he
    cases e with
    | int n => exact he
    | double x => cases he
    | box e => cases he

theorem requireFloatWritable {p : Kernel ι D α} {q : StateM (View ι D) α}
    (h : Refines (Rel L (promoted κ v) c) S p q) :
    Refines (Rel L κ c) S (Kernel.requireFloatWritable v >>= fun _ => p) q :=
  .bind_left () (run_requireFloatWritable v) h

end Rel

end Alcove.Vector
