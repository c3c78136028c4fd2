import Alcove.Objects.Hooks

/-!
# The mutating builtins

The builtins that change a hash-map, a deque, a vector or a set, on evaluated operands, and the opcode
`l_vec_set` that compiled code uses for `vec-set!`. Each calls the hooks by itself, in a place and in a
form of its own.

Storage that does not suffice is left out: a vector always grows.
-/

namespace Alcove.Objects

open Json

namespace World

variable (w : World)

def isError (p : Ptr) : Bool := (w.errorOf p).isSome

/-- `isdict`, with the place of the hash-map. -/
def dictOf (p : Ptr) : Option ℕ :=
  match p, w.look p with
  | .ref i, some (.dict _) => some i
  | _, _ => none

/-- `islist`, with the place of the deque. -/
def dequeOf (p : Ptr) : Option ℕ :=
  match p, w.look p with
  | .ref i, some (.deque _) => some i
  | _, _ => none

/-- `isset`, with the place of the set. -/
def setOf (p : Ptr) : Option ℕ :=
  match p, w.look p with
  | .ref i, some (.set _) => some i
  | _, _ => none

/-- The table of the hash-map or the set at a place. -/
def tableAt (i : ℕ) : Dict Ptr :=
  match w.objAt i with
  | some (.dict d) => d
  | some (.set d) => d
  | _ => Dict.create

/-- The values of the deque at a place. -/
def dequeAt (i : ℕ) : List Ptr :=
  match w.objAt i with
  | some (.deque vals) => vals
  | _ => []

/-- The cells of the vector at a place. -/
def cellsAt (i : ℕ) : Cells :=
  match w.objAt i with
  | some (.vector cells _) => cells
  | _ => .gen []

/-- `FLAG_SHARED` of the vector at a place. -/
def sharedAt (i : ℕ) : Bool :=
  match w.objAt i with
  | some (.vector _ shared) => shared
  | _ => false

/-- `alc_key_to_cstr` -/
def keyToCstr (p : Ptr) : Option CStr :=
  match w.scalar p with
  | .symbol text => some text
  | .string text => some text
  | .fix n => some (.ofBytes (formatInt n.1))
  | .type id => some (.ofBytes (0x01 :: formatNat id.toNat))
  | _ => none

/-- The object of a scalar that lives on the heap. -/
def objectOf : Exp → Option Object
  | .float bits => some (.float bits)
  | .rational num den => some (.rational num den)
  | .decimal coef scale => some (.decimal coef scale)
  | .string text => some (.string text)
  | .symbol text => some (.symbol text)
  | .blob bytes => some (.blob bytes)
  | _ => none

/-- The copy `set_value_clone` makes: a new object, or the value itself. -/
def clone (p : Ptr) : Option (Ptr × World) :=
  (setValueClone (w.scalar p)).map fun v =>
    match objectOf v, v with
    | some o, _ => w.alloc o
    | none, .nil => (.nil, w)
    | none, _ => (p, w)

end World

/-- `(int64_t)f` of a float that is no NaN; none where the conversion is undefined. -/
def floatToInt64 (bits : UInt64) : Option ℤ :=
  let e := bits.toNat / 2 ^ 52 % 2048
  let m := bits.toNat % 2 ^ 52 + 2 ^ 52
  let v : ℕ := if e < 1023 then 0 else if 1075 ≤ e then m * 2 ^ (e - 1075) else m / 2 ^ (1075 - e)
  if e = 2047 then none
  else Lib.checked 64 (if bits.toNat < 2 ^ 63 then (v : ℤ) else -v)

/-- The index of a vector operation: `isnumber` or `isfloat`, and its integer part. -/
def indexOf (w : World) (p : Ptr) : Option (Option ℤ) :=
  match p, w.look p with
  | .fix n, _ => some (some n.1)
  | _, some (.float bits) => some (if Hamt.isNaN bits then some (-1) else floatToInt64 bits)
  | _, _ => none

/-- An index of the vector at a place, if it is in range. -/
def inRange (w : World) (i : ℕ) (idx : ℤ) : Option ℕ :=
  if 0 ≤ idx ∧ idx < (w.cellsAt i).length then some idx.toNat else none

/-- The end of a deque. -/
inductive Side
  | left
  | right
  deriving DecidableEq

namespace Side

/-- The values with one more at the end. -/
def push : Side → Ptr → List Ptr → List Ptr
  | left, v, vals => v :: vals
  | right, v, vals => vals ++ [v]

/-- The value at the end. -/
def peek : Side → List Ptr → Option Ptr
  | left, vals => vals.head?
  | right, vals => vals.getLast?

/-- The values without the one at the end. -/
def pop : Side → List Ptr → List Ptr
  | left, vals => vals.tail
  | right, vals => vals.dropLast

def pushOp : Side → Op
  | left => .pushLeft
  | right => .pushRight

def popOp : Side → Op
  | left => .popLeft
  | right => .popRight

/-- The cells with one more at the end, where `vec_set_boxed` may change the kind first. -/
def pushCells (s : Side) (w : World) (cells : Cells) (val : Ptr) : Cells × World :=
  match cells, val, w.doubleOf val with
  | .gen cells, _, _ => (.gen (s.push val cells), w)
  | .i64 cells, .fix n, _ => (.i64 (pushed n.1 cells), w)
  | .f64 cells, _, some d => (.f64 (pushed d cells), w)
  | cells, _, _ =>
    let (ps, w) := w.promoteToGen cells
    (.gen (s.push val ps), w)
where
  pushed {α : Type} (x : α) (xs : List α) : List α :=
    match s with
    | left => x :: xs
    | right => xs ++ [x]

/-- The cells without the one at the end. -/
def popCells (s : Side) : Cells → Cells
  | .gen cells => .gen (popped cells)
  | .i64 cells => .i64 (popped cells)
  | .f64 cells => .f64 (popped cells)
where
  popped {α : Type} (xs : List α) : List α :=
    match s with
    | left => xs.tail
    | right => xs.dropLast

/-- The index of the cell at the end. -/
def index (s : Side) (cells : Cells) : ℕ :=
  match s with
  | left => 0
  | right => cells.length - 1

end Side

theorem Side.grows_pushCells (s : Side) (w : World) (cells : Cells) (val : Ptr) :
    w.Grows (s.pushCells w cells val).2 := by
  unfold pushCells
  split
  · exact .refl w
  · exact .refl w
  · exact .refl w
  · exact World.grows_promoteToGen w _

theorem World.grows_clone {w w' : World} {p stored : Ptr} (h : w.clone p = some (stored, w')) :
    w.Grows w' := by
  obtain ⟨v, -, hv⟩ := Option.map_eq_some_iff.mp h
  split at hv
  · cases hv
    exact grows_alloc w _
  · cases hv
    exact .refl w
  · cases hv
    exact .refl w

variable (call : Callback)

/-! ## Hash-maps -/

/-- `assocbangcmd` -/
def assocBang (d k v : Ptr) (w : World) : Option Run :=
  if w.isError d then done (.ptr d) w
  else match w.dictOf d with
    | none => done (.raise .illegalValue) w
    | some i =>
      if w.isError k then done (.ptr k) w
      else if w.isError v then done (.ptr v) w
      else match w.keyToCstr k with
        | none => done (.raise .illegalValue) w
        | some ks =>
          if w.watched i then validating call i .assoc k v (assoc i ks) w
          else writing i (.dict ((w.tableAt i).set ks v)) (done (.ptr d)) w
where
  assoc (i : ℕ) (ks : CStr) (w : World) : Option Run :=
    let old := ((w.tableAt i).find ks).getD .null
    writing i (.dict ((w.tableAt i).set ks v)) (notifying call i .assoc k old v (.ptr d)) w

/-- `dissocbangcmd` -/
def dissocBang (d k : Ptr) (w : World) : Option Run :=
  if w.isError d then done (.ptr d) w
  else match w.dictOf d with
    | none => done (.raise .illegalValue) w
    | some i =>
      if w.isError k then done (.ptr k) w
      else match w.keyToCstr k with
        | none => done (.ptr d) w
        | some ks =>
          if w.watched i then validating call i .dissoc k .null (dissoc i ks) w
          else writing i (.dict ((w.tableAt i).erase ks).1) (done (.ptr d)) w
where
  dissoc (i : ℕ) (ks : CStr) (w : World) : Option Run :=
    let old := ((w.tableAt i).find ks).getD .null
    writing i (.dict ((w.tableAt i).erase ks).1) (notifying call i .dissoc k old .null (.ptr d)) w

/-! ## Deques -/

/-- `DEQUE_PUSH_CMD` -/
def dequePush (s : Side) (d v : Ptr) (w : World) : Option Run :=
  if w.isError d then done (.ptr d) w
  else match w.dequeOf d with
    | none => done (.raise .illegalValue) w
    | some i =>
      if w.isError v then done (.ptr v) w
      else if w.watched i then validating call i s.pushOp .null v (push i) w
      else push i w
where
  push (i : ℕ) (w : World) : Option Run :=
    writing i (.deque (s.push v (w.dequeAt i))) (fun w =>
      if w.watched i then notifying call i s.pushOp .null .null v (.ptr d) w
      else done (.ptr d) w) w

/-- `DEQUE_POP_CMD` -/
def dequePop (s : Side) (d : Ptr) (w : World) : Option Run :=
  if w.isError d then done (.ptr d) w
  else match w.dequeOf d with
    | none => done (.raise .illegalValue) w
    | some i =>
      if w.watched i ∧ w.dequeAt i ≠ [] then validating call i s.popOp .null .null (pop i) w
      else pop i w
where
  pop (i : ℕ) (w : World) : Option Run :=
    match s.peek (w.dequeAt i) with
    | none => notify i .nil w
    | some ret => writing i (.deque (s.pop (w.dequeAt i))) (notify i ret) w
  notify (i : ℕ) (ret : Ptr) (w : World) : Option Run :=
    if w.watched i then notifying call i s.popOp .null ret .null (.ptr ret) w
    else done (.ptr ret) w

def pushRightBang := dequePush call .right

def pushLeftBang := dequePush call .left

def popRightBang := dequePop call .right

def popLeftBang := dequePop call .left

/-! ## Vectors -/

/-- The operands of `vec-set!`, checked: the place of the vector and the index; undefined where the
conversion of the index is. -/
def vecSetOperands (v idx : Ptr) (w : World) : Option (Except Ret (ℕ × ℕ)) :=
  match w.vectorOf v, indexOf w idx with
  | some (i, _, _), some idx =>
    idx.map fun idx =>
      match inRange w i idx with
      | some n => .ok (i, n)
      | none => .error (.raise .indexOutOfRange)
  | _, _ => some (.error (.raise .illegalValue))

/-- `vec_set_boxed` of a cell, undefined where a validator made the vector too short for it. What
follows may ask for the value of the cell before the write. -/
def storeCell (i n : ℕ) (x : Ptr) (next : World → World → Option Run) (w : World) : Option Run :=
  if (w.cellsAt i).length ≤ n then none
  else match w.vecSetBoxed (w.cellsAt i) (w.sharedAt i) n x with
    | none => done (.raise .illegalValue) w
    | some (cells, w') => writing i (.vector cells (w.sharedAt i)) (next w) w'

/-- `vecsetcmd` -/
def vecSet (v idx x : Ptr) (w : World) : Option Run :=
  if w.isError v then done (.ptr v) w
  else if w.isError idx then done (.ptr idx) w
  else if w.isError x then done (.ptr x) w
  else (vecSetOperands v idx w).bind fun
    | .error e => done e w
    | .ok (i, n) =>
      if w.watched i then validating call i .vecSet idx x (storeCell i n x (notify i n)) w
      else storeCell i n x (fun _ => done (.ptr x)) w
where
  notify (i n : ℕ) (before w : World) : Option Run :=
    let (old, w) := w.vecGetBoxed (before.cellsAt i) n
    notifying call i .vecSet idx old x (.ptr x) w

/-- `l_vec_set` -/
def lVecSet (v idx x : Ptr) (w : World) : Option Run :=
  (vecSetOperands v idx w).bind fun
    | .error e => done e w
    | .ok (i, n) => storeCell i n x (fun _ => done (.ptr x)) w

/-- `vecpushcmd` and `vecunshiftcmd`, that put a cell at the right and at the left end. -/
def vecPushAt (s : Side) (op : Op) (v x : Ptr) (w : World) : Option Run :=
  if w.isError v then done (.ptr v) w
  else if w.isError x then done (.ptr x) w
  else match w.vectorOf v with
    | none => done (.raise .illegalValue) w
    | some (i, cells, shared) =>
      if shared then done (.raise .illegalValue) w
      else
        let (cells, w) := s.pushCells w cells x
        writing i (.vector cells shared) (fun w =>
          if w.watched i then notifying call i op .null .null x (.ptr x) w
          else done (.ptr x) w) w

/-- `vecpopcmd` and `vecshiftcmd`, that take the cell at the right and at the left end. -/
def vecPopAt (s : Side) (op : Op) (v : Ptr) (w : World) : Option Run :=
  if w.isError v then done (.ptr v) w
  else match w.vectorOf v with
    | none => done (.raise .illegalValue) w
    | some (i, cells, shared) =>
      if shared then done (.raise .illegalValue) w
      else if cells.length = 0 then done (.raise .illegalValue) w
      else
        let (ret, w) := w.vecGetBoxed cells (s.index cells)
        writing i (.vector (s.popCells cells) shared) (fun w =>
          if w.watched i then notifying call i op .null ret .null (.ptr ret) w
          else done (.ptr ret) w) w

def vecPush := vecPushAt call .right .vecPush

def vecUnshift := vecPushAt call .left .vecUnshift

def vecPop := vecPopAt call .right .vecPop

def vecShift := vecPopAt call .left .vecShift

/-! ## Sets -/

/-- `setaddbangcmd` -/
def setAddBang (s v : Ptr) (w : World) : Option Run :=
  if w.isError s then done (.ptr s) w
  else match w.setOf s with
    | none => done (.raise .illegalValue) w
    | some i =>
      if w.isError v then done (.ptr v) w
      else match setKeyForValue (w.scalar v), w.clone v with
        | some ks, some (stored, w) =>
          if w.watched i then validating call i .setAdd .null v (add i ks stored) w
          else add i ks stored w
        | _, _ => done (.raise .illegalValue) w
where
  add (i : ℕ) (ks : CStr) (stored : Ptr) (w : World) : Option Run :=
    writing i (.set ((w.tableAt i).set ks stored)) (fun w =>
      if w.watched i then notifying call i .setAdd .null .null v (.ptr s) w
      else done (.ptr s) w) w

/-- `setdelbangcmd` -/
def setDelBang (s v : Ptr) (w : World) : Option Run :=
  if w.isError s then done (.ptr s) w
  else match w.setOf s with
    | none => done (.raise .illegalValue) w
    | some i =>
      if w.isError v then done (.ptr v) w
      else match setKeyForValue (w.scalar v) with
        | none => done (.ptr s) w
        | some ks =>
          if w.watched i then validating call i .setDel .null v (del i ks) w else del i ks w
where
  del (i : ℕ) (ks : CStr) (w : World) : Option Run :=
    writing i (.set ((w.tableAt i).erase ks).1) (fun w =>
      if w.watched i then notifying call i .setDel .null v .null (.ptr s) w
      else done (.ptr s) w) w

/-! ## `conj` and `into` -/

/-- `iserror` of what was returned. -/
def Run.errs (r : Run) : Bool :=
  match r.ret with
  | .raise _ => true
  | .ptr p => r.world.isError p

/-- The end of `conj_one`: the collection is returned, unless the builtin errors. -/
def keepColl (coll : Ptr) (r : Run) : Run := if r.errs then r else { r with ret := .ptr coll }

/-- `conj_one`, into a container with hooks: the builtin it applies, if any. -/
def conjOne (coll x : Ptr) (w : World) : Option Run :=
  if (w.vectorOf coll).isSome then (vecPush call coll x w).map (keepColl coll)
  else if (w.setOf coll).isSome then (setAddBang call coll x w).map (keepColl coll)
  else if (w.dequeOf coll).isSome then (pushRightBang call coll x w).map (keepColl coll)
  else if (w.pairOf x).isNone ∨ w.car x = .null ∨ w.car (w.cdr x) = .null then
    done (.raise .illegalValue) w
  else (assocBang call coll (w.car x) (w.car (w.cdr x)) w).map (keepColl coll)

/-- The loop of `conjcmd` and `intocmd` over evaluated elements. -/
def conjEach (coll : Ptr) : List Ptr → World → Option Run
  | [], w => done (.ptr coll) w
  | x :: xs, w =>
    (conjOne call coll x w).bind fun r =>
      if r.errs then some r else (conjEach coll xs r.world).map (Run.after r.events)

/-- The runs of `conj_one` for some elements, up to the first that errors. -/
inductive Conjoined (coll : Ptr) : List Ptr → World → List Run → Prop
  | nil (w : World) : Conjoined coll [] w []
  | stop {x r w} {xs : List Ptr} (hrun : conjOne call coll x w = some r) (herr : r.errs) :
      Conjoined coll (x :: xs) w [r]
  | step {x r w rs} {xs : List Ptr} (hrun : conjOne call coll x w = some r) (hok : ¬ r.errs)
      (hnext : Conjoined coll xs r.world rs) : Conjoined coll (x :: xs) w (r :: rs)

/-- `conj` and `into` make one mutation after the other. -/
theorem conjEach_conjoined {coll : Ptr} {xs : List Ptr} {w : World} {r : Run}
    (h : conjEach call coll xs w = some r) :
    ∃ rs, Conjoined call coll xs w rs ∧ r.events = rs.flatMap Run.events := by
  induction xs generalizing w r with
  | nil =>
    cases h
    exact ⟨[], .nil w, rfl⟩
  | cons x xs ih =>
    obtain ⟨r₁, hrun, hrest⟩ := Option.bind_eq_some_iff.mp h
    split at hrest
    · rename_i herr
      obtain rfl := Option.some.inj hrest
      exact ⟨[r₁], .stop hrun herr, by simp⟩
    · rename_i hok
      obtain ⟨r₂, hr₂, rfl⟩ := Option.map_eq_some_iff.mp hrest
      obtain ⟨rs, hrs, hevents⟩ := ih hr₂
      exact ⟨r₁ :: rs, .step hrun hok hrs, by simp [Run.after, hevents]⟩

end Alcove.Objects
