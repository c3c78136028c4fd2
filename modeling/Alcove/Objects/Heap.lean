import Alcove.Value.Set

/-!
# Objects and the hooks on them

The heap that the mutating builtins work on: a pointer is a tagged immediate, one of the singletons,
or the place of an object. An object of a container type may have hooks, a validator and a list of
watchers, that the registry of `watch.h` holds for it, and the bit `FLAG_WATCHED`.

`nil_singleton` is a pair without content that no program changes; it is `Ptr.nil` here.
-/

namespace Alcove.Objects

/-- `exp_t *` -/
inductive Ptr
  | null
  | nil
  | t
  | fix (n : Fixnum)
  | char (c : UInt32)
  | type (id : UInt32)
  | ref (i : ℕ)
  deriving DecidableEq

/-- The codes of errors: those the builtins below raise, and any other. -/
inductive ErrorClass
  | illegalValue
  | missingParameter
  | numberExpected
  | indexOutOfRange
  | other (code : ℕ)
  deriving DecidableEq

/-- The cells of a vector in the kinds `VEC_KIND_GEN`, `VEC_KIND_I64` and `VEC_KIND_F64`. -/
inductive Cells
  | gen (cells : List Ptr)
  | i64 (cells : List ℤ)
  | f64 (cells : List UInt64)
  deriving DecidableEq

/-- A heap object; `shared` is `FLAG_SHARED`, and `other` is an object of any type not listed. -/
inductive Object
  | float (bits : UInt64)
  | rational (num den : ℤ)
  | decimal (coef scale : ℤ)
  | string (text : CStr)
  | symbol (text : CStr)
  | blob (bytes : List UInt8)
  | pair (content next : Ptr)
  | vector (cells : Cells) (shared : Bool)
  | dict (d : Dict Ptr)
  | set (d : Dict Ptr)
  | deque (vals : List Ptr)
  | error (errnum : ErrorClass)
  | other
  deriving DecidableEq

/-- `watch_slot_t`: the cells of the list of watchers, each with its address, and the validator. -/
structure Hooks where
  fns : List (ℕ × Ptr)
  validator : Option Ptr
  deriving DecidableEq

/-- An object with its `FLAG_WATCHED` and its slot in the registry. -/
structure Entry where
  object : Object
  watched : Bool
  slot : Option Hooks
  deriving DecidableEq

/-- The objects, by their places, and the address `watch_tab` of the registry, which moves when the
registry grows. -/
structure World where
  objs : List Entry
  watchTab : ℕ
  deriving DecidableEq

namespace World

variable (w : World)

/-- The object at a place. -/
def objAt (i : ℕ) : Option Object := (w.objs[i]?).map Entry.object

/-- What a pointer leads to, when `is_ptr` holds of it. -/
def look : Ptr → Option Object
  | .nil => some (.pair .null .null)
  | .t => some .other
  | .ref i => w.objAt i
  | _ => none

/-- The result of an allocation, and the world after it. -/
def alloc (o : Object) : Ptr × World :=
  (.ref w.objs.length, { w with objs := w.objs ++ [⟨o, false, none⟩] })

/-- The world after the object at a place was changed. -/
def store (i : ℕ) (o : Object) : World :=
  { w with objs := w.objs.modify i fun e => { e with object := o } }

/-- `FLAG_WATCHED` -/
def watched (i : ℕ) : Bool := ((w.objs[i]?).map Entry.watched).getD false

/-- `watch_find` -/
def watchFind (i : ℕ) : Option Hooks := (w.objs[i]?).bind Entry.slot

/-- The watchers in the registry. -/
def fns (i : ℕ) : List (ℕ × Ptr) := ((w.watchFind i).map Hooks.fns).getD []

/-- The world after `FLAG_WATCHED` was set or cleared. -/
def setWatched (i : ℕ) (b : Bool) : World :=
  { w with objs := w.objs.modify i fun e => { e with watched := b } }

/-! ## Types -/

/-- `iserror`, with the code of the error. -/
def errorOf (p : Ptr) : Option ErrorClass :=
  match w.look p with
  | some (.error c) => some c
  | _ => none

/-- `ispair`, with `content` and `next`. -/
def pairOf (p : Ptr) : Option (Ptr × Ptr) :=
  match w.look p with
  | some (.pair content next) => some (content, next)
  | _ => none

/-- `car` -/
def car (p : Ptr) : Ptr := ((w.pairOf p).map Prod.fst).getD .null

/-- `cdr` -/
def cdr (p : Ptr) : Ptr := ((w.pairOf p).map Prod.snd).getD .null

/-- `isvector`, with the place of the vector. -/
def vectorOf (p : Ptr) : Option (ℕ × Cells × Bool) :=
  match p, w.look p with
  | .ref i, some (.vector cells shared) => some (i, cells, shared)
  | _, _ => none

/-- A value that is no container, as `set.h` reads it. -/
def scalar (p : Ptr) : Exp :=
  match p with
  | .null => .null
  | .nil => .nil
  | .t => .t
  | .fix n => .fix n
  | .char c => .char c
  | .type id => .type id
  | .ref i =>
    match w.objAt i with
    | some (.float bits) => .float bits
    | some (.rational num den) => .rational num den
    | some (.decimal coef scale) => .decimal coef scale
    | some (.string text) => .string text
    | some (.symbol text) => .symbol text
    | some (.blob bytes) => .blob bytes
    | some (.pair .null .null) => .nil
    | _ => .foreign .error

end World

/-! ## Numbers in cells -/

/-- `vec_len` -/
def Cells.length : Cells → ℕ
  | gen cells => cells.length
  | i64 cells => cells.length
  | f64 cells => cells.length

namespace World

variable (w : World)

/-- `vec_get_boxed` at an index in range: a float cell, and an integer cell that is no fixnum, get a
float object. -/
def vecGetBoxed (cells : Cells) (i : ℕ) : Ptr × World :=
  match cells with
  | .gen cells => (cells[i]?.getD .nil, w)
  | .i64 cells =>
    let v := cells[i]?.getD 0
    if fixFits v then (.fix (makeFix v), w) else w.alloc (.float (doubleOfInt v))
  | .f64 cells => w.alloc (.float (cells[i]?.getD 0))

/-- The cells that `vec_promote_to_gen` boxes, from the first one on. -/
def boxI64 : List ℤ → World → List Ptr × World
  | [], w => ([], w)
  | v :: vs, w =>
    let (p, w) := if fixFits v then (.fix (makeFix v), w) else w.alloc (.float (doubleOfInt v))
    let (ps, w) := boxI64 vs w
    (p :: ps, w)

/-- The float cells that `vec_promote_to_gen` boxes, from the first one on. -/
def boxF64 : List UInt64 → World → List Ptr × World
  | [], w => ([], w)
  | f :: fs, w =>
    let (p, w) := w.alloc (.float f)
    let (ps, w) := boxF64 fs w
    (p :: ps, w)

/-- `vec_promote_to_gen`, for a vector that is not shared. -/
def promoteToGen (cells : Cells) : List Ptr × World :=
  match cells with
  | .gen cells => (cells, w)
  | .i64 cells => boxI64 cells w
  | .f64 cells => boxF64 cells w

/-- The number of a fixnum or a float as a double. -/
def doubleOf (p : Ptr) : Option UInt64 :=
  match p, w.look p with
  | .fix n, _ => some (doubleOfInt n.1)
  | _, some (.float bits) => some bits
  | _, _ => none

/-- The cells after `vec_set_boxed`; none where a shared vector would have to change its kind. -/
def vecSetBoxed (cells : Cells) (shared : Bool) (i : ℕ) (val : Ptr) : Option (Cells × World) :=
  match cells, val, w.doubleOf val with
  | .gen cells, _, _ => some (.gen (cells.set i val), w)
  | .i64 cells, .fix n, _ => some (.i64 (cells.set i n.1), w)
  | .f64 cells, _, some d => some (.f64 (cells.set i d), w)
  | cells, _, _ =>
    if shared then none
    else
      let (ps, w) := w.promoteToGen cells
      some (.gen (ps.set i val), w)

end World

/-! ## Frames -/

namespace World

variable {w w' w'' : World}

@[simp]
theorem watchFind_store (i j : ℕ) (o : Object) : (w.store i o).watchFind j = w.watchFind j := by
  rw [watchFind, store, List.getElem?_modify]
  by_cases h : i = j
  · simp [h, watchFind, Option.bind_map]
  · simp [h, watchFind]

@[simp]
theorem watched_store (i j : ℕ) (o : Object) : (w.store i o).watched j = w.watched j := by
  rw [watched, store, List.getElem?_modify]
  by_cases h : i = j
  · simp [h, watched, Function.comp_def]
  · simp [h, watched]

@[simp]
theorem fns_store (i j : ℕ) (o : Object) : (w.store i o).fns j = w.fns j := by simp [fns]

@[simp]
theorem watchFind_setWatched (i j : ℕ) (b : Bool) :
    (w.setWatched i b).watchFind j = w.watchFind j := by
  rw [watchFind, setWatched, List.getElem?_modify]
  by_cases h : i = j
  · simp [h, watchFind, Option.bind_map]
  · simp [h, watchFind]

@[simp]
theorem objAt_setWatched (i j : ℕ) (b : Bool) : (w.setWatched i b).objAt j = w.objAt j := by
  rw [objAt, setWatched, List.getElem?_modify]
  by_cases h : i = j
  · simp [h, objAt, Function.comp_def]
  · simp [h, objAt]

@[simp]
theorem look_setWatched (i : ℕ) (b : Bool) (p : Ptr) : (w.setWatched i b).look p = w.look p := by
  cases p <;> simp [look]

/-- A slot in the registry belongs to an object, so its bit can be set. -/
theorem watched_setWatched {i : ℕ} (h : (w.watchFind i).isSome) : (w.setWatched i true).watched i := by
  rw [watchFind] at h
  rw [watched, setWatched, List.getElem?_modify]
  cases hi : w.objs[i]? with
  | none => simp [hi] at h
  | some e => simp

/-- **Objects without hooks were allocated.** -/
def Grows (w w' : World) : Prop :=
  w'.watchTab = w.watchTab ∧
    ∃ es, w'.objs = w.objs ++ es ∧ ∀ e ∈ es, e.watched = false ∧ e.slot = none

theorem Grows.refl (w : World) : w.Grows w := ⟨rfl, [], by simp, by simp⟩

theorem Grows.trans (h : w.Grows w') (h' : w'.Grows w'') : w.Grows w'' := by
  obtain ⟨htab, es, hobjs, hes⟩ := h
  obtain ⟨htab', es', hobjs', hes'⟩ := h'
  refine ⟨htab'.trans htab, es ++ es', by rw [hobjs', hobjs, List.append_assoc], fun e he => ?_⟩
  rcases List.mem_append.mp he with he | he
  · exact hes e he
  · exact hes' e he

theorem grows_alloc (w : World) (o : Object) : w.Grows (w.alloc o).2 :=
  ⟨rfl, [⟨o, false, none⟩], rfl, by simp⟩

theorem Grows.watchFind (h : w.Grows w') (i : ℕ) : w'.watchFind i = w.watchFind i := by
  obtain ⟨-, es, hobjs, hes⟩ := h
  rw [World.watchFind, World.watchFind, hobjs]
  by_cases hi : i < w.objs.length
  · rw [List.getElem?_append_left hi]
  · rw [List.getElem?_append_right (by omega), List.getElem?_eq_none (by omega : w.objs.length ≤ i)]
    cases he : es[i - w.objs.length]? with
    | none => rfl
    | some e => exact (hes e (List.mem_of_getElem? he)).2

theorem Grows.watched (h : w.Grows w') (i : ℕ) : w'.watched i = w.watched i := by
  obtain ⟨-, es, hobjs, hes⟩ := h
  rw [World.watched, World.watched, hobjs]
  by_cases hi : i < w.objs.length
  · rw [List.getElem?_append_left hi]
  · rw [List.getElem?_append_right (by omega), List.getElem?_eq_none (by omega : w.objs.length ≤ i)]
    cases he : es[i - w.objs.length]? with
    | none => rfl
    | some e => exact (hes e (List.mem_of_getElem? he)).1

theorem Grows.fns (h : w.Grows w') (i : ℕ) : w'.fns i = w.fns i := by
  rw [World.fns, World.fns, h.watchFind]

theorem grows_vecGetBoxed (w : World) (cells : Cells) (i : ℕ) :
    w.Grows (w.vecGetBoxed cells i).2 := by
  cases cells with
  | gen cells => exact .refl w
  | i64 cells =>
    simp only [vecGetBoxed]
    split
    · exact .refl w
    · exact grows_alloc w _
  | f64 cells => exact grows_alloc w _

theorem grows_boxI64 (vs : List ℤ) (w : World) : w.Grows (boxI64 vs w).2 := by
  induction vs generalizing w with
  | nil => exact .refl w
  | cons v vs ih =>
    simp only [boxI64]
    split
    · exact ih w
    · exact (grows_alloc w _).trans (ih _)

theorem grows_boxF64 (fs : List UInt64) (w : World) : w.Grows (boxF64 fs w).2 := by
  induction fs generalizing w with
  | nil => exact .refl w
  | cons f fs ih => exact (grows_alloc w _).trans (ih _)

theorem grows_promoteToGen (w : World) (cells : Cells) : w.Grows (w.promoteToGen cells).2 := by
  cases cells with
  | gen cells => exact .refl w
  | i64 cells => exact grows_boxI64 cells w
  | f64 cells => exact grows_boxF64 cells w

theorem grows_vecSetBoxed {cells cells' : Cells} {shared : Bool} {i : ℕ} {val : Ptr}
    (h : w.vecSetBoxed cells shared i val = some (cells', w')) : w.Grows w' := by
  unfold vecSetBoxed at h
  split at h
  · cases h
    exact .refl w
  · cases h
    exact .refl w
  · cases h
    exact .refl w
  · split at h
    · cases h
    · cases h
      exact grows_promoteToGen w _

end World

end Alcove.Objects
