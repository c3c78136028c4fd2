import Alcove.Gcache.Machine
import Alcove.Lib.Transition

/-!
# Cached globals are the current ones

`CacheSound`: the value of each slot that counts is alive and is what `lookup` returns in the global
environment. The invariant `Inv` also says that a symbol object keeps the builtin of its name. An
operation keeps it when it ends with a new generation, or when no name that can be cached changes its
value (`Clean`): an entry of the global dict may change unseen while its name is unbound or that of a
builtin (`Silent`).

**Main results:** `Inv.step` and `cacheSound_of_clean`. In every run of clean operations the caches are
sound in every state.
-/

namespace Alcove.Gcache

open Lib Binding State

variable {V : Type} {P : Program} {s s' : State V}

/-! ## The invariant -/

/-- What a name is bound to: a builtin, or else a global value. -/
def State.table (s : State V) (key : CStr) : Option V := (s.reserved.find key).or (s.root.find key)

/-- The key of a slot -/
def Program.key (P : Program) (slot : ℕ × ℕ) : CStr := P.text (P.constant slot.1 slot.2)

structure Inv (P : Program) (s : State V) : Prop where
  entries : s.gcache.Sound P.key s.table
  symbols : ∀ o v, s.symbolCache o = some v → s.reserved.find (P.text o) = some v

/-- The value of each slot of the current generation is alive, and what `lookup` returns. -/
def CacheSound [DecidableEq V] (P : Program) (s : State V) : Prop :=
  ∀ bc idx v, s.gcache.hit (bc, idx) = some v →
    s.alive v = true ∧ s.lookupGlobal P (P.constant bc idx) = some v

theorem table_reserved {key : CStr} {v : V} (h : s.reserved.find key = some v) :
    s.table key = some v := by
  rw [State.table, h, Option.some_or]

theorem table_root {key : CStr} (h : s.reserved.find key = none) : s.table key = s.root.find key := by
  rw [State.table, h, Option.none_or]

theorem boundIn_of_find [DecidableEq V] {d : Scope V} {key : CStr} {v : V} (h : d.find key = some v) :
    boundIn d v = true := by
  rw [boundIn, List.contains_iff_mem]
  exact List.mem_map.mpr ⟨(key, v), d.2.find_eq_some.mp h, rfl⟩

theorem alive_of_table [DecidableEq V] {key : CStr} {v : V} (h : s.table key = some v) :
    s.alive v = true := by
  cases hr : s.reserved.find key with
  | some w =>
    rw [table_reserved hr] at h
    cases h
    rw [State.alive, boundIn_of_find hr, Bool.or_true]
  | none =>
    rw [table_root hr] at h
    rw [State.alive, boundIn_of_find h, Bool.or_true, Bool.true_or]

/-- A lookup that does not end below the global environment finds what the tables have. -/
theorem Inv.lookupGlobal (h : Inv P s) (o : ℕ) : s.lookupGlobal P o = s.table (P.text o) := by
  rw [State.lookupGlobal, resolve]
  cases ho : s.symbolCache o with
  | some v => exact (table_reserved (h.symbols o v ho)).symm
  | none =>
    cases hr : s.reserved.find (P.text o) with
    | some v => exact (table_reserved hr).symm
    | none =>
      rw [table_root hr]
      simp only [localBinding, List.findSome?_nil]
      cases s.root.find (P.text o) <;> rfl

theorem Inv.cacheSound [DecidableEq V] (h : Inv P s) : CacheSound P s := by
  intro bc idx v hv
  have htable := h.entries (bc, idx) v hv
  exact ⟨alive_of_table htable, by rw [h.lookupGlobal, ← htable]; rfl⟩

/-! ## Changes that keep the invariant -/

/-- After a new generation only the symbol objects matter. -/
theorem Inv.restart (h : Inv P s) (hidle : s'.gcache.Idle) (hsym : s'.symbolCache = s.symbolCache)
    (hres : ∀ key v, s.reserved.find key = some v → s'.reserved.find key = some v) : Inv P s' where
  entries := hidle.sound
  symbols := by
    intro o v ho
    rw [hsym] at ho
    exact hres _ v (h.symbols o v ho)

/-- Without one, bound names keep their values. -/
theorem Inv.keep (h : Inv P s) (hg : s'.gcache = s.gcache) (hsym : s'.symbolCache = s.symbolCache)
    (hres : ∀ key v, s.reserved.find key = some v → s'.reserved.find key = some v)
    (htab : ∀ key v, s.table key = some v → s'.table key = some v) : Inv P s' where
  entries := by
    rw [hg]
    exact h.entries.congr fun i v _ hv => htab _ v hv
  symbols := by
    intro o v ho
    rw [hsym] at ho
    exact hres _ v (h.symbols o v ho)

theorem Inv.bump (h : Inv P s) (root : Scope V) (types : List CStr) :
    Inv P { s with root := root, userTypes := types }.bump :=
  h.restart (GenCache.idle_bump _) rfl fun _ _ hv => hv

/-- An entry of the global dict for this name changes nothing that is cached. -/
def Silent (s : State V) (key : CStr) : Prop :=
  (s.reserved.find key).isSome ∨ s.root.find key = none

/-- Only silent names of the global dict change. -/
theorem Inv.write (h : Inv P s) {root : Scope V}
    (hroot : ∀ key, root.find key = s.root.find key ∨ Silent s key) : Inv P { s with root := root } := by
  refine h.keep rfl rfl (fun _ _ hv => hv) fun key v hv => ?_
  cases hr : s.reserved.find key with
  | some w =>
    rw [table_reserved hr] at hv
    exact hv ▸ table_reserved hr
  | none =>
    rw [table_root hr] at hv
    have hr' : ({ s with root := root } : State V).reserved.find key = none := hr
    rw [table_root hr']
    rcases hroot key with hsame | hsome | hnone
    · exact hsame.trans hv
    · rw [hr] at hsome
      cases hsome
    · rw [hnone] at hv
      cases hv

/-! ## Reads -/

theorem Inv.resolve (h : Inv P s) (scan : Binding.Scan V) (o : ℕ) (frames : Frames V) :
    Inv P (s.resolve P scan o frames).1 ∧ (s.resolve P scan o frames).1.gcache = s.gcache ∧
      (s.resolve P scan o frames).1.table = s.table := by
  unfold State.resolve
  cases s.symbolCache o with
  | some v => exact ⟨h, rfl, rfl⟩
  | none =>
    cases hr : s.reserved.find (P.text o) with
    | some v =>
      refine ⟨⟨h.entries, fun o' w ho => ?_⟩, rfl, rfl⟩
      simp only [Function.update_apply] at ho
      split at ho
      · rename_i heq
        cases ho
        rw [heq, hr]
      · exact h.symbols o' w ho
    | none =>
      cases localBinding scan frames (P.text o) with
      | some b => exact ⟨h, rfl, rfl⟩
      | none => cases s.root.find (P.text o) <;> exact ⟨h, rfl, rfl⟩

/-- A global binding is the one in the tables. -/
theorem Inv.resolve_global (h : Inv P s) {scan : Binding.Scan V} {o : ℕ} {frames : Frames V} {v : V}
    (hv : (s.resolve P scan o frames).2 = (some v, true)) : s.table (P.text o) = some v := by
  unfold State.resolve at hv
  cases ho : s.symbolCache o with
  | some w =>
    rw [ho] at hv
    cases hv
    exact table_reserved (h.symbols o v ho)
  | none =>
    rw [ho] at hv
    cases hr : s.reserved.find (P.text o) with
    | some w =>
      rw [hr] at hv
      cases hv
      exact table_reserved hr
    | none =>
      rw [hr] at hv
      rw [table_root hr]
      cases hl : localBinding scan frames (P.text o) with
      | some b =>
        rw [hl] at hv
        exact absurd (congrArg Prod.snd hv) Bool.false_ne_true
      | none =>
        rw [hl] at hv
        cases hroot : s.root.find (P.text o) with
        | none =>
          rw [hroot] at hv
          cases hv
        | some w =>
          rw [hroot] at hv
          cases hv
          rfl

theorem Inv.loadGlobal (h : Inv P s) (bc idx : ℕ) (noGcache : Bool) (frames : Frames V) :
    Inv P (s.loadGlobal P bc idx noGcache frames).1 := by
  rw [State.loadGlobal]
  cases s.gcache.hit (bc, idx) with
  | some v => exact h
  | none =>
    obtain ⟨hinv, hcache, htable⟩ := h.resolve scanUp (P.constant bc idx) frames
    cases hres : s.resolve P scanUp (P.constant bc idx) frames with
    | mk s₁ found =>
      obtain ⟨v?, isGlobal⟩ := found
      rw [hres] at hinv hcache htable
      cases v? with
      | none => exact hinv
      | some v =>
        simp only
        split
        · rename_i hmemo
          rw [Bool.and_eq_true] at hmemo
          have hfound : (s.resolve P scanUp (P.constant bc idx) frames).2 = (some v, true) := by
            rw [hres, hmemo.2]
          have hv : s.table (P.key (bc, idx)) = some v := h.resolve_global hfound
          refine ⟨hinv.entries.fill ?_, hinv.symbols⟩
          change s₁.table (P.key (bc, idx)) = some v
          rw [← hv]
          exact congrFun htable _
        · exact hinv

/-! ## Entries of several names -/

theorem find_setAll {d : Scope V} {kvs : List (CStr × V)} {key : CStr}
    (h : key ∉ kvs.map Prod.fst) : (setAll d kvs).find key = d.find key := by
  rw [setAll]
  induction kvs generalizing d with
  | nil => rfl
  | cons kv kvs ih =>
    rw [List.map_cons, List.mem_cons, not_or] at h
    rw [List.foldl_cons, ih h.2, Scope.find_set, if_neg h.1]

/-- The names behind `:refer` that are defined when their turn comes, up to the first that is not. -/
def referred (ns : CStr) : List CStr → Scope V → List CStr
  | [], _ => []
  | bare :: names, d => match referOne ns d bare with
    | some d => bare :: referred ns names d
    | none => []

theorem find_referOne {ns bare key : CStr} {d d' : Scope V} (h : referOne ns d bare = some d')
    (hne : key ≠ bare) : d'.find key = d.find key := by
  obtain ⟨v, -, rfl⟩ := Option.map_eq_some_iff.mp h
  rw [Scope.find_set, if_neg hne]

theorem find_referLoop {ns key : CStr} {names : List CStr} {d : Scope V}
    (h : key ∉ referred ns names d) : (referLoop ns names d).1.find key = d.find key := by
  induction names generalizing d with
  | nil => rfl
  | cons bare names ih =>
    rw [referred] at h
    rw [referLoop]
    cases hd : referOne ns d bare with
    | none => rfl
    | some d' =>
      rw [hd] at h
      simp only [List.mem_cons, not_or] at h
      exact (ih h.2).trans (find_referOne hd h.1)

theorem referLoop_found {ns : CStr} {names : List CStr} {d : Scope V} :
    (referLoop ns names d).2 = true ↔ referred ns names d = names := by
  induction names generalizing d with
  | nil => exact ⟨fun _ => rfl, fun _ => rfl⟩
  | cons bare names ih =>
    rw [referLoop, referred]
    cases hd : referOne ns d bare with
    | none => simp
    | some d' => simpa using ih

/-! ## Registrations -/

/-- The builtins among the registrations -/
def cmdNames : List (Registration V) → List CStr
  | [] => []
  | .cmd name _ :: regs => name :: cmdNames regs
  | .type _ :: regs => cmdNames regs

/-- A new type is registered. -/
def newType : List (Registration V) → Bool
  | [] => false
  | .cmd _ _ :: regs => newType regs
  | .type isNew :: regs => isNew || newType regs

/-- What registering these builtins does to the state, with a new generation or without. -/
structure Registers (names : List CStr) (restarts : Bool) (s s' : State V) : Prop where
  root : s'.root = s.root
  symbols : s'.symbolCache = s.symbolCache
  reserved : ∀ key, key ∉ names → s'.reserved.find key = s.reserved.find key
  gcache : if restarts then s'.gcache.Idle else s'.gcache = s.gcache

namespace Registers

variable {names names' : List CStr} {restarts restarts' : Bool} {s₁ s₂ s₃ : State V}

theorem refl (s : State V) : Registers [] false s s := ⟨rfl, rfl, fun _ _ => rfl, rfl⟩

theorem trans (h : Registers names restarts s₁ s₂) (h' : Registers names' restarts' s₂ s₃) :
    Registers (names ++ names') (restarts || restarts') s₁ s₃ where
  root := h'.root.trans h.root
  symbols := h'.symbols.trans h.symbols
  reserved := by
    intro key hkey
    rw [List.mem_append, not_or] at hkey
    exact (h'.reserved key hkey.2).trans (h.reserved key hkey.1)
  gcache := by
    have hg := h.gcache
    have hg' := h'.gcache
    cases restarts' with
    | true => simpa using hg'
    | false =>
      rw [if_neg Bool.false_ne_true] at hg'
      rw [Bool.or_false, hg']
      exact hg

theorem bump (s : State V) : Registers [] true s s.bump :=
  ⟨rfl, rfl, fun _ _ => rfl, GenCache.idle_bump _⟩

theorem cmd (s : State V) (name : CStr) (v : V) :
    Registers [name] false s (s.register (.cmd name v)) :=
  ⟨rfl, rfl, fun key hkey => by
    rw [List.mem_singleton] at hkey
    exact (Scope.find_set).trans (if_neg hkey), rfl⟩

theorem registerAll (s : State V) (regs : List (Registration V)) :
    Registers (cmdNames regs) (newType regs) s (regs.foldl register s) := by
  induction regs generalizing s with
  | nil => exact refl s
  | cons r regs ih =>
    cases r with
    | cmd name v => exact (cmd s name v).trans (ih _)
    | type isNew =>
      cases isNew with
      | true => exact (bump s).trans (ih _)
      | false => exact ih s

theorem loadNative (s : State V) (regs : List (Registration V)) (succeeds : Bool) :
    Registers (cmdNames regs) (newType regs || succeeds) s (s.loadNative regs succeeds) := by
  have hreg := registerAll s regs
  rw [State.loadNative]
  cases succeeds with
  | true => simpa using hreg.trans (bump _)
  | false => simpa using hreg

theorem loadModules (s : State V) (modules : List (List (Registration V) × Bool)) :
    Registers (modules.flatMap fun m => cmdNames m.1) (modules.any fun m => newType m.1 || m.2) s
      (modules.foldl (fun s m => s.loadNative m.1 m.2) s) := by
  induction modules generalizing s with
  | nil => exact refl s
  | cons m modules ih => exact (loadNative s m.1 m.2).trans (ih _)

theorem reserved_mono (h : Registers names restarts s₁ s₂)
    (hnew : ∀ name ∈ names, s₁.reserved.find name = none) (key : CStr) (v : V)
    (hv : s₁.reserved.find key = some v) : s₂.reserved.find key = some v := by
  have hkey : key ∉ names := fun hmem => by
    rw [hnew key hmem] at hv
    cases hv
  exact (h.reserved key hkey).trans hv

/-- The builtins are new, and where no generation starts their names are unbound. -/
theorem inv (h : Registers names restarts s₁ s₂) (hinv : Inv P s₁)
    (hnew : ∀ name ∈ names, s₁.reserved.find name = none)
    (hroot : restarts = true ∨ ∀ name ∈ names, s₁.root.find name = none) : Inv P s₂ := by
  have hres := h.reserved_mono hnew
  have hg := h.gcache
  cases restarts with
  | true => exact hinv.restart hg h.symbols hres
  | false =>
    refine hinv.keep hg h.symbols hres fun key v hv => ?_
    rcases hroot with hf | hroot
    · cases hf
    · by_cases hkey : key ∈ names
      · rw [table_root (hnew key hkey), hroot key hkey] at hv
        cases hv
      · rw [State.table, h.reserved key hkey, h.root]
        exact hv

end Registers

/-! ## Steps and runs -/

/-- The operation starts a new generation, or changes nothing that is cached. A builtin may only be
registered under a new name. -/
def Clean (s : State V) : Op V → Prop
  | .requireRefer ns names =>
    referred ns names s.root = names ∨ ∀ name ∈ referred ns names s.root, Silent s name
  | .register (.cmd name _) => s.reserved.find name = none ∧ s.root.find name = none
  | .loadNative regs succeeds =>
    (∀ name ∈ cmdNames regs, s.reserved.find name = none) ∧
      (succeeds = true ∨ newType regs = true ∨ ∀ name ∈ cmdNames regs, s.root.find name = none)
  | .loadUnified modules records complete =>
    (∀ m ∈ modules, ∀ name ∈ cmdNames m.1, s.reserved.find name = none) ∧
      (complete = true ∨ (∃ m ∈ modules, newType m.1 = true ∨ m.2 = true) ∨
        (∀ m ∈ modules, ∀ name ∈ cmdNames m.1, s.root.find name = none) ∧
          ∀ record ∈ records, Silent s record.1)
  | _ => True

theorem Inv.assign (h : Inv P s) (guard isSymbol : Bool) (key : CStr) (v : V) (frames : Frames V) :
    Inv P (s.assign guard isSymbol key v frames) := by
  unfold State.assign
  split
  · exact h
  · split
    · exact h
    · exact h.bump _ _
    · split
      · split
        · exact h
        · exact h.bump _ _
      · split
        · split
          · exact h
          · exact h.bump _ _
        · exact h.bump _ _

theorem Inv.setq (h : Inv P s) (key : CStr) (v : V) (frames : Frames V) :
    Inv P (s.setq key v frames) := by
  unfold State.setq
  split
  · exact h
  · split
    · exact h
    · exact h.bump _ _
    · split
      · exact h.bump _ _
      · exact h.bump _ _

theorem Inv.requireRefer (h : Inv P s) {ns : CStr} {names : List CStr}
    (hclean : referred ns names s.root = names ∨
      ∀ name ∈ referred ns names s.root, Silent s name) : Inv P (s.requireRefer ns names) := by
  unfold State.requireRefer
  split
  · unfold State.referAll
    simp only
    split
    · exact h
    · exact h.bump _ _
  · simp only
    split
    · exact h.bump _ _
    · rename_i hfound
      rw [referLoop_found] at hfound
      refine h.write fun key => ?_
      by_cases hkey : key ∈ referred ns names s.root
      · exact .inr (hclean.resolve_left hfound key hkey)
      · exact .inl (find_referLoop hkey)

theorem Inv.loadUnified (h : Inv P s) {modules : List (List (Registration V) × Bool)}
    {records : List (CStr × V)} {complete : Bool}
    (hclean : Clean s (.loadUnified modules records complete)) :
    Inv P (s.loadUnified modules records complete) := by
  obtain ⟨hnew, hend⟩ := hclean
  have hreg := Registers.loadModules s modules
  have hnew' : ∀ name ∈ modules.flatMap fun m => cmdNames m.1, s.reserved.find name = none := by
    intro name hname
    obtain ⟨m, hm, hmem⟩ := List.mem_flatMap.mp hname
    exact hnew m hm name hmem
  rw [State.loadUnified]
  cases complete with
  | true => exact h.restart (GenCache.idle_bump _) hreg.symbols (hreg.reserved_mono hnew')
  | false =>
    rw [if_neg Bool.false_ne_true]
    rcases hend with hc | ⟨m, hm, hrestart⟩ | ⟨hroot, hrecords⟩
    · cases hc
    · have hany : (modules.any fun m => newType m.1 || m.2) = true :=
        List.any_eq_true.mpr ⟨m, hm, by rwa [Bool.or_eq_true]⟩
      have hg := hreg.gcache
      rw [if_pos hany] at hg
      exact h.restart hg hreg.symbols (hreg.reserved_mono hnew')
    · have hinv : Inv P (modules.foldl (fun s m => s.loadNative m.1 m.2) s) := by
        refine hreg.inv h hnew' (.inr fun name hname => ?_)
        obtain ⟨m, hm, hmem⟩ := List.mem_flatMap.mp hname
        exact hroot m hm name hmem
      refine hinv.write fun key => ?_
      by_cases hkey : key ∈ records.map Prod.fst
      · obtain ⟨record, hmem, rfl⟩ := List.mem_map.mp hkey
        right
        rcases hrecords record hmem with hres | hnone
        · obtain ⟨v, hv⟩ := Option.isSome_iff_exists.mp hres
          exact .inl (Option.isSome_iff_exists.mpr ⟨v, hreg.reserved_mono hnew' _ v hv⟩)
        · exact .inr (hreg.root ▸ hnone)
      · exact .inl (find_setAll hkey)

theorem Inv.register (h : Inv P s) {r : Registration V} (hclean : Clean s (.register r)) :
    Inv P (s.register r) := by
  cases r with
  | cmd name v =>
    refine (Registers.cmd s name v).inv h (fun key hkey => ?_) (.inr fun key hkey => ?_)
    · rw [List.mem_singleton.mp hkey]
      exact hclean.1
    · rw [List.mem_singleton.mp hkey]
      exact hclean.2
  | type isNew =>
    cases isNew with
    | true => exact h.bump _ _
    | false => exact h

theorem Inv.step [DecidableEq V] (s : State V) (op : Op V) (s' : State V) (h : Inv P s)
    (hclean : Clean s op) (hstep : step P s op = some s') : Inv P s' := by
  cases op with
  | lookup o frames =>
    cases hstep
    exact (h.resolve scanDown o frames).1
  | loadGlobal bc idx noGcache frames =>
    cases hstep
    exact h.loadGlobal bc idx noGcache frames
  | def' qname v frames =>
    cases hstep
    rw [State.def']
    split
    · exact h.bump _ _
    · exact h.bump _ _
  | assign guard isSymbol key v frames =>
    cases hstep
    exact h.assign guard isSymbol key v frames
  | setq key v frames =>
    cases hstep
    exact h.setq key v frames
  | forget guard key =>
    cases hstep
    rw [State.forget]
    split
    · exact h
    · exact h.bump _ _
  | bindType name v =>
    cases hstep
    exact h.bump _ _
  | unregisterType name =>
    cases hstep
    exact h.bump _ _
  | requireRefer ns names =>
    cases hstep
    exact h.requireRefer hclean
  | register r =>
    cases hstep
    exact h.register hclean
  | loadNative regs succeeds =>
    cases hstep
    refine (Registers.loadNative s regs succeeds).inv h hclean.1 ?_
    rcases hclean.2 with hs | ht | hroot
    · exact .inl (by rw [hs, Bool.or_true])
    · exact .inl (by rw [ht, Bool.true_or])
    · exact .inr hroot
  | loadUnified modules records complete =>
    cases hstep
    exact h.loadUnified hclean
  | loadLegacy records =>
    cases hstep
    exact h.bump _ _
  | alloc v =>
    rw [Gcache.step] at hstep
    split at hstep
    · cases hstep
    · cases hstep
      exact ⟨h.entries, h.symbols⟩
  | retain v =>
    rw [Gcache.step] at hstep
    split at hstep
    · cases hstep
      exact ⟨h.entries, h.symbols⟩
    · cases hstep
  | release v =>
    rw [Gcache.step] at hstep
    split at hstep
    · cases hstep
      exact ⟨h.entries, h.symbols⟩
    · cases hstep

theorem inv_initial (reserved : Scope V) (held : V → ℕ) : Inv P (State.initial reserved held) where
  entries := (GenCache.idle_empty 1).sound
  symbols := by
    intro o v ho
    cases ho

/-- One bytecode whose constant is `x` -/
def loadsX : Program := ⟨fun _ _ => 0, fun _ => .ofBytes [120]⟩

/-- `(def x 1)` and `(def m/x 2)`, a call that reads `x`. -/
def definesX : List (Op ℕ) :=
  [.alloc 1, .def' (.ofBytes [120]) 1 [], .alloc 2, .def' (.ofBytes [109, 47, 120]) 2 [],
    .loadGlobal 0 0 false [], .release 1]

end Alcove.Gcache
