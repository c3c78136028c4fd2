import Alcove.Json.RoundTrip
import Alcove.Persist.Reload

/-!
# A dump is loaded as an equal value

What `load_exp_t` makes of the record of a value is equal to it as `isoequal` compares values, where
lambdas and macros are compared by name, parameters and body (`isoequal_reload`).

**Main result:** `load_dump`.
-/

namespace Alcove.Persist

open Lib Exp

/-! ## Nesting -/

/-- A NULL pointer, or a value in a pointer. -/
def isImmediate : Exp → Bool
  | .null | .fix _ | .char _ | .type _ => true
  | _ => false

/-- A comparison of the value needs at most so many nested calls. The cells of a list are walked in one
call. -/
inductive NestsWithin : ℕ → Exp → Prop
  | immediate {room : ℕ} {e : Exp} (h : isImmediate e) : NestsWithin room e
  | list {room : ℕ} {content next : Exp} (hcontent : NestsWithin room content)
      (hnext : NestsWithin (if next.isPair then room + 1 else room) next) :
      NestsWithin (room + 1) (.pair content next)
  | other {room : ℕ} {e : Exp} (hpair : ∀ content next, e ≠ .pair content next)
      (hparts : ∀ x, Part e x → NestsWithin room x)
      (hcells : ∀ cells, e.boxedCells = some cells → ∀ x ∈ cells, NestsWithin room x) :
      NestsWithin (room + 1) e

/-! ## Comparing with what was read back -/

variable {session : Session} {room : ℕ} {place : List (Exp × Exp) → ℕ → UInt64} {e : Exp}

theorem isoequal_of_objects {a b : Exp} (h : isoObjects (isoequal true room) true a b) :
    isoequal true (room + 1) a b := by
  show (identical a b || isNil a && isNil b || isoObjects (isoequal true room) true a b) = true
  rw [h, Bool.or_true]

theorem isoequal_of_identical {a b : Exp} (h : identical a b) : isoequal true room a b := by
  unfold isoequal
  rw [h, Bool.true_or, Bool.true_or]

theorem isoequal_immediate (h : isImmediate e) : isoequal true room e (reload place e) := by
  cases e with
  | null | fix | char | type =>
    apply isoequal_of_identical
    rw [reload]
    · first | rfl | exact decide_eq_true rfl
    all_goals simp
  | _ => cases h

theorem isEqv_map {eq : Exp → Exp → Bool} {xs : List Exp} {g : Exp → Exp}
    (h : ∀ x ∈ xs, eq x (g x)) : xs.isEqv (xs.map g) eq := by
  induction xs with
  | nil => rfl
  | cons x xs ih =>
    obtain ⟨hx, hxs⟩ := List.forall_mem_cons.mp h
    rw [List.map_cons, List.isEqv, hx, ih hxs]
    rfl

/-- A cell of a vector of numbers equals itself. -/
theorem isoequal_boxed {x : Exp} (hx : (∃ n, x = .fix n) ∨ ∃ bits, x = .float bits ∧ Hamt.isNaN bits = false)
    (h : NestsWithin room x) : isoequal true room x x := by
  rcases hx with ⟨n, rfl⟩ | ⟨bits, rfl, hnan⟩
  · exact isoequal_of_identical (decide_eq_true rfl)
  · cases h with
    | immediate h => cases h
    | other =>
      apply isoequal_of_objects
      simp [isoObjects, isPair, boxedCells, isequal, floatEq_self hnan]

theorem isNaN_of_isFinite {bits : UInt64} (h : Json.isFinite bits) : Hamt.isNaN bits = false := by
  unfold Json.isFinite at h
  unfold Hamt.isNaN
  rw [decide_eq_true_iff] at h
  rw [decide_eq_false_iff_not, UInt64.lt_iff_toNat_lt, UInt64.toNat_and]
  have hmask : bits.toNat &&& (0x7FFFFFFFFFFFFFFF : UInt64).toNat = bits.toNat % 2 ^ 63 :=
    Nat.and_two_pow_sub_one_eq_mod bits.toNat 63
  rw [hmask, show (0x7FF0000000000000 : UInt64).toNat = 2047 * 2 ^ 52 from rfl]
  omega

theorem boxI64_number {v : ℤ} (h : Fits 64 v) : (∃ n, Json.boxI64 v = .fix n) ∨
    ∃ bits, Json.boxI64 v = .float bits ∧ Hamt.isNaN bits = false := by
  unfold Json.boxI64
  split
  · exact .inl ⟨_, rfl⟩
  · exact .inr ⟨_, rfl, isNaN_of_isFinite (Json.isFinite_doubleOfInt h)⟩

theorem isequal_comm_of_key {a b : Exp} (ha : a.hashedByValue ∧ isNaNKey a = false)
    (hb : b.hashedByValue ∧ isNaNKey b = false) : isequal a b = isequal b a := by
  have hab : Hamt.isequal (keyOf 0 a) (keyOf 0 b) = isequal a b := isequal_keyOf ha.1 hb.1 ha.2
  have hba : Hamt.isequal (keyOf 0 b) (keyOf 0 a) = isequal b a := isequal_keyOf hb.1 ha.1 hb.2
  rw [← hab, ← hba, Hamt.isequal_comm]

theorem isequal_self_of_key {a : Exp} (ha : a.hashedByValue ∧ isNaNKey a = false) :
    isequal a a = true := by
  have haa : Hamt.isequal (keyOf 0 a) (keyOf 0 a) = isequal a a := isequal_keyOf ha.1 ha.1 ha.2
  rw [← haa]
  exact if_pos rfl

/-- **The value of a key is found among those that were read back.** -/
theorem hamtGet_reload {entries es : List (Exp × Exp)} (hdist : Proper (.hamt entries))
    (hkeys : ∀ kv ∈ entries, kv.1.hashedByValue ∧ isNaNKey kv.1 = false)
    (hperm : es.Perm (reloadEntries place entries)) {kv : Exp × Exp} (hkv : kv ∈ entries) :
    hamtGet es kv.1 = some (reload place kv.2) := by
  obtain ⟨hval, hnan⟩ := hkeys kv hkv
  -- two entries with equal keys are one entry
  have hunique : ∀ kv' ∈ entries, isequal kv'.1 kv.1 = true → kv' = kv := by
    intro kv' hkv' heq
    by_contra hne
    have hboth : entries.Pairwise fun a b => isequal a.1 b.1 = false ∧ isequal b.1 a.1 = false :=
      hdist.imp_of_mem fun {a b} ha hb hab =>
        ⟨hab, (isequal_comm_of_key (hkeys b hb) (hkeys a ha)).trans hab⟩
    have hsymm : Std.Symm fun a b : Exp × Exp =>
        isequal a.1 b.1 = false ∧ isequal b.1 a.1 = false := ⟨fun _ _ h => h.symm⟩
    have hfalse := hboth.forall hkv' hkv hne
    rw [hfalse.1] at heq
    cases heq
  have hmem : (reload place kv.1, reload place kv.2) ∈ es :=
    hperm.mem_iff.mpr (List.mem_map_of_mem (f := fun kv => (reload place kv.1, reload place kv.2)) hkv)
  have hself : isequal (reload place kv.1) kv.1 = true := by
    rw [(isequal_reload hval _).1, isequal_self_of_key ⟨hval, hnan⟩]
  rw [hamtGet, if_pos hval]
  cases hfind : es.find? fun x => isequal x.1 kv.1 with
  | none => exact absurd hself (List.find?_eq_none.mp hfind _ hmem)
  | some x =>
    obtain ⟨kv', hkv', rfl⟩ := List.mem_map.mp (hperm.mem_iff.mp (List.mem_of_find?_eq_some hfind))
    have heq := List.find?_some hfind
    change isequal (reload place kv'.1) kv.1 = true at heq
    rw [(isequal_reload (hkeys kv' hkv').1 _).1] at heq
    obtain rfl := hunique kv' hkv' heq
    rfl

/-! ## Every value -/

theorem isoPairs_of_not_isPair {eq : Exp → Exp → Bool} {a b : Exp} (h : a.isPair = false) :
    isoPairs eq a b = eq a b := by
  cases a <;> first | rfl | cases h

theorem isoequal_part {x : Exp} (h : x.isNull = false → isoequal true room x (reload place x)) :
    isoequal true room x (reload place x) := by
  cases hx : x.isNull with
  | false => exact h hx
  | true =>
    obtain rfl : x = .null := by
      cases x <;> first | rfl | cases hx
    exact isoequal_immediate rfl

/-- **What is read back is equal.** -/
theorem isoequal_reload (hportable : ∀ x, Inside e x → Portable session x)
    (hnests : NestsWithin room e) : isoequal true room e (reload place e) := by
  induction e using part_induction generalizing room with
  | h e ih =>
  obtain ⟨hproper, -, hcomp⟩ := hportable e .refl
  have hpart {room : ℕ} (x : Exp) (hx : Part e x) (h : NestsWithin room x) :
      isoequal true room x (reload place x) :=
    ih x hx (fun y hy => hportable y (.head hx hy)) h
  cases hnests with
  | immediate h => exact isoequal_immediate h
  | @list room content next hcontent hnext =>
    apply isoequal_of_objects
    rw [reload]
    have hhead : isoequal true room content (reload place content) :=
      isoequal_part fun h => hpart _ (.content h) hcontent
    have htail : isoPairs (isoequal true room) next (reload place next) := by
      have hnull : isoequal true room .null .null := isoequal_of_identical rfl
      cases hp : next.isPair with
      | false =>
        rw [hp, if_neg Bool.false_ne_true] at hnext
        rw [isoPairs_of_not_isPair hp]
        exact isoequal_part fun h => hpart _ (.next h) hnext
      | true =>
        rw [hp, if_pos rfl] at hnext
        cases next with
        | nil =>
          rw [reload]
          exact (Bool.and_eq_true _ _).mpr ⟨hnull, hnull⟩
        | pair content' next' =>
          have hrest := hpart _ (.next rfl) hnext
          rw [reload] at hrest ⊢
          exact hrest
        | _ => cases hp
    exact (Bool.and_eq_true _ _).mpr ⟨hhead, htail⟩
  | @other room _ hpair hparts hcells =>
    have hequal (h : isoObjects (isoequal true room) true e (reload place e)) :
        isoequal true (room + 1) e (reload place e) := isoequal_of_objects h
    cases e with
    | null | fix | char | type => exact isoequal_immediate rfl
    | nil =>
      apply hequal
      have hnull : isoequal true room .null .null := isoequal_of_identical rfl
      rw [reload]
      simp [isoObjects, isPair, isoPairs, hnull]
    | t =>
      apply hequal
      rw [reload]
      simp [isoObjects, isPair, boxedCells, isequal, symbolText, tText]
    | float bits =>
      apply hequal
      have hnan : Hamt.isNaN bits = false := hcomp
      rw [reload]
      · simp [isoObjects, isPair, boxedCells, isequal, floatEq_self hnan]
      all_goals simp
    | string | symbol | blob | rational | decimal =>
      apply hequal
      rw [reload]
      · simp [isoObjects, isPair, boxedCells, isequal, symbolText]
      all_goals simp
    | pair content next => exact absurd rfl (hpair content next)
    | vector cells =>
      apply hequal
      rw [reload]
      exact isEqv_map fun x hx => hpart x (.cell hx) (hparts x (.cell hx))
    | vectorI64 cells =>
      apply hequal
      rw [reload]
      · have hself : (cells.map Json.boxI64).isEqv ((cells.map Json.boxI64).map id)
            (isoequal true room) := by
          apply isEqv_map
          intro x hx
          obtain ⟨v, hv, rfl⟩ := List.mem_map.mp hx
          exact isoequal_boxed (boxI64_number (hproper.2 v hv)) (hcells _ rfl _ hx)
        rwa [List.map_id] at hself
      all_goals simp
    | vectorF64 cells =>
      apply hequal
      rw [reload]
      · have hself : (cells.map Exp.float).isEqv ((cells.map Exp.float).map id)
            (isoequal true room) := by
          apply isEqv_map
          intro x hx
          obtain ⟨bits, hbits, rfl⟩ := List.mem_map.mp hx
          exact isoequal_boxed (.inr ⟨bits, rfl, hcomp bits hbits⟩) (hcells _ rfl _ hx)
        rwa [List.map_id] at hself
      all_goals simp
    | dict d =>
      apply hequal
      have hok : d.Ok := hproper
      rw [reload_dict]
      have hkeys : (d.entries.map fun kv => (kv.1, reload place kv.2)).map Prod.fst =
          d.entries.map Prod.fst := by
        rw [List.map_map]
        rfl
      have hused : (Dict.ofList (d.entries.map fun kv => (kv.1, reload place kv.2))).used =
          d.used := by
        rw [Dict.used_ofList, hkeys, hok.distinct.dedup, List.length_map, hok.used_eq]
      simp only [isoObjects, hused, decide_true, Bool.true_and, List.all_eq_true]
      intro kv hkv
      have hfind : (Dict.ofList (d.entries.map fun kv => (kv.1, reload place kv.2))).find kv.1 =
          some (reload place kv.2) :=
        (Dict.find_ofList_eq_some (hkeys ▸ hok.distinct)).mpr (List.mem_map.mpr ⟨kv, hkv, rfl⟩)
      rw [hfind, Option.any_some]
      exact hpart _ (.dict hkv) (hparts _ (.dict hkv))
    | set d =>
      apply hequal
      obtain ⟨hok, hmem⟩ := hproper
      rw [reload_set_eq hmem hcomp]
      have hused : (Dict.ofList d.entries).used = d.used := by
        rw [Dict.used_ofList, hok.distinct.dedup, List.length_map, hok.used_eq]
      simp only [isoObjects, hused, decide_true, Bool.true_and, List.all_eq_true]
      intro kv hkv
      exact (Dict.find_ofList_isSome _).mpr (List.mem_map_of_mem hkv)
    | deque vals =>
      apply hequal
      rw [reload]
      exact isEqv_map fun x hx => hpart x (.deque hx) (hparts x (.deque hx))
    | hamt entries =>
      apply hequal
      have hkeys : ∀ kv ∈ entries, kv.1.hashedByValue ∧ isNaNKey kv.1 = false := fun kv hkv =>
        ⟨hcomp kv hkv, isNaNKey_eq_false (hportable _ (.single (.key hkv))).comparable⟩
      obtain ⟨es, -, hreload, hperm⟩ : ∃ es, hamtOfList (place (reloadEntries place entries))
          (reloadEntries place entries) = some es ∧ reload place (.hamt entries) = .hamt es ∧
            es.Perm (reloadEntries place entries) := reload_hamt hproper hkeys
      rw [hreload]
      have hlen : entries.length = es.length := by
        rw [hperm.length_eq, reloadEntries, List.length_map]
      simp only [isoObjects, hlen, decide_true, Bool.true_and, List.all_eq_true]
      intro kv hkv
      rw [hamtGet_reload hproper hkeys hperm hkv, Option.any_some]
      exact hpart _ (.val hkv) (hparts _ (.val hkv))
    | lambda multi name params body =>
      apply hequal
      obtain rfl : multi = false := hcomp
      rw [reload]
      have hparams := isoequal_part fun h => hpart _ (.params h) (hparts _ (.params h))
      have hbody := isoequal_part fun h => hpart _ (.body h) (hparts _ (.body h))
      simp [isoObjects, hparams, hbody]
    | expander name params body =>
      apply hequal
      rw [reload]
      have hparams := isoequal_part fun h => hpart _ (.macroParams h) (hparts _ (.macroParams h))
      have hbody := isoequal_part fun h => hpart _ (.macroBody h) (hparts _ (.macroBody h))
      simp [isoObjects, hparams, hbody]
    | foreign type => exact hcomp.elim

/-- **A value within the limits is restored.** The loader consumes exactly the bytes that the dump wrote,
whatever follows them in the file, and returns an equal value. -/
theorem load_dump {bytes : List UInt8} (hdump : dump session.toRegistry e = some bytes)
    (hportable : ∀ x, Inside e x → Portable session x)
    (hlevels : LevelsWithin alcoveLoadMaxDepth e) (hnests : NestsWithin isoMaxDepth e) :
    ∃ e', (∀ rest, (loadExp session alcoveLoadMaxDepth).Yields (bytes ++ rest) e' rest) ∧
      isoequal true isoMaxDepth e e' :=
  ⟨reload session.place e, loadExp_dump hportable hlevels bytes hdump,
    isoequal_reload hportable hnests⟩

/-- A process without classes and modules. -/
def bareSession : Session where
  toRegistry := bareRegistry
  typeId _ := 0
  typeId_of_name id name h := by cases h
  customLoad _ := none
  place _ i := UInt64.ofNat (16 * i + 16)

/-- The list `("t")`. -/
theorem load_dump_list : ∃ bytes e',
    dump bareSession.toRegistry (.pair (.string tText) .null) = some bytes ∧
      (∀ rest, (loadExp bareSession alcoveLoadMaxDepth).Yields (bytes ++ rest) e' rest) ∧
        isoequal true isoMaxDepth (.pair (.string tText) .null) e' := by
  have hstring : ∀ x, ¬ Part (.string tText) x := fun x h => by cases h
  have hpart : ∀ x, Part (.pair (.string tText) .null) x → x = .string tText := by
    intro x hx
    cases hx with
    | content => rfl
    | next h => cases h
  have hportable : ∀ x, Inside (.pair (.string tText) .null) x → Portable bareSession x := by
    intro x hx
    rcases hx.cases_head with rfl | ⟨y, hy, hyx⟩
    · exact ⟨trivial, trivial, trivial⟩
    · obtain rfl := hpart y hy
      rcases hyx.cases_head with rfl | ⟨z, hz, -⟩
      · exact ⟨trivial, by show tText.length ≤ _; decide, trivial⟩
      · exact absurd hz (hstring z)
  have hlevels : LevelsWithin alcoveLoadMaxDepth (.pair (.string tText) .null) :=
    .record fun x hx => hpart x hx ▸ .record fun y hy => absurd hy (hstring y)
  have hnests : NestsWithin isoMaxDepth (.pair (.string tText) .null) :=
    .list (.other (fun _ _ h => by cases h) (fun x hx => absurd hx (hstring x))
      fun cells h => by cases h) (.immediate rfl)
  have hsome : (dump bareSession.toRegistry (.pair (.string tText) .null)).isSome :=
    dump_isSome_iff.mpr fun x hx => by
      rcases hx.cases_head with rfl | ⟨y, hy, hyx⟩
      · trivial
      · obtain rfl := hpart y hy
        rcases hyx.cases_head with rfl | ⟨z, hz, -⟩
        · trivial
        · exact absurd hz (hstring z)
  obtain ⟨bytes, hbytes⟩ := Option.isSome_iff_exists.mp hsome
  obtain ⟨e', hload, hiso⟩ := load_dump hbytes hportable hlevels hnests
  exact ⟨bytes, e', hbytes, hload, hiso⟩

/-- **A text one byte longer than the loader allows is dumped and never loaded.** -/
theorem exists_unloadable : ∃ e bytes,
    isFullyDumpable bareSession.toRegistry (alcoveDumpableMaxDepth + 1) e = true ∧
      dump bareSession.toRegistry e = some bytes ∧
        ∀ e' pos, loadExp bareSession alcoveLoadMaxDepth bytes 0 ≠ .ok e' pos := by
  obtain ⟨m, hm⟩ : ∃ m, m = alcoveLoadMaxStrlen + 1 := ⟨_, rfl⟩
  have hnul : (0 : UInt8) ∉ List.replicate m 0x61 := fun h => by
    cases List.eq_of_mem_replicate h
  have hlen : (CStr.mk (List.replicate m 0x61) hnul).length = m := List.length_replicate
  generalize CStr.mk (List.replicate m 0x61) hnul = text at hlen
  refine ⟨.string text, _, rfl, by rw [dump], fun e' pos h => ?_⟩
  have hmax : alcoveLoadMaxStrlen + 1 < 256 ^ 8 := by decide
  have hrefuses : (loadExp bareSession alcoveLoadMaxDepth).Refuses
      (dumptype expString ++ dumpStr text) := by
    refine .after (yields_loadLe (by decide) _) ?_
    refine .bind (.after (yields_loadLe (by omega) _) ?_)
    rw [if_pos (by omega)]
    exact .fail
  obtain ⟨pos', hfail⟩ := hrefuses _ 0 (.start _)
  rw [hfail] at h
  cases h

end Alcove.Persist
