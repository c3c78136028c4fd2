import Alcove.Binding.Machine

/-!
# Lookups and assignments meet the same binding

In every state that steps reach, a symbol that caches a builtin has its name (`Ready.cached`), and
as long as no slot is bound under a name that a live slot of the same frame has already, the names
of each frame are distinct (`Ready.distinct`). Then the walks of `lookup`, `lookup_scoped` and the
assignments end at the same binding.

**Main result:** `lookups_agree`. In a run in which every name is bound to an inline slot of a frame
that has no live slot of this name, `lookup` and `lookup_scoped` return the same value, and a lookup
after an assignment returns the value assigned. Where a slot is bound under the name of another one
this fails (`lookups_disagree`): `lookup` sees the new slot and the others see the old one.
-/

namespace Alcove.Binding

open Lib

variable {V : Type}

/-! ## Frames with distinct names -/

namespace Frame

variable {e e' : Frame V}

/-- Distinctness is kept where no name and no live slot is added. -/
theorem Distinct.of_keys (h : e.Distinct) (hn : e'.nInline ≤ e.nInline)
    (hk : ∀ i < e'.nInline, ∀ key, e'.inlineKeys i = some key → e.inlineKeys i = some key) :
    e'.Distinct := by
  intro i j key hi hj hki hkj
  exact h i j key (by omega) (by omega) (hk i hi key hki) (hk j hj key hkj)

/-- **Distinctness is kept where new names are bound to new slots.** -/
theorem Distinct.extend (h : e.Distinct) (ks : List CStr) (hn : e'.nInline = e.nInline + ks.length)
    (hold : ∀ i < e.nInline, e'.inlineKeys i = e.inlineKeys i)
    (hnew : ∀ i < ks.length, e'.inlineKeys (e.nInline + i) = ks[i]?)
    (hks : ks.Nodup) (hfresh : ∀ k ∈ ks, k ∉ e.names) : e'.Distinct := by
  -- an old slot and a new one have different names
  have hcross : ∀ i j key, i < e.nInline → e.nInline ≤ j → j < e'.nInline →
      e'.inlineKeys i = some key → e'.inlineKeys j = some key → False := by
    intro i j key hi hj hj' hki hkj
    obtain ⟨k, rfl⟩ := Nat.exists_eq_add_of_le hj
    rw [hold i hi] at hki
    rw [hnew k (by omega)] at hkj
    exact hfresh key (List.mem_of_getElem? hkj) (mem_names.mpr ⟨i, hi, hki⟩)
  intro i j key hi hj hki hkj
  rcases Nat.lt_or_ge i e.nInline with hi' | hi' <;> rcases Nat.lt_or_ge j e.nInline with hj' | hj'
  · rw [hold i hi'] at hki
    rw [hold j hj'] at hkj
    exact h i j key hi' hj' hki hkj
  · exact (hcross i j key hi' hj' hj hki hkj).elim
  · exact (hcross j i key hj' hi' hi hkj hki).elim
  · obtain ⟨a, rfl⟩ := Nat.exists_eq_add_of_le hi'
    obtain ⟨b, rfl⟩ := Nat.exists_eq_add_of_le hj'
    rw [hnew a (by omega)] at hki
    rw [hnew b (by omega)] at hkj
    rw [(List.getElem?_inj (by omega) hks).mp (hki.trans hkj.symm)]

theorem distinct_fresh (stale : Stale V) : (fresh stale).Distinct := by
  intro i j key hi
  exact absurd hi (Nat.not_lt_zero i)

theorem Distinct.define (h : e.Distinct) (key : CStr) (v : V) : (e.define key v).Distinct := h

theorem Distinct.write (h : e.Distinct) (key : CStr) (v : V) (p : Place) :
    (e.write key v p).Distinct := by
  cases p with
  | slot i => exact h
  | dict => exact h

theorem Distinct.bindVar (h : e.Distinct) {name : CStr} {v : V}
    (hfresh : e.nInline < envInlineSlots → name ∉ e.names) : (e.bindVar name v).Distinct := by
  rw [Frame.bindVar]
  split
  · rename_i hroom
    refine h.extend [name] rfl (fun i hi => ?_) (fun i hi => ?_) (List.nodup_singleton _) ?_
    · exact Function.update_of_ne (Nat.ne_of_lt hi) _ _
    · obtain rfl : i = 0 := by simpa using hi
      exact Function.update_self _ _ _
    · intro k hk
      rw [List.mem_singleton.mp hk]
      exact hfresh hroom
  · exact h.define name v

/-- What a compiled `let` leaves in the slots. -/
theorem bindLet_spec (e : Frame V) (bs : List (CStr × V)) : ∀ start, e.nInline ≤ start →
    (e.bindLet start bs).nInline = (if bs = [] then e.nInline else start + bs.length) ∧
    (∀ i < start, (e.bindLet start bs).inlineKeys i = e.inlineKeys i) ∧
    ∀ i < bs.length, (e.bindLet start bs).inlineKeys (start + i) = (bs.map Prod.fst)[i]? := by
  induction bs with
  | nil => exact fun start _ => ⟨rfl, fun i _ => rfl, fun i hi => absurd hi (Nat.not_lt_zero i)⟩
  | cons b rest ih =>
    intro start hstart
    obtain ⟨hn, hold, hnew⟩ := ih (start + 1) (by omega)
    refine ⟨?_, fun i hi => ?_, fun i hi => ?_⟩
    · rw [bindLet, bindSlot_nInline, hn, if_neg (List.cons_ne_nil b rest), List.length_cons]
      cases rest with
      | nil => exact if_pos hstart
      | cons c rest =>
        rw [if_neg (List.cons_ne_nil c rest), if_neg (by omega)]
        omega
    · rw [bindLet, bindSlot_keys]
      exact (Function.update_of_ne (Nat.ne_of_lt hi) _ _).trans (hold i (by omega))
    · rw [bindLet, bindSlot_keys]
      cases i with
      | zero => exact Function.update_self _ _ _
      | succ i =>
        rw [List.length_cons] at hi
        refine (Function.update_of_ne (by omega) _ _).trans ?_
        rw [show start + (i + 1) = start + 1 + i by omega, hnew i (by omega)]
        rfl

theorem Distinct.bindLet (h : e.Distinct) {bs : List (CStr × V)} (hd : (bs.map Prod.fst).Nodup)
    (hfresh : ∀ k ∈ bs.map Prod.fst, k ∉ e.names) : (e.bindLet e.nInline bs).Distinct := by
  obtain ⟨hn, hold, hnew⟩ := bindLet_spec e bs e.nInline (Nat.le_refl _)
  refine h.extend (bs.map Prod.fst) ?_ hold (by simpa using hnew) hd hfresh
  rw [hn, List.length_map]
  cases bs with
  | nil => rfl
  | cons b rest => rw [if_neg (List.cons_ne_nil b rest)]

/-- The hidden slot of a `for` has no name. -/
theorem Distinct.bindSlot (h : e.Distinct) (v : V) : (e.bindSlot e.nInline none v).Distinct := by
  -- a slot without a name cannot have the name of another one
  have hkey : ∀ i key, (e.bindSlot e.nInline none v).inlineKeys i = some key →
      i ≠ e.nInline ∧ e.inlineKeys i = some key := by
    intro i key hi
    by_cases hie : i = e.nInline
    · rw [hie, bindSlot_keys, Function.update_self] at hi
      cases hi
    · exact ⟨hie, (Function.update_of_ne hie _ _).symm.trans hi⟩
  have hn : (e.bindSlot e.nInline none v).nInline = e.nInline + 1 := if_pos (Nat.le_refl _)
  intro i j key hi hj hki hkj
  obtain ⟨hi', hki'⟩ := hkey i key hki
  obtain ⟨hj', hkj'⟩ := hkey j key hkj
  exact h i j key (by omega) (by omega) hki' hkj'

theorem Distinct.unbindSlot (h : e.Distinct) (idx : ℕ) : (e.unbindSlot idx).Distinct := by
  refine h.of_keys ?_ fun i _ key hi => ?_
  · rw [unbindSlot_nInline]
    split <;> omega
  · by_cases hie : i = idx
    · rw [hie, unbindSlot_keys, Function.update_self] at hi
      cases hi
    · exact (Function.update_of_ne hie _ _).symm.trans hi

theorem Distinct.tailSelf (h : e.Distinct) {args : List V} (hn : args.length ≤ e.nInline) :
    (e.tailSelf args).Distinct :=
  h.of_keys (Nat.le_trans (Nat.min_le_left _ _) hn) fun _ _ _ hi => hi

theorem Distinct.release (h : e.Distinct) : e.release.Distinct :=
  h.of_keys (Nat.zero_le _) fun _ _ _ hi => hi

theorem Distinct.ofHandler (h : e.Distinct) (stale : Stale V) : (e.ofHandler stale).Distinct := by
  refine h.of_keys (Nat.le_refl _) fun i hi key hki => ?_
  have hi' : i < e.nInline := hi
  simpa only [Frame.ofHandler, if_pos hi'] using hki

end Frame

/-! ## A store and the walk after it -/

namespace Frame

variable {e : Frame V} {key : CStr} {v : V} {p : Place}

theorem find_write (h : e.find scanUp key = some p) :
    (e.write key v p).find scanUp key = some p ∧ (e.write key v p).read key p = some v := by
  cases p with
  | slot i => exact ⟨h, Function.update_self _ _ _⟩
  | dict =>
    cases hscan : scanUp e key with
    | some i =>
      rw [find, hscan] at h
      cases h
    | none =>
      rw [find, hscan] at h
      cases hd : e.d with
      | none => simp [entry, hd] at h
      | some d =>
        have hentry : (e.write key v .dict).entry key = some v := by
          simp [write, entry, hd]
        have hscan' : scanUp (e.write key v .dict) key = none := hscan
        exact ⟨by rw [find, hscan', hentry]; rfl, hentry⟩

theorem find_define (h : e.find scanUp key = none) :
    (e.define key v).find scanUp key = some .dict ∧ (e.define key v).read key .dict = some v := by
  have hentry : (e.define key v).entry key = some v := by simp [define, entry]
  cases hscan : scanUp e key with
  | some i =>
    rw [find, hscan] at h
    cases h
  | none =>
    have hscan' : scanUp (e.define key v) key = none := hscan
    exact ⟨by rw [find, hscan', hentry]; rfl, hentry⟩

end Frame

namespace Heap

variable {h : Heap V} {key : CStr} {v : V} {env i : ℕ} {p : Place}

/-- No frame has two live slots of one name. -/
def Distinct (h : Heap V) : Prop :=
  ∀ (i : ℕ) (e : Env V), h.envs[i]? = some e → e.toFrame.Distinct

theorem Distinct.modify (hd : h.Distinct) {f : Frame V → Frame V}
    (hf : ∀ e : Env V, h.envs[i]? = some e → (f e.toFrame).Distinct) :
    (h.modify i f).Distinct := by
  intro j e' hj
  rw [getElem?_modify] at hj
  obtain ⟨e, he, rfl⟩ := Option.map_eq_some_iff.mp hj
  split
  · rename_i hij
    subst hij
    exact hf e he
  · exact hd j e he

theorem Distinct.push (hd : h.Distinct) {e : Env V} (hr : ∀ r ∈ e.root, r < h.envs.length)
    (he : e.toFrame.Distinct) : (h.push e hr).Distinct := by
  intro i e' hi
  have hmem : e' ∈ h.envs ++ [e] := List.mem_of_getElem? hi
  rw [List.mem_append, List.mem_singleton] at hmem
  rcases hmem with hmem | rfl
  · obtain ⟨j, hj⟩ := List.mem_iff_getElem?.mp hmem
    exact hd j e' hj
  · exact he

theorem Distinct.write (hd : h.Distinct) (key : CStr) (v : V) (found : ℕ × Place) :
    (h.write key v found).Distinct :=
  hd.modify fun e he => (hd _ e he).write key v found.2

theorem Distinct.define (hd : h.Distinct) (i : ℕ) (key : CStr) (v : V) :
    (h.define i key v).Distinct :=
  hd.modify fun e he => (hd i e he).define key v

theorem Distinct.setqStoreSymbol (hd : h.Distinct) :
    (Binding.setqStoreSymbol h key env v).Distinct := by
  rw [Binding.setqStoreSymbol]
  split
  · exact hd.write _ _ _
  · exact hd.define _ _ _

/-- **After a store the walk ends where it did, and there is the value.** -/
theorem walk_write (hw : h.walk scanUp (some env) key = some (i, p)) :
    (h.write key v (i, p)).walk scanUp (some env) key = some (i, p) ∧
      (h.write key v (i, p)).read key (i, p) = some v := by
  obtain ⟨e, he, hp⟩ := find_of_walk hw
  obtain ⟨hfind, hread⟩ := Frame.find_write (v := v) hp
  constructor
  · rw [← hw]
    refine walk_congr (chain_modify _) fun j => ?_
    rw [Heap.write, getElem?_modify, Option.map_map]
    cases hj : h.envs[j]? with
    | none => rfl
    | some e' =>
      simp only [Option.map_some, Function.comp_apply]
      split
      · rename_i hij
        obtain rfl : e = e' := Option.some.inj (he.symm.trans (hij ▸ hj))
        exact congrArg some (hfind.trans hp.symm)
      · rfl
  · rw [Heap.read, Heap.write, getElem?_modify, he]
    simpa using hread

/-- **After a new binding was made the walk ends at once.** -/
theorem walk_define (henv : env < h.envs.length) (hw : h.walk scanUp (some env) key = none) :
    (h.define env key v).walk scanUp (some env) key = some (env, .dict) ∧
      (h.define env key v).read key (env, .dict) = some v := by
  obtain ⟨e, he⟩ : ∃ e, h.envs[env]? = some e := ⟨_, List.getElem?_eq_getElem henv⟩
  have hnone : e.find scanUp key = none := by
    rw [walk, chain_some, List.findSome?_eq_none_iff] at hw
    have hhead := hw env List.mem_cons_self
    rw [he, Option.bind_some, Option.map_eq_none_iff] at hhead
    exact hhead
  obtain ⟨hfind, hread⟩ := Frame.find_define (v := v) hnone
  constructor
  · rw [walk, chain_some, List.findSome?_cons, Heap.define, getElem?_modify, he]
    simp [hfind]
  · rw [Heap.read, Heap.define, getElem?_modify, he]
    simpa using hread

end Heap

/-! ## The invariant -/

/-- What holds in every state: the frames, also the saved ones, have distinct names, and a symbol
caches builtins only. -/
structure Ready (σ : State V) : Prop where
  distinct : σ.heap.Distinct
  saved : ∀ e ∈ σ.handlers, e.toFrame.Distinct
  cached : ∀ s ∈ σ.symbols, s.cached.isSome → (σ.reserved.find s.text).isSome

/-- A name is bound to an inline slot of a frame that has no live slot of this name. -/
def bindsFresh (σ : State V) : Step V → Bool
  | .bindVar env name _ =>
    (σ.heap.envs[env]?).all fun e => e.nInline < envInlineSlots → name ∉ e.names
  | .bindLet env bs =>
    (σ.heap.envs[env]?).all fun e => (bs.map Prod.fst).Nodup ∧ ∀ k ∈ bs.map Prod.fst, k ∉ e.names
  | _ => true

namespace Ready

variable {σ σ' : State V}

theorem init (stale : Stale V) (reserved : Scope V) : Ready (State.init stale reserved) where
  distinct := Heap.Distinct.push (fun i e hi => by simp at hi) (by simp)
    (Frame.distinct_fresh stale)
  saved := by simp [State.init]
  cached := by simp [State.init]

theorem of_heap (h : Ready σ) {heap : Heap V} (hd : heap.Distinct) :
    Ready { σ with heap := heap } := ⟨hd, h.saved, h.cached⟩

theorem change (h : Ready σ) {i : ℕ} {ok : Frame V → Bool} {f : Frame V → Frame V}
    (hs : σ.change i ok f = some σ')
    (hf : ∀ e : Env V, σ.heap.envs[i]? = some e → ok e.toFrame = true → (f e.toFrame).Distinct) :
    Ready σ' := by
  rw [State.change] at hs
  split at hs
  · rename_i e he
    split at hs
    · rename_i hok
      obtain rfl := Option.some.inj hs
      refine h.of_heap (h.distinct.modify fun e' he' => ?_)
      obtain rfl : e = e' := Option.some.inj (he.symm.trans he')
      exact hf e he hok
    · cases hs
  · cases hs

theorem push (h : Ready σ) {e : Env V} (he : e.toFrame.Distinct) (hs : σ.push e = some σ') :
    Ready σ' := by
  rw [State.push] at hs
  split at hs
  · obtain rfl := Option.some.inj hs
    exact h.of_heap (h.distinct.push _ he)
  · cases hs

/-- A symbol that a lookup leaves caches what it found in `reserved`. -/
theorem cache (h : Ready σ) {s : ℕ} {sym sym' : Symbol V} (hsym : σ.symbols[s]? = some sym)
    (hc : sym' = sym ∨ (sym'.text = sym.text ∧ (σ.reserved.find sym.text).isSome)) :
    Ready (σ.cache s sym') where
  distinct := h.distinct
  saved := h.saved
  cached := by
    intro t ht htc
    rcases List.mem_or_eq_of_mem_set ht with ht | rfl
    · exact h.cached t ht htc
    · rcases hc with rfl | ⟨htext, hres⟩
      · exact h.cached _ (List.mem_of_getElem? hsym) htc
      · rw [htext]
        exact hres

theorem lookup_symbol (σ : State V) (s : Symbol V) (env : Option ℕ) :
    (lookup σ s env).2 = s ∨
      ((lookup σ s env).2.text = s.text ∧ (σ.reserved.find s.text).isSome) := by
  rw [lookup]
  split
  · exact .inl rfl
  · split
    · rename_i v hv
      exact .inr ⟨rfl, by rw [hv]; rfl⟩
    · exact .inl rfl

theorem lookupScoped_symbol (σ : State V) (s : Symbol V) (env : Option ℕ) :
    (lookupScoped σ s env).2.2 = s ∨
      ((lookupScoped σ s env).2.2.text = s.text ∧ (σ.reserved.find s.text).isSome) := by
  rw [lookupScoped]
  split
  · exact .inl rfl
  · split
    · rename_i v hv
      exact .inr ⟨rfl, by rw [hv]; rfl⟩
    · split <;> exact .inl rfl

theorem updatebang {guard isSymbol : Bool} {key : CStr} {env : ℕ} {v : V} (h : Ready σ)
    (hu : Binding.updatebang σ guard isSymbol key env v = .ok σ') : Ready σ' := by
  rw [Binding.updatebang] at hu
  split at hu
  · cases hu
  · cases ha : assignStoreSymbol σ.heap guard key env v with
    | error err =>
      rw [ha] at hu
      cases hu
    | ok heap =>
      rw [ha] at hu
      obtain rfl := Except.ok.inj hu
      refine h.of_heap ?_
      rcases Heap.assignStoreSymbol_cases ha with ⟨found, -, rfl⟩ | ⟨-, rfl⟩
      · exact h.distinct.write _ _ _
      · exact h.distinct.define _ _ _

/-- **A step that binds names freshly keeps the invariant.** -/
theorem step {l : Step V} (h : Ready σ) (hok : bindsFresh σ l = true)
    (hs : Binding.step σ l = some σ') : Ready σ' := by
  cases l with
  | makeEnv root stale => exact h.push (Frame.distinct_fresh stale) hs
  | bindVar env name v =>
    rw [Binding.step] at hs
    refine h.change hs fun e he _ => (h.distinct env e he).bindVar ?_
    rw [bindsFresh, he] at hok
    exact of_decide_eq_true hok
  | bindLet env bs =>
    rw [Binding.step] at hs
    refine h.change hs fun e he _ => ?_
    have hfresh : (bs.map Prod.fst).Nodup ∧ ∀ k ∈ bs.map Prod.fst, k ∉ e.names := by
      rw [bindsFresh, he] at hok
      exact of_decide_eq_true hok
    exact (h.distinct env e he).bindLet hfresh.1 hfresh.2
  | bindSlot env v =>
    rw [Binding.step] at hs
    exact h.change hs fun e he _ => (h.distinct env e he).bindSlot v
  | unbindSlot env idx =>
    rw [Binding.step] at hs
    exact h.change hs fun e he _ => (h.distinct env e he).unbindSlot idx
  | storeSlot env idx v =>
    rw [Binding.step] at hs
    exact h.change hs fun e he _ => h.distinct env e he
  | tailSelf env args =>
    rw [Binding.step] at hs
    exact h.change hs fun e he hn => (h.distinct env e he).tailSelf (of_decide_eq_true hn)
  | tailCall env =>
    rw [Binding.step] at hs
    exact h.change hs fun e he _ => (h.distinct env e he).release
  | updatebang guard isSymbol key env v =>
    rw [Binding.step] at hs
    split at hs
    · cases hu : Binding.updatebang σ guard isSymbol key env v with
      | error err =>
        rw [hu] at hs
        cases hs
      | ok σ₁ =>
        rw [hu] at hs
        obtain rfl := Option.some.inj hs
        exact h.updatebang hu
    · cases hs
  | setq key env v =>
    rw [Binding.step] at hs
    split at hs
    · obtain rfl := Option.some.inj hs
      exact h.of_heap h.distinct.setqStoreSymbol
    · cases hs
  | define env key v =>
    rw [Binding.step] at hs
    exact h.change hs fun e he _ => (h.distinct env e he).define key v
  | forget env key =>
    rw [Binding.step] at hs
    exact h.change hs fun e he _ => h.distinct env e he
  | pushHandler env =>
    obtain ⟨e, he, rfl⟩ := Option.map_eq_some_iff.mp hs
    refine ⟨h.distinct, fun e' he' => ?_, h.cached⟩
    rcases List.mem_cons.mp he' with rfl | he'
    · exact h.distinct env e' he
    · exact h.saved e' he'
  | handlerEnv k stale =>
    obtain ⟨saved, hk, hpush⟩ := Option.bind_eq_some_iff.mp hs
    exact h.push ((h.saved saved (List.mem_of_getElem? hk)).ofHandler stale) hpush
  | popHandler =>
    obtain rfl := Option.some.inj hs
    exact ⟨h.distinct, fun e he => h.saved e (List.mem_of_mem_tail he), h.cached⟩
  | readSymbol text =>
    obtain rfl := Option.some.inj hs
    refine ⟨h.distinct, h.saved, fun s hm hc => ?_⟩
    rcases List.mem_append.mp hm with hm | hm
    · exact h.cached s hm hc
    · rw [List.mem_singleton.mp hm] at hc
      cases hc
  | lookup s env =>
    obtain ⟨sym, hsym, rfl⟩ := Option.map_eq_some_iff.mp hs
    exact h.cache hsym (lookup_symbol σ sym env)
  | lookupScoped s env =>
    obtain ⟨sym, hsym, rfl⟩ := Option.map_eq_some_iff.mp hs
    exact h.cache hsym (lookupScoped_symbol σ sym env)
  | registerCmd name v =>
    obtain rfl := Option.some.inj hs
    refine ⟨h.distinct, h.saved, fun s hm hc => ?_⟩
    have hold := h.cached s hm hc
    simp only [Scope.find_set]
    split
    · rfl
    · exact hold
  | registerType name =>
    obtain rfl := Option.some.inj hs
    exact ⟨h.distinct, h.saved, h.cached⟩

end Ready

/-! ## The lookups agree -/

/-- Every lookup of a symbol of the state sees the same binding, and an assignment that is not
refused is seen by the lookups after it. -/
structure Agree (σ : State V) : Prop where
  lookups : ∀ s ∈ σ.symbols, ∀ env, (lookup σ s env).1 = (lookupScoped σ s env).1
  assignments : ∀ s ∈ σ.symbols, ∀ env < σ.heap.envs.length, ∀ guard v σ',
    updatebang σ guard true s.text env v = .ok σ' → (lookup σ' s (some env)).1 = some v

section Agree

variable {σ σ' : State V} {s : Symbol V}

/-- A symbol that is not reserved is looked up by a walk, in either direction. -/
theorem lookup_of_not_reserved (hd : σ.heap.Distinct) (hc : s.cached = none)
    (hr : σ.reserved.find s.text = none) (env : Option ℕ) :
    (lookup σ s env).1 = (σ.heap.walk scanUp env s.text).bind (σ.heap.read s.text) := by
  rw [lookup, hc]
  simp only [hr, Heap.walk_scanUp hd]

theorem Ready.lookups (h : Ready σ) (s : Symbol V) (env : Option ℕ) :
    (lookup σ s env).1 = (lookupScoped σ s env).1 := by
  cases hc : s.cached with
  | some v => simp only [lookup, lookupScoped, hc]
  | none =>
    cases hr : σ.reserved.find s.text with
    | some v => simp only [lookup, lookupScoped, hc, hr]
    | none =>
      rw [lookup_of_not_reserved h.distinct hc hr, lookupScoped, hc]
      simp only [hr]
      cases σ.heap.walk scanUp env s.text with
      | none => rfl
      | some found => rfl

theorem Ready.assignments (h : Ready σ) (hs : s ∈ σ.symbols) {env : ℕ}
    (henv : env < σ.heap.envs.length) {guard : Bool} {v : V}
    (hu : Binding.updatebang σ guard true s.text env v = .ok σ') :
    (lookup σ' s (some env)).1 = some v := by
  have hready : Ready σ' := h.updatebang hu
  rw [Binding.updatebang] at hu
  split at hu
  · cases hu
  rename_i hname
  -- the name is not reserved, so the symbol cannot have cached a builtin
  have hres : σ.reserved.find s.text = none := by
    rw [Bool.true_and, isReservedName, Bool.or_eq_true, not_or] at hname
    simpa using hname.1
  have hcache : s.cached = none := by
    by_contra hne
    have hsome := h.cached s hs (Option.isSome_iff_ne_none.mpr hne)
    rw [hres] at hsome
    cases hsome
  cases ha : assignStoreSymbol σ.heap guard s.text env v with
  | error err =>
    rw [ha] at hu
    cases hu
  | ok heap =>
    rw [ha] at hu
    obtain rfl := Except.ok.inj hu
    rw [lookup_of_not_reserved hready.distinct hcache hres]
    rcases Heap.assignStoreSymbol_cases ha with ⟨found, hw, rfl⟩ | ⟨hw, rfl⟩
    · obtain ⟨hwalk, hread⟩ := Heap.walk_write (v := v) hw
      simp only [hwalk, Option.bind_some, hread]
    · obtain ⟨hwalk, hread⟩ := Heap.walk_define (v := v) henv hw
      simp only [hwalk, Option.bind_some, hread]

/-- **In a run in which every name is bound to an inline slot of a frame that has no live slot of
this name, the lookups and the assignments meet the same bindings.** -/
theorem lookups_agree {stale : Stale V} {reserved : Scope V} {ls : List (Step V)}
    (h : Path step (fun σ l => bindsFresh σ l = true) (State.init stale reserved) ls σ) :
    Agree σ := by
  have hready : Ready σ :=
    h.invariant (fun _ _ _ hI hok hstep => hI.step hok hstep) (Ready.init stale reserved)
  exact ⟨fun s _ env => hready.lookups s env, fun s hs env henv guard v σ' hu =>
    hready.assignments hs henv hu⟩

end Agree

/-! ## A let that shadows a parameter -/

/-- `x` -/
def nameX : CStr := CStr.ofBytes [120]

/-- `y` -/
def nameY : CStr := CStr.ofBytes [121]

/-- Fresh arrays. -/
def zeroed : Stale ℕ := ⟨fun _ => none, fun _ => none⟩

/-- `(f 10)` for `(def f (x) (let x' v (map (fn (y) ...) (list 1))))`, up to the call of the inner
function; `x'` is the name that the `let` binds. -/
def callInLet (name : CStr) : List (Step ℕ) :=
  [.readSymbol nameX, .makeEnv (some 0) zeroed, .bindVar 1 nameX 10, .bindLet 1 [(name, 2)],
    .makeEnv (some 1) zeroed, .bindVar 2 nameY 1]

/-- **Lookups disagree under a `let` that shadows a parameter**: `lookup` sees the `let`,
`lookup_scoped` the parameter, and so does an assignment, which leaves what `lookup` sees. -/
theorem lookups_disagree :
    ∃ σ σ', run step (State.init zeroed Scope.create) (callInLet nameX) = some σ ∧
      σ.symbols = [⟨nameX, none⟩] ∧
      (lookup σ ⟨nameX, none⟩ (some 2)).1 = some 2 ∧
      (lookupScoped σ ⟨nameX, none⟩ (some 2)).1 = some 10 ∧
      updatebang σ false true nameX 2 7 = .ok σ' ∧
      (lookup σ' ⟨nameX, none⟩ (some 2)).1 = some 2 ∧ ¬ Agree σ := by
  refine ⟨_, _, rfl, rfl, by decide, by decide, rfl, by decide, fun h => ?_⟩
  have hne := h.lookups ⟨nameX, none⟩ List.mem_cons_self (some 2)
  revert hne
  decide

/-- With another name the run meets the condition. -/
theorem lookups_agree_let :
    ∃ σ, run step (State.init zeroed Scope.create) (callInLet (CStr.ofBytes [122])) = some σ ∧
      Agree σ := by
  obtain ⟨σ, hrun⟩ : ∃ σ, run (guarded step bindsFresh) (State.init zeroed Scope.create)
      (callInLet (CStr.ofBytes [122])) = some σ := Option.isSome_iff_exists.mp (by decide)
  have hpath := path_of_run_guarded hrun
  exact ⟨σ, hpath.run, lookups_agree hpath⟩

end Alcove.Binding
