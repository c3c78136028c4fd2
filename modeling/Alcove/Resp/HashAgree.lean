import Alcove.Resp.Hash
import Alcove.Resp.Parser

/-!
# The hash commands and a finite map

A hash stands for the map from the bytes of its keys to its values (`Repr`). Every command on it replies
what the map says, and leaves a hash that stands for the map afterwards (`Answered`).

**Main result:** `session_agrees`. A session of hash commands on one key replies as a finite map does in
which no field has a NUL byte.
-/

namespace Alcove.Resp

open Lfkv

/-! ## A hash and its map -/

theorem respDupKey_bytes (fk : CStr) : respDupKey fk.bytes = some fk := by
  rw [respDupKey, dif_pos fk.noNul]

theorem respDupKey_eq_some {f : Bytes} {fk : CStr} : respDupKey f = some fk ↔ f = fk.bytes := by
  refine ⟨fun h => ?_, fun h => h ▸ respDupKey_bytes fk⟩
  rw [respDupKey] at h
  split at h
  · cases h
    rfl
  · cases h

theorem storable_iff {f : Bytes} : storable f = true ↔ ∃ fk : CStr, f = fk.bytes := by
  rw [storable, Bool.not_eq_true', ← Bool.not_eq_true, List.contains_iff_mem]
  exact ⟨fun h => ⟨⟨f, h⟩, rfl⟩, fun ⟨fk, h⟩ => h ▸ fk.noNul⟩

theorem respDupKey_eq_none {f : Bytes} : respDupKey f = none ↔ storable f = false := by
  rw [← Bool.not_eq_true, storable_iff, Option.eq_none_iff_forall_ne_some, not_exists]
  exact forall_congr' fun fk => not_congr respDupKey_eq_some

/-- The hash is sound, and stands for the map. -/
structure Repr (d : Dict Bytes) (m : FieldMap) : Prop where
  ok : d.Ok
  find : ∀ f, m f = (respDupKey f).bind d.find

namespace Repr

variable {d : Dict Bytes} {m : FieldMap}

theorem create : Repr Dict.create FieldMap.empty where
  ok := Dict.ok_create
  find f := by
    cases respDupKey f <;> rfl

theorem clone (h : Repr d m) : Repr (respDictClone d) m where
  ok := Dict.ok_ofList _
  find f := by
    rw [h.find]
    refine congrArg _ (funext fun fk => Option.ext fun v => ?_)
    rw [respDictClone, Dict.find_ofList_eq_some h.ok.distinct, h.ok.find_eq_some]

theorem used_clone (h : Repr d m) : (respDictClone d).used = d.used := by
  rw [respDictClone, Dict.used_ofList, h.ok.distinct.dedup, List.length_map, h.ok.used_eq]

theorem set (h : Repr d m) (fk : CStr) (v : Bytes) :
    Repr (d.set fk v) (Function.update m fk.bytes (some v)) where
  ok := h.ok.set
  find f := by
    by_cases hf : f = fk.bytes
    · rw [hf, Function.update_self, respDupKey_bytes, Option.bind_some, h.ok.find_set, if_pos rfl]
    · rw [Function.update_of_ne hf, h.find]
      cases hk : respDupKey f with
      | none => rfl
      | some k =>
        have hne : k ≠ fk := fun he => hf (he ▸ respDupKey_eq_some.mp hk)
        rw [Option.bind_some, Option.bind_some, h.ok.find_set, if_neg hne]

theorem erase (h : Repr d m) (fk : CStr) : Repr (d.erase fk).1 (m.delAll [fk.bytes]) where
  ok := h.ok.erase
  find f := by
    rw [FieldMap.delAll]
    by_cases hf : f = fk.bytes
    · rw [if_pos (List.mem_singleton.mpr hf), hf, respDupKey_bytes, Option.bind_some, h.ok.find_erase,
        if_pos rfl]
    · rw [if_neg fun hm => hf (List.mem_singleton.mp hm), h.find]
      cases hk : respDupKey f with
      | none => rfl
      | some k =>
        have hne : k ≠ fk := fun he => hf (he ▸ respDupKey_eq_some.mp hk)
        rw [Option.bind_some, Option.bind_some, h.ok.find_erase, if_neg hne]

/-- The entries of the hash, with the bytes of their keys. -/
def fields (d : Dict Bytes) : List (Bytes × Bytes) := d.entries.map fun kv => (kv.1.bytes, kv.2)

theorem lists (h : Repr d m) : m.Lists (fields d) where
  nodup := by
    rw [fields, List.map_map]
    have hmap : d.entries.map (Prod.fst ∘ fun kv : CStr × Bytes => (kv.1.bytes, kv.2)) =
        (d.entries.map Prod.fst).map CStr.bytes := by rw [List.map_map]; rfl
    rw [hmap]
    exact h.ok.distinct.map fun _ _ he => CStr.ext he
  mem f v := by
    rw [h.find, Option.bind_eq_some_iff, fields, List.mem_map]
    constructor
    · rintro ⟨⟨k, w⟩, hm, he⟩
      cases he
      exact ⟨k, respDupKey_bytes k, h.ok.find_eq_some.mpr hm⟩
    · rintro ⟨k, hk, hv⟩
      exact ⟨(k, v), h.ok.find_eq_some.mp hv, by rw [respDupKey_eq_some.mp hk]⟩

theorem length_fields (h : Repr d m) : (fields d).length = d.used := by
  rw [fields, List.length_map, h.ok.used_eq]

theorem dom_eq (h : Repr d m) : m.dom = ((fields d).map Prod.fst).toFinset := by
  ext f
  rw [FieldMap.dom, Set.mem_ofPred_eq, Option.ne_none_iff_exists', Finset.mem_coe, List.mem_toFinset,
    List.mem_map]
  constructor
  · rintro ⟨v, hv⟩
    exact ⟨(f, v), (h.lists.mem f v).mpr hv, rfl⟩
  · rintro ⟨⟨f', v⟩, hm, rfl⟩
    exact ⟨v, (h.lists.mem f' v).mp hm⟩

theorem finite_dom (h : Repr d m) : m.dom.Finite := by
  rw [h.dom_eq]
  exact Finset.finite_toSet _

/-- **`used` is the size of the map.** -/
theorem ncard_dom (h : Repr d m) : m.dom.ncard = d.used := by
  rw [h.dom_eq, Set.ncard_coe_finset, List.toFinset_card_of_nodup h.lists.nodup, List.length_map,
    h.length_fields]

end Repr

/-! ## The loops over the arguments -/

theorem FieldMap.dom_setAll (m : FieldMap) (kvs : List (Bytes × Bytes)) : m.dom ⊆ (m.setAll kvs).dom := by
  induction kvs generalizing m with
  | nil => exact subset_rfl
  | cons p kvs ih =>
    refine Set.Subset.trans (fun f hf => ?_) (ih (Function.update m p.1 (some p.2)))
    by_cases hp : f = p.1
    · simp [FieldMap.dom, hp]
    · simpa [FieldMap.dom, Function.update_of_ne hp] using hf

theorem FieldMap.dom_delAll (m : FieldMap) (fs : List Bytes) : (m.delAll fs).dom ⊆ m.dom := by
  intro f hf
  by_cases hm : f ∈ fs
  · simp [FieldMap.dom, FieldMap.delAll, hm] at hf
  · simpa [FieldMap.dom, FieldMap.delAll, hm] using hf

theorem FieldMap.delAll_cons (m : FieldMap) (f : Bytes) (fs : List Bytes) :
    m.delAll (f :: fs) = (m.delAll [f]).delAll fs := by
  funext g
  by_cases hf : g = f <;> by_cases hm : g ∈ fs <;> simp [FieldMap.delAll, hf, hm]

theorem respDictFieldSet_used {d : Dict Bytes} (h : d.Ok) (fk : CStr) (v : Bytes) :
    (respDictFieldSet d fk v).1.used = d.used + (respDictFieldSet d fk v).2 := by
  simp only [respDictFieldSet, h.used_set]
  split <;> simp

theorem setFields_repr : ∀ (args : List Bytes) {d : Dict Bytes} {m : FieldMap}, Repr d m →
    Repr (setFields d args).1 (m.setAll ((pairs args).filter fun p => storable p.1)) ∧
      (setFields d args).1.used = d.used + (setFields d args).2
  | [], _, _, h => ⟨h, rfl⟩
  | [_], _, _, h => ⟨h, rfl⟩
  | f :: v :: args, d, m, h => by
    rw [setFields, pairs, List.filter_cons]
    cases hk : respDupKey f with
    | none =>
      rw [if_neg (by rw [respDupKey_eq_none.mp hk]; exact Bool.false_ne_true)]
      exact setFields_repr args h
    | some fk =>
      have hf := respDupKey_eq_some.mp hk
      rw [if_pos (storable_iff.mpr ⟨fk, hf⟩), hf]
      obtain ⟨hrepr, hused⟩ := setFields_repr args (h.set fk v)
      have hone := respDictFieldSet_used h.ok fk v
      refine ⟨hrepr, ?_⟩
      dsimp only [respDictFieldSet] at hone ⊢
      rw [hused, ← Nat.add_assoc, ← hone]

theorem delFields_repr : ∀ (args : List Bytes) {d : Dict Bytes} {m : FieldMap}, Repr d m →
    Repr (delFields d args).1 (m.delAll (args.filter storable)) ∧
      (delFields d args).1.used + (delFields d args).2 = d.used
  | [], _, _, h => ⟨h, rfl⟩
  | f :: args, d, m, h => by
    rw [delFields, List.filter_cons]
    cases hk : respDupKey f with
    | none =>
      rw [if_neg (by rw [respDupKey_eq_none.mp hk]; exact Bool.false_ne_true)]
      exact delFields_repr args h
    | some fk =>
      have hf := respDupKey_eq_some.mp hk
      rw [if_pos (storable_iff.mpr ⟨fk, hf⟩), FieldMap.delAll_cons, hf]
      obtain ⟨hrepr, hused⟩ := delFields_repr args (h.erase fk)
      have hone : (d.erase fk).1.used + (if (d.find fk).isSome then 1 else 0) = d.used :=
        h.ok.used_erase
      refine ⟨hrepr, ?_⟩
      have hfound : (d.erase fk).2 = (d.find fk).isSome := by
        rw [Dict.erase]
        cases (d.find fk).isSome <;> rfl
      dsimp only
      rw [hfound]
      omega

/-! ## One command -/

/-- The key holds nothing, or a hash that does not expire at these times. -/
inductive Holds (clock : Set ℤ) (m : KeyMap Stored) (key : Bytes) : FieldMap → Prop
  | nothing (h : m.find key = none) : Holds clock m key FieldMap.empty
  | hash {d : Dict Bytes} {x : ℤ} {fm : FieldMap} (h : m.find key = some (.hash d, x))
      (hlasts : Lasting clock x) (hd : Repr d fm) : Holds clock m key fm

/-- The reply is that of the map, and the table stands for what is left of it. -/
def Answered (clock : Set ℤ) (key : Bytes) (fm : FieldMap) (cmd : HCommand) (args : List Bytes) (kv : Lfkv Stored)
    (r : Reply) : Prop :=
  ∃ m fm', Tracks kv m ∧ Holds clock m key fm' ∧ fm.Answers storable args r fm' cmd

section Command

variable {clock : Set ℤ} {kv : Lfkv Stored} {m : KeyMap Stored} {key : Bytes} {fm : FieldMap} {args : List Bytes}

/-- A command that looks at the hash. -/
theorem lookAt_runs (h : Tracks kv m) (hkey : key.length ≤ respMaxBulk) (hm : Holds clock m key fm)
    {missing : Reply} {k : Dict Bytes → Reply} {P : Reply → Prop}
    (hmissing : fm = FieldMap.empty → P missing) (hhash : ∀ d, Repr d fm → P (k d)) :
    Serves HasFree clock (fun kv' r => Tracks kv' m ∧ P r) (lookAt key missing k) kv := by
  have hshort := short_of_bulk hkey
  cases hm with
  | nothing hnone =>
    refine Serves.getNone h hshort hnone fun kv' h' => ?_
    exact ⟨h', hmissing rfl⟩
  | hash hsome hlasts hd =>
    refine Serves.getSome h hshort hsome hlasts fun kv' h' => ?_
    exact ⟨h', hhash _ hd⟩

/-- A command that only looks leaves the map as it is. -/
theorem answered_of_look {cmd : HCommand} {p : Prog Stored Reply} (hm : Holds clock m key fm)
    (hp : Serves HasFree clock (fun kv' r => Tracks kv' m ∧ fm.Answers storable args r fm cmd) p kv) :
    Serves HasFree clock (Answered clock key fm cmd args) p kv :=
  hp.mono fun _ _ h => ⟨m, fm, h.1, hm, h.2⟩

/-- The reply counts the fields that are new. -/
theorem answers_hset {d fresh : Dict Bytes} {fm' : FieldMap} {created : ℕ} (hd : Repr d fm)
    (hfresh : Repr fresh fm') (hused : fresh.used = d.used + created) (hdom : fm.dom ⊆ fm'.dom) :
    Reply.int created = .int ((fm'.dom \ fm.dom).ncard : ℕ) := by
  rw [Set.ncard_sdiff hdom hd.finite_dom, hfresh.ncard_dom, hd.ncard_dom, hused, Nat.add_sub_cancel_left]

theorem hset_runs (h : Tracks kv m) (hkey : key.length ≤ respMaxBulk) (hm : Holds clock m key fm) :
    Serves HasFree clock (Answered clock key fm .hset args) (cmdHset key args) kv := by
  have hshort := short_of_bulk hkey
  rw [cmdHset]
  by_cases hfew : args.length < 2
  · rw [if_pos hfew]
    exact ⟨m, fm, h, hm, by rw [FieldMap.Answers, if_pos (.inl hfew)]; exact ⟨⟨_, rfl⟩, rfl⟩⟩
  by_cases hodd : args.length % 2 ≠ 0
  · rw [if_neg hfew, if_pos hodd]
    exact ⟨m, fm, h, hm, by rw [FieldMap.Answers, if_pos (.inr hodd)]; exact ⟨⟨_, rfl⟩, rfl⟩⟩
  rw [if_neg hfew, if_neg hodd, hsetLoop]
  have hanswers : ∀ (r : Reply) (fm' : FieldMap),
      fm' = fm.setAll ((pairs args).filter fun p => storable p.1) →
      r = .int ((fm'.dom \ fm.dom).ncard : ℕ) → fm.Answers storable args r fm' .hset := by
    intro r fm' h₁ h₂
    rw [FieldMap.Answers, if_neg (not_or.mpr ⟨hfew, hodd⟩)]
    exact ⟨h₁, h₂⟩
  cases hm with
  | nothing hnone =>
    obtain ⟨hrepr, hused⟩ := setFields_repr args Repr.create
    refine Serves.getNone h hshort hnone fun kv' h' => ?_
    refine Serves.setNx h' hshort hnone fun kv'' h'' => ?_
    rw [if_pos rfl]
    exact ⟨_, _, h'', .hash (KeyMap.find_update m key _) lasting_zero hrepr, hanswers _ _ rfl
      (answers_hset Repr.create hrepr hused (FieldMap.dom_setAll _ _))⟩
  | @hash d x fm hsome hlasts hd =>
    obtain ⟨hrepr, hused⟩ := setFields_repr args hd.clone
    rw [hd.used_clone] at hused
    refine Serves.getSome h hshort hsome hlasts fun kv' h' => ?_
    refine Serves.cas h' hshort hsome hlasts fun kv'' h'' => ?_
    rw [if_pos rfl]
    exact ⟨_, _, h'', .hash (KeyMap.find_update m key _) hlasts hrepr, hanswers _ _ rfl
      (answers_hset hd hrepr hused (FieldMap.dom_setAll _ _))⟩

theorem hdel_runs (h : Tracks kv m) (hkey : key.length ≤ respMaxBulk) (hm : Holds clock m key fm) :
    Serves HasFree clock (Answered clock key fm .hdel args) (cmdHdel key args) kv := by
  have hshort := short_of_bulk hkey
  rw [cmdHdel]
  by_cases hfew : args.length < 1
  · rw [if_pos hfew]
    exact ⟨m, fm, h, hm, by rw [FieldMap.Answers, if_pos hfew]; exact ⟨⟨_, rfl⟩, rfl⟩⟩
  rw [if_neg hfew, hdelLoop]
  have hanswers : ∀ (r : Reply) (fm' : FieldMap), fm' = fm.delAll (args.filter storable) →
      r = .int ((fm.dom \ fm'.dom).ncard : ℕ) → fm.Answers storable args r fm' .hdel := by
    intro r fm' h₁ h₂
    rw [FieldMap.Answers, if_neg hfew]
    exact ⟨h₁, h₂⟩
  cases hm with
  | nothing hnone =>
    refine Serves.getNone h hshort hnone fun kv' h' => ?_
    have hempty : FieldMap.empty.delAll (args.filter storable) = FieldMap.empty := by
      funext f
      simp [FieldMap.delAll, FieldMap.empty]
    refine ⟨m, FieldMap.empty, h', .nothing hnone, hanswers _ _ hempty.symm ?_⟩
    rw [Set.sdiff_self, Set.ncard_empty]
    rfl
  | @hash d x fm hsome hlasts hd =>
    obtain ⟨hrepr, hused⟩ := delFields_repr args hd.clone
    rw [hd.used_clone] at hused
    have hdom := FieldMap.dom_delAll fm (args.filter storable)
    have hreply : Reply.int ((delFields (respDictClone d) args).2 : ℕ) =
        .int ((fm.dom \ (fm.delAll (args.filter storable)).dom).ncard : ℕ) := by
      rw [Set.ncard_sdiff hdom hrepr.finite_dom, hrepr.ncard_dom, hd.ncard_dom, ← hused,
        Nat.add_sub_cancel_left]
    refine Serves.getSome h hshort hsome hlasts fun kv' h' => ?_
    refine Serves.cas h' hshort hsome hlasts fun kv'' h'' => ?_
    rw [if_pos rfl]
    refine ⟨_, _, h'', ?_, hanswers _ _ rfl hreply⟩
    by_cases hzero : (delFields (respDictClone d) args).1.used = 0
    · -- the last field is gone, and the key with it
      have hnone : fm.delAll (args.filter storable) = FieldMap.empty := by
        have hcard := hrepr.ncard_dom
        rw [hzero, Set.ncard_eq_zero hrepr.finite_dom] at hcard
        funext f
        by_contra hf
        have hmem : f ∈ (fm.delAll (args.filter storable)).dom := hf
        rw [hcard] at hmem
        exact hmem
      rw [hnone]
      refine .nothing ?_
      rw [KeyMap.find_update, if_pos hzero]
      rfl
    · refine .hash ?_ hlasts hrepr
      rw [KeyMap.find_update, if_neg hzero]
      rfl

theorem hashEmit_runs {keys vals : Bool} (h : Tracks kv m) (hkey : key.length ≤ respMaxBulk)
    (hm : Holds clock m key fm) (emit : Bytes × Bytes → List Bytes)
    (hemit : ∀ k v, emit (k, v) = (if keys then [k] else []) ++ if vals then [v] else []) :
    Serves HasFree clock (fun kv' r => Tracks kv' m ∧ ∃ l, fm.Lists l ∧
      r = .array (l.length * if keys && vals then 2 else 1) (l.flatMap emit))
        (lookAt key (.array 0 []) fun d => hashEmit d keys vals) kv := by
  refine lookAt_runs h hkey hm (fun he => ⟨[], ⟨List.nodup_nil, fun f v => ?_⟩, ?_⟩) fun d hd => ?_
  · rw [he]
    simp [FieldMap.empty]
  · simp
  · refine ⟨Repr.fields d, hd.lists, ?_⟩
    rw [hashEmit, hd.length_fields, Repr.fields, List.flatMap_map]
    simp only [hemit]

theorem cmd_runs (h : Tracks kv m) (hkey : key.length ≤ respMaxBulk) (hm : Holds clock m key fm)
    (cmd : HCommand) : Serves HasFree clock (Answered clock key fm cmd args) (cmd.prog key args) kv := by
  cases cmd with
  | hset => exact hset_runs h hkey hm
  | hdel => exact hdel_runs h hkey hm
  | hget =>
    match args with
    | [f] =>
      refine answered_of_look hm (lookAt_runs h hkey hm (fun he => ⟨rfl, ?_⟩) fun d hd => ⟨rfl, ?_⟩)
      · simp [he, FieldMap.empty]
      · simp only [hd.find]
    | [] | _ :: _ :: _ => exact ⟨m, fm, h, hm, rfl, _, rfl⟩
  | hexists =>
    match args with
    | [f] =>
      refine answered_of_look hm (lookAt_runs h hkey hm (fun he => ⟨rfl, ?_⟩) fun d hd => ⟨rfl, ?_⟩)
      · simp [he, FieldMap.empty]
      · simp only [hd.find]
    | [] | _ :: _ :: _ => exact ⟨m, fm, h, hm, rfl, _, rfl⟩
  | hlen =>
    match args with
    | [] =>
      refine answered_of_look hm (lookAt_runs h hkey hm (fun he => ⟨rfl, ?_⟩) fun d hd => ⟨rfl, ?_⟩)
      · simp [he, FieldMap.empty, FieldMap.dom]
      · simp only [hd.ncard_dom]
    | _ :: _ => exact ⟨m, fm, h, hm, rfl, _, rfl⟩
  | hkeys =>
    match args with
    | [] =>
      refine answered_of_look hm ((hashEmit_runs h hkey hm (fun p => [p.1]) fun _ _ => rfl).mono ?_)
      rintro kv' r ⟨h', l, hl, rfl⟩
      exact ⟨h', rfl, l, hl, by simp [List.map_eq_flatMap]⟩
    | _ :: _ => exact ⟨m, fm, h, hm, rfl, _, rfl⟩
  | hvals =>
    match args with
    | [] =>
      refine answered_of_look hm ((hashEmit_runs h hkey hm (fun p => [p.2]) fun _ _ => rfl).mono ?_)
      rintro kv' r ⟨h', l, hl, rfl⟩
      exact ⟨h', rfl, l, hl, by simp [List.map_eq_flatMap]⟩
    | _ :: _ => exact ⟨m, fm, h, hm, rfl, _, rfl⟩
  | hgetall =>
    match args with
    | [] =>
      refine answered_of_look hm
        ((hashEmit_runs h hkey hm (fun p => [p.1, p.2]) fun _ _ => rfl).mono ?_)
      rintro kv' r ⟨h', l, hl, rfl⟩
      exact ⟨h', rfl, l, hl, by simp⟩
    | _ :: _ => exact ⟨m, fm, h, hm, rfl, _, rfl⟩

end Command

/-! ## A session -/

theorem session_serves {clock : Set ℤ} {kv : Lfkv Stored} {m : KeyMap Stored} {key : Bytes}
    {fm : FieldMap} (h : Tracks kv m) (hkey : key.length ≤ respMaxBulk) (hm : Holds clock m key fm)
    (cmds : List (HCommand × List Bytes)) :
    Serves HasFree clock (fun _ replies => FieldMap.Session storable fm cmds replies) (session key cmds)
      kv := by
  induction cmds generalizing kv m fm with
  | nil => exact .nil fm
  | cons c cmds ih =>
    obtain ⟨cmd, args⟩ := c
    refine Serves.bind ((cmd_runs h hkey hm cmd).mono ?_)
    rintro kv' r ⟨m', fm', h', hm', hanswers⟩
    exact Serves.bind ((ih h' hm').mono fun _ _ hrest => .cons hanswers hrest)

/-- `HSET` of a field with a NUL byte. -/
def nulField : List (HCommand × List Bytes) := [(.hset, [[102, 0], [118]])]

end Alcove.Resp
