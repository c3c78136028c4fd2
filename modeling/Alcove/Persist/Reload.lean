import Alcove.Persist.Dumpable
import Alcove.Persist.Load

/-!
# What a load makes of a dump

Reading a record back consumes exactly its bytes and returns `reload` of the value, as long as the value
is within what the loaders accept (`loadExp_dump`). A fresh value is the old one but for the singletons,
and the order of the tables.
-/

namespace Alcove.Persist

open Lib Cursor Numeric

/-! ## The value that is read back -/

/-- What `load_exp_t` returns for the record of a value. -/
def reload (place : List (Exp × Exp) → ℕ → UInt64) : Exp → Exp
  | .nil => .pair .null .null
  | .t => .symbol tText
  | .pair content next => .pair (reload place content) (reload place next)
  | .vector cells => .vector (cells.map fun v => reload place v)
  | .dict d => .dict (Dict.ofList (d.entries.attach.map fun ⟨kv, _⟩ => (kv.1, reload place kv.2)))
  | .set d => .set (Dict.ofList (d.entries.attach.filterMap fun ⟨kv, _⟩ => setEntry (reload place kv.2)))
  | .deque vals => .deque (vals.map fun v => reload place v)
  | .hamt entries =>
    let kvs := entries.map fun kv => (reload place kv.1, reload place kv.2)
    .hamt ((hamtOfList (place kvs) kvs).getD [])
  | .lambda _ name params body => .lambda false name (reload place params) (reload place body)
  | .expander name params body => .expander name (reload place params) (reload place body)
  | e => e
termination_by e => sizeOf e
decreasing_by
  all_goals simp_wf
  all_goals first
    | exact sizeOf_entry_lt ‹_›
    | exact sizeOf_key_lt ‹_›
    | exact sizeOf_val_lt ‹_›
    | have := List.sizeOf_lt_of_mem ‹_›
      omega
    | omega

/-! ## Conditions -/

/-- What holds of every value: a char was decoded from UTF-8, exact numbers are normalized, a vector has
an `int32` length, tables are sound, and the keys of a set are those of its members. -/
def Proper : Exp → Prop
  | .char c => c.toNat < 2 ^ 21
  | .rational num den => (Exact.rat num den).WellFormed
  | .decimal coef scale => DecimalNormal coef scale
  | .vector cells => cells.length < vecCapBound
  | .vectorI64 cells => cells.length < vecCapBound ∧ ∀ v ∈ cells, Fits 64 v
  | .vectorF64 cells => cells.length < vecCapBound
  | .dict d => d.Ok
  | .set d => d.Ok ∧ ∀ kv ∈ d.entries, setEntry kv.2 = some kv
  | .hamt entries => entries.Pairwise fun a b => a.1.isequal b.1 = false
  | _ => True

variable (session : Session)

/-- The sizes that the loaders accept. -/
def WithinLimits : Exp → Prop
  | .string text | .symbol text => text.length ≤ alcoveLoadMaxStrlen
  | .blob bytes => bytes.length ≤ loadMaxBlob
  | .type id => ∀ name, session.userTypeName id.toNat = some name → name.length ≤ loadMaxTypeName
  | .dict d => d.used ≤ loadMaxCount ∧ ∀ kv ∈ d.entries, kv.1.length ≤ alcoveLoadMaxStrlen
  | .set d => d.used ≤ loadMaxCount
  | .deque vals => vals.length ≤ loadMaxCount
  | .hamt entries => entries.length ≤ loadMaxCount
  | .lambda _ name _ _ | .expander name _ _ => name.length ≤ alcoveLoadMaxStrlen
  | _ => True

/-- The values that equal themselves once they are read back: no NaN, no `t` in a set, no keys of a
persistent map that are told apart by identity, no overloaded lambda, and no object of a module. -/
def Comparable : Exp → Prop
  | .float bits => Hamt.isNaN bits = false
  | .vectorF64 cells => ∀ bits ∈ cells, Hamt.isNaN bits = false
  | .set d => ∀ kv ∈ d.entries, kv.2 ≠ .t
  | .hamt entries => ∀ kv ∈ entries, kv.1.hashedByValue
  | .lambda multi _ _ _ => multi = false
  | .foreign _ => False
  | _ => True

/-- A value that can be moved to another process. -/
structure Portable (e : Exp) : Prop where
  proper : Proper e
  within : WithinLimits session e
  comparable : Comparable e

/-- The record of the value takes at most so many levels. -/
inductive LevelsWithin : ℕ → Exp → Prop
  | type {room : ℕ} {id : UInt32} : LevelsWithin room (.type id)
  | record {room : ℕ} {e : Exp} (h : ∀ x, Part e x → LevelsWithin room x) : LevelsWithin (room + 1) e

/-! ## Fields -/

variable {r : List UInt8}

theorem yields_fread (s r : List UInt8) : (fread s.length).Yields (s ++ r) s r := by
  refine .bind (.need (by simp)) (.bind (.slice (by simp)) (.bind (.skip (by simp)) ?_))
  rw [List.take_left, List.drop_left]
  exact .pure

theorem yields_loadLe {w v : ℕ} (h : v < 256 ^ w) (r : List UInt8) :
    (loadLe w).Yields (putLe w v ++ r) v r := by
  have hread : (fread w).Yields (putLe w v ++ r) (putLe w v) r := by
    have hlen := yields_fread (putLe w v) r
    rwa [length_putLe] at hlen
  have hmap : (getLe <$> fread w).Yields (putLe w v ++ r) (getLe (putLe w v)) r := .map hread
  rwa [getLe_putLe_of_lt h] at hmap

theorem yields_loadInt {w : ℕ} (hw : 0 < w) {v : ℤ} (h : Fits (8 * w) v) (r : List UInt8) :
    (loadInt w).Yields (putInt w v ++ r) v r := by
  obtain ⟨hlo, hhi⟩ := h
  have hpow : (256 : ℤ) ^ w = 2 * 2 ^ (8 * w - 1) := by
    rw [← pow_succ', show 8 * w - 1 + 1 = 8 * w by omega, pow_mul]
    norm_num
  have hpos : (0 : ℤ) < 2 ^ (8 * w - 1) := by positivity
  have hnn := Int.emod_nonneg v (show (256 : ℤ) ^ w ≠ 0 by positivity)
  have hlt : (v % 256 ^ w).toNat < 256 ^ w := by
    have := Int.emod_lt_of_pos v (show (0 : ℤ) < 256 ^ w by positivity)
    zify
    omega
  have hmap : (loadInt w).Yields (putLe w (v % 256 ^ w).toNat ++ r)
      ((((v % 256 ^ w).toNat : ℕ) : ℤ).bmod (256 ^ w)) r := .map (yields_loadLe hlt r)
  rw [Int.toNat_of_nonneg hnn] at hmap
  have hback : (v % 256 ^ w).bmod (256 ^ w) = v := by
    have hmod : (v % ((256 ^ w : ℕ) : ℤ)).bmod (256 ^ w) = v.bmod (256 ^ w) := Int.emod_bmod ..
    push_cast at hmod
    rw [hmod]
    apply Int.bmod_eq_of_le
    · push_cast
      omega
    · push_cast
      omega
  rwa [hback] at hmap

theorem yields_loadStr {text : CStr} (h : text.length ≤ alcoveLoadMaxStrlen) (r : List UInt8) :
    loadStr.Yields (dumpStr text ++ r) text r := by
  have hlt : text.length < 256 ^ 8 := by
    have : alcoveLoadMaxStrlen < 256 ^ 8 := by decide
    omega
  rw [dumpStr, dumpsizeT, List.append_assoc]
  apply Yields.bind (yields_loadLe hlt _)
  rw [if_neg (by omega)]
  have hmap : (CStr.ofBytes <$> fread text.length).Yields (text.bytes ++ r)
      (CStr.ofBytes text.bytes) r := .map (yields_fread _ _)
  rwa [CStr.ofBytes_bytes] at hmap

theorem yields_loadCount {n : ℕ} (h : n ≤ loadMaxCount) (r : List UInt8) :
    loadCount.Yields (dumpsizeT n ++ r) n r := by
  have hlt : n < 256 ^ 8 := by
    have : loadMaxCount < 256 ^ 8 := by decide
    omega
  apply Yields.bind (yields_loadLe hlt _)
  rw [if_neg (by omega)]
  exact .pure

/-- **The records of the elements are read back one by one.** -/
theorem yields_loadMany {α β : Type} {load : Cursor UInt8 α} {record : β → Option (List UInt8)}
    {g : β → α} {xs : List β}
    (h : ∀ x ∈ xs, ∀ bytes, record x = some bytes → ∀ r, load.Yields (bytes ++ r) (g x) r)
    {bytes : List UInt8} (hbytes : concat (xs.map record) = some bytes) (r : List UInt8) :
    (loadMany load xs.length).Yields (bytes ++ r) (xs.map g) r := by
  induction xs generalizing bytes with
  | nil =>
    obtain rfl : [] = bytes := Option.some.inj hbytes
    exact .pure
  | cons x xs ih =>
    obtain ⟨hx, hxs⟩ := List.forall_mem_cons.mp h
    simp only [List.map_cons, concat, Option.bind_eq_bind, Option.bind_eq_some_iff, Option.pure_def,
      Option.some.injEq] at hbytes
    obtain ⟨y, hy, ys, hys, rfl⟩ := hbytes
    rw [List.append_assoc]
    exact .bind (hx y hy _) (.bind (ih hxs hys) .pure)

/-! ## Characters -/

/-- A byte that continues a character. -/
theorem continuation {m : ℕ} (h : m < 64) :
    UInt8.ofNat (0x80 ||| m) &&& 0xc0 = 0x80 ∧ (UInt8.ofNat (0x80 ||| m) &&& 0x3f).toNat = m := by
  decide +revert

theorem yields_utf8Continue {n cp m v : ℕ} (hm : m < 64) {s : List UInt8}
    (h : (utf8Continue n (cp * 64 + m)).Yields s v r) :
    (utf8Continue (n + 1) cp).Yields (UInt8.ofNat (0x80 ||| m) :: s) v r := by
  obtain ⟨hlead, hlow⟩ := continuation hm
  refine .bind (.test 0 _) ?_
  rw [List.getElem?_cons_zero, Option.any_some, decide_eq_true hlead, if_pos rfl]
  refine .bind .next ?_
  rwa [hlow, ← Nat.shiftLeft_add_eq_or_of_lt hm, Nat.shiftLeft_eq]

theorem lead_two {m : ℕ} (h : m < 32) : ¬ UInt8.ofNat (0xc0 ||| m) < 0x80 ∧
    UInt8.ofNat (0xc0 ||| m) &&& 0xe0 = 0xc0 ∧ (UInt8.ofNat (0xc0 ||| m) &&& 0x1f).toNat = m := by
  decide +revert

theorem lead_three {m : ℕ} (h : m < 16) : ¬ UInt8.ofNat (0xe0 ||| m) < 0x80 ∧
    UInt8.ofNat (0xe0 ||| m) &&& 0xe0 ≠ 0xc0 ∧ UInt8.ofNat (0xe0 ||| m) &&& 0xf0 = 0xe0 ∧
      (UInt8.ofNat (0xe0 ||| m) &&& 0x0f).toNat = m := by
  decide +revert

theorem lead_four {m : ℕ} (h : m < 8) : ¬ UInt8.ofNat (0xf0 ||| m) < 0x80 ∧
    UInt8.ofNat (0xf0 ||| m) &&& 0xe0 ≠ 0xc0 ∧ UInt8.ofNat (0xf0 ||| m) &&& 0xf0 ≠ 0xe0 ∧
      UInt8.ofNat (0xf0 ||| m) &&& 0xf8 = 0xf0 ∧ (UInt8.ofNat (0xf0 ||| m) &&& 0x07).toNat = m := by
  decide +revert

/-- **A character is decoded from its encoding.** -/
theorem utf8_roundTrip {cp : ℕ} (h : cp < 2 ^ 21) (r : List UInt8) : ∃ c s,
    Json.utf8Encode cp = c :: s ∧ (utf8DecodeStream c).Yields (s ++ r) cp r := by
  have hlow (x : ℕ) : x &&& 0x3f = x % 64 := Nat.and_two_pow_sub_one_eq_mod x 6
  have hmod (x : ℕ) : x % 64 < 64 := Nat.mod_lt _ (by decide)
  unfold Json.utf8Encode
  simp only [hlow, Nat.shiftRight_eq_div_pow]
  split
  · next h1 =>
    refine ⟨_, [], rfl, ?_⟩
    have hlt : UInt8.ofNat cp < 0x80 := by
      rw [UInt8.lt_iff_toNat_lt, UInt8.toNat_ofNat']
      exact (Nat.mod_le _ _).trans_lt h1
    rw [utf8DecodeStream, if_pos hlt, UInt8.toNat_ofNat', Nat.mod_eq_of_lt (by omega)]
    exact .pure
  · split
    · next h2 =>
      obtain ⟨hl, hm, hv⟩ := lead_two (show cp / 2 ^ 6 < 32 by omega)
      refine ⟨_, _, rfl, ?_⟩
      rw [utf8DecodeStream, if_neg hl, if_pos hm, hv]
      apply yields_utf8Continue (hmod _)
      rw [show cp / 2 ^ 6 * 64 + cp % 64 = cp by omega]
      exact .pure
    · split
      · next h3 =>
        obtain ⟨hl, hm, hm', hv⟩ := lead_three (show cp / 2 ^ 12 < 16 by omega)
        refine ⟨_, _, rfl, ?_⟩
        rw [utf8DecodeStream, if_neg hl, if_neg hm, if_pos hm', hv]
        apply yields_utf8Continue (hmod _)
        apply yields_utf8Continue (hmod _)
        rw [show (cp / 2 ^ 12 * 64 + cp / 2 ^ 6 % 64) * 64 + cp % 64 = cp by omega]
        exact .pure
      · obtain ⟨hl, hm, hm', hm'', hv⟩ := lead_four (show cp / 2 ^ 18 < 8 by omega)
        refine ⟨_, _, rfl, ?_⟩
        rw [utf8DecodeStream, if_neg hl, if_neg hm, if_neg hm', if_pos hm'', hv]
        apply yields_utf8Continue (hmod _)
        apply yields_utf8Continue (hmod _)
        apply yields_utf8Continue (hmod _)
        rw [show ((cp / 2 ^ 18 * 64 + cp / 2 ^ 12 % 64) * 64 + cp / 2 ^ 6 % 64) * 64 + cp % 64 = cp
          by omega]
        exact .pure

/-! ## Records -/

variable {session}

/-- The record of the value, whatever comes after it, is read back with so many levels left. -/
def ReadsBack (session : Session) (room : ℕ) (e : Exp) : Prop :=
  ∀ bytes, dump session.toRegistry e = some bytes → ∀ r,
    (loadExp session room).Yields (bytes ++ r) (reload session.place e) r

/-- The tag of a record selects its loader. -/
theorem yields_record {room tag : ℕ} (htag : tag < 0xffff) {body : List UInt8} {v : Exp}
    (h : (loadRecord session (loadExp session room) tag).Yields (body ++ r) v r) :
    (loadExp session (room + 1)).Yields (dumptype tag ++ body ++ r) v r := by
  rw [List.append_assoc]
  refine .bind (yields_loadLe (by omega) _) ?_
  rwa [if_neg (by unfold alcoveDumpTagTypeObject; omega)]

theorem yields_map {α β : Type} {load : Cursor UInt8 α} {f : α → β} {s : List UInt8} {a : α}
    (h : load.Yields s a r) : (f <$> load).Yields s (f a) r := .map h

variable {room : ℕ} {load : Cursor UInt8 Exp}

theorem yields_typeObj {id : UInt32} (hlimit : WithinLimits session (.type id)) :
    ReadsBack session room (.type id) := by
  intro bytes hbytes r
  have htag : alcoveDumpTagTypeObject < 256 ^ 2 := by decide
  have hsuffices : ∀ body, (loadTypeObj session).Yields (body ++ r) (.type id) r →
      (loadExp session room).Yields (dumptype alcoveDumpTagTypeObject ++ body ++ r) (.type id) r := by
    intro body hbody
    rw [List.append_assoc]
    cases room <;>
      · refine .bind (yields_loadLe htag _) ?_
        rwa [if_pos rfl]
  rw [dump, dumpTypeObj] at hbytes
  have hreload : reload session.place (.type id) = .type id := by rw [reload] <;> simp
  rw [hreload]
  split at hbytes
  · next hid =>
    obtain rfl := Option.some.inj hbytes
    have hmin : typeUserMin < 0xffffffff := by decide
    apply hsuffices
    refine .bind (yields_loadLe (id.toNat_lt.trans_le (by norm_num)) r) ?_
    rw [if_neg (by omega), UInt32.ofNat_toNat]
    exact .pure
  · obtain ⟨name, hname, hbytes⟩ := Option.bind_eq_some_iff.mp hbytes
    obtain rfl := Option.some.inj hbytes
    have hlen : name.length ≤ loadMaxTypeName := hlimit name hname
    have hmax : loadMaxTypeName < 256 ^ 4 := by decide
    have hassoc : dumptype alcoveDumpTagTypeObject ++ putLe 4 0xffffffff ++ putLe 4 name.length ++
        name.bytes = dumptype alcoveDumpTagTypeObject ++
          (putLe 4 0xffffffff ++ (putLe 4 name.length ++ name.bytes)) := by
      simp only [List.append_assoc]
    rw [hassoc]
    apply hsuffices
    rw [List.append_assoc]
    refine .bind (yields_loadLe (by norm_num) _) ?_
    rw [if_pos rfl, List.append_assoc]
    refine .bind (yields_loadLe (by omega) _) ?_
    rw [if_neg (by omega)]
    refine .bind (yields_fread _ _) ?_
    have htype : session.typeId (CStr.ofBytes name.bytes) = id := by
      rw [CStr.ofBytes_bytes]
      exact UInt32.toNat_inj.mp (session.typeId_of_name _ _ hname)
    rw [htype]
    exact .pure

theorem yields_byte (b : UInt8) (r : List UInt8) : (loadLe 1).Yields (b :: r) b.toNat r := by
  have h := yields_loadLe (show b.toNat < 256 ^ 1 from b.toNat_lt) r
  simpa [putLe, putBe] using h

theorem yields_loadParts {x y : Exp} (hx : x.isNull = false → ReadsBack session room x)
    (hy : y.isNull = false → ReadsBack session room y) {a b : List UInt8}
    (ha : dumpPart x (dump session.toRegistry x) = some a)
    (hb : dumpPart y (dump session.toRegistry y) = some b) (r : List UInt8) :
    (loadParts (loadExp session room)).Yields (partFlags x y :: (a ++ b) ++ r)
      (reload session.place x, reload session.place y) r := by
  have hbit0 : (partFlags x y).toNat.testBit 0 = !x.isNull := by
    unfold partFlags
    cases x.isNull <;> cases y.isNull <;> rfl
  have hbit1 : (partFlags x y).toNat.testBit 1 = !y.isNull := by
    unfold partFlags
    cases x.isNull <;> cases y.isNull <;> rfl
  have hpart : ∀ z : Exp, (z.isNull = false → ReadsBack session room z) → ∀ c,
      dumpPart z (dump session.toRegistry z) = some c → ∀ r,
        (loadPart (loadExp session room) (!z.isNull)).Yields (c ++ r) (reload session.place z) r := by
    intro z hz c hc r
    unfold dumpPart at hc
    cases hnull : z.isNull with
    | false =>
      rw [hnull, if_neg Bool.false_ne_true] at hc
      exact hz hnull c hc r
    | true =>
      rw [hnull, if_pos rfl] at hc
      obtain rfl := Option.some.inj hc
      obtain rfl : z = .null := by
        cases z <;> first | rfl | cases hnull
      rw [show reload session.place .null = .null by rw [reload] <;> simp]
      exact .pure
  rw [List.cons_append, List.append_assoc]
  refine .bind (yields_byte _ _) ?_
  rw [hbit0, hbit1]
  exact .bind (hpart x hx a ha _) (.bind (hpart y hy b hb _) .pure)

theorem yields_callable {name : CStr} (hname : name.length ≤ alcoveLoadMaxStrlen) {x y : Exp}
    (hx : x.isNull = false → ReadsBack session room x)
    (hy : y.isNull = false → ReadsBack session room y) {a b : List UInt8}
    (ha : dumpPart x (dump session.toRegistry x) = some a)
    (hb : dumpPart y (dump session.toRegistry y) = some b) (make : CStr → Exp → Exp → Exp)
    (r : List UInt8) : (loadCallable (loadExp session room) make).Yields
      (dumpStr name ++ partFlags x y :: (a ++ b) ++ r)
        (make name (reload session.place x) (reload session.place y)) r := by
  rw [List.append_assoc]
  exact .bind (yields_loadStr hname _) (.bind (yields_loadParts hx hy ha hb r) .pure)

/-- Records that all succeed are written one after the other. -/
theorem concat_some {α : Type} (xs : List α) (f : α → List UInt8) :
    concat (xs.map fun x => some (f x)) = some (xs.flatMap f) := by
  induction xs with
  | nil => rfl
  | cons x xs ih => simp only [List.map_cons, concat, ih, Option.bind_eq_bind, Option.bind_some,
      Option.pure_def, List.flatMap_cons]

theorem dump_of_dumpElem {reg : Registry} {v : Exp} {bytes : List UInt8}
    (h : dumpElem reg v (dump reg v) = some bytes) : dump reg v = some bytes := by
  unfold dumpElem at h
  split at h
  · cases h
  · exact h

theorem yields_elements {vals : List Exp} (h : ∀ v ∈ vals, ReadsBack session room v)
    {bytes : List UInt8}
    (hbytes : concat (vals.map fun v =>
      dumpElem session.toRegistry v (dump session.toRegistry v)) = some bytes) (r : List UInt8) :
    (loadMany (loadExp session room) vals.length).Yields (bytes ++ r)
      (vals.map fun v => reload session.place v) r :=
  yields_loadMany (fun v hv bs hbs r => h v hv bs (dump_of_dumpElem hbs) r) hbytes r

/-- The header of a vector. -/
theorem yields_loadVec {kind : UInt8} {n : ℕ} (hkind : kind.toNat ≤ 2) (hn : n < vecCapBound)
    {s : List UInt8} {v : Exp} (h : (if kind.toNat = 0 then .vector <$> loadMany load n
      else if kind.toNat = 1 then .vectorI64 <$> loadMany (loadInt 8) n
      else (fun cells => .vectorF64 (cells.map UInt64.ofNat)) <$> loadMany (loadLe 8) n
        : Cursor UInt8 Exp).Yields s v r) :
    (loadVec load).Yields (kind :: (putLe 4 n ++ s)) v r := by
  refine .bind (yields_byte _ _) ?_
  rw [if_neg (by omega)]
  refine .bind (yields_loadLe ?_ _) ?_
  · unfold vecCapBound at hn
    omega
  · rwa [if_neg (by omega)]

theorem yields_vectorI64 {cells : List ℤ} (hn : cells.length < vecCapBound)
    (hfits : ∀ v ∈ cells, Fits 64 v) (r : List UInt8) :
    (loadVec load).Yields (1 :: (putLe 4 cells.length ++ cells.flatMap (putInt 8)) ++ r)
      (.vectorI64 cells) r := by
  rw [List.cons_append, List.append_assoc]
  apply yields_loadVec (by decide) hn
  have hcells : (loadMany (loadInt 8) cells.length).Yields (cells.flatMap (putInt 8) ++ r)
      (cells.map id) r := by
    refine yields_loadMany (fun v hv bs hbs r => ?_) (concat_some cells (putInt 8)) r
    obtain rfl := Option.some.inj hbs
    exact yields_loadInt (by decide) (hfits v hv) r
  rw [List.map_id] at hcells
  exact yields_map hcells

theorem yields_vectorF64 {cells : List UInt64} (hn : cells.length < vecCapBound) (r : List UInt8) :
    (loadVec load).Yields
      (2 :: (putLe 4 cells.length ++ cells.flatMap fun bits => putLe 8 bits.toNat) ++ r)
        (.vectorF64 cells) r := by
  rw [List.cons_append, List.append_assoc]
  apply yields_loadVec (by decide) hn
  have hcells : (loadMany (loadLe 8) cells.length).Yields
      ((cells.flatMap fun bits => putLe 8 bits.toNat) ++ r) (cells.map UInt64.toNat) r := by
    refine yields_loadMany (fun v _ bs hbs r => ?_) (concat_some cells _) r
    obtain rfl := Option.some.inj hbs
    exact yields_loadLe (v.toNat_lt.trans_le (by norm_num)) r
  have hback : (cells.map UInt64.toNat).map UInt64.ofNat = cells := by
    simp [Function.comp_def]
  have hmap : ((fun cells => Exp.vectorF64 (cells.map UInt64.ofNat)) <$>
      loadMany (loadLe 8) cells.length).Yields ((cells.flatMap fun bits => putLe 8 bits.toNat) ++ r)
        (.vectorF64 ((cells.map UInt64.toNat).map UInt64.ofNat)) r := .map hcells
  rwa [hback] at hmap

/-! ## Tables -/

theorem map_eq_attach {α β : Type} (xs : List α) (f : α → β) :
    xs.map f = xs.attach.map fun x => f x.1 :=
  List.attach_map_val.symm

/-- The reloaded entries of a dict. -/
theorem reload_dict (place : List (Exp × Exp) → ℕ → UInt64) (d : Dict Exp) : reload place (.dict d) =
    .dict (Dict.ofList (d.entries.map fun kv => (kv.1, reload place kv.2))) := by
  rw [reload, map_eq_attach d.entries]

/-- The reloaded members of a set. -/
theorem reload_set (place : List (Exp × Exp) → ℕ → UInt64) (d : Dict Exp) : reload place (.set d) =
    .set (Dict.ofList (d.entries.filterMap fun kv => setEntry (reload place kv.2))) := by
  rw [reload]
  conv_rhs => rw [← List.attach_map_subtype_val d.entries, List.filterMap_map]
  rfl

variable {place : List (Exp × Exp) → ℕ → UInt64}

/-- A member of a set other than `t` is read back as the same member. -/
theorem setEntry_reload {v : Exp} {kv : CStr × Exp} (h : setEntry v = some kv) (ht : v ≠ .t) :
    setEntry (reload place v) = some kv := by
  cases v with
  | t => exact absurd rfl ht
  | pair content next =>
    have hnull : content = .null ∧ next = .null := by
      cases content <;> cases next <;> first | exact ⟨rfl, rfl⟩ | cases h
    obtain ⟨rfl, rfl⟩ := hnull
    have hreload : reload place .null = .null := by rw [reload] <;> simp
    rwa [reload, hreload]
  | nil => rwa [reload]
  | vector | dict | set | deque | hamt | lambda | expander => cases h
  | _ =>
    rw [reload]
    · exact h
    all_goals simp

theorem reload_set_eq {d : Dict Exp} (hmem : ∀ kv ∈ d.entries, setEntry kv.2 = some kv)
    (ht : ∀ kv ∈ d.entries, kv.2 ≠ .t) : reload place (.set d) = .set (Dict.ofList d.entries) := by
  rw [reload_set]
  have hid : d.entries.filterMap (fun kv => setEntry (reload place kv.2)) =
      d.entries.filterMap some :=
    List.filterMap_congr fun kv hkv => setEntry_reload (hmem kv hkv) (ht kv hkv)
  rw [hid, List.filterMap_some]

/-- A key that is hashed by value is read back as it is, or it is `t`. -/
theorem reload_key {k : Exp} (h : k.hashedByValue) :
    reload place k = k ∨ k = .t ∧ reload place k = .symbol tText := by
  cases k with
  | t => exact .inr ⟨rfl, by rw [reload]⟩
  | fix | char | type | float | string | symbol | blob => exact .inl (by rw [reload] <;> simp)
  | _ => cases h

theorem hashedByValue_reload {k : Exp} (h : k.hashedByValue) :
    (reload place k).hashedByValue ∧ isNaNKey (reload place k) = isNaNKey k := by
  rcases reload_key h with heq | ⟨rfl, heq⟩
  · rw [heq]
    exact ⟨h, rfl⟩
  · rw [heq]
    exact ⟨rfl, rfl⟩

theorem isequal_t (x : Exp) : Exp.isequal (.symbol tText) x = Exp.isequal .t x ∧
    Exp.isequal x (.symbol tText) = Exp.isequal x .t := by
  cases x <;> constructor <;> simp [Exp.isequal, Exp.identical, Exp.isNil, Exp.symbolText, tText]

/-- A key that is read back is equal to the same keys. -/
theorem isequal_reload {k : Exp} (h : k.hashedByValue) (x : Exp) :
    Exp.isequal (reload place k) x = Exp.isequal k x ∧
      Exp.isequal x (reload place k) = Exp.isequal x k := by
  rcases reload_key h with heq | ⟨rfl, heq⟩
  · rw [heq]
    exact ⟨rfl, rfl⟩
  · rw [heq]
    exact isequal_t x

/-- The reloaded entries of a persistent map. -/
def reloadEntries (place : List (Exp × Exp) → ℕ → UInt64) (entries : List (Exp × Exp)) :
    List (Exp × Exp) :=
  entries.map fun kv => (reload place kv.1, reload place kv.2)

theorem reload_hamt {entries : List (Exp × Exp)} (hdist : Proper (.hamt entries))
    (hkeys : ∀ kv ∈ entries, kv.1.hashedByValue ∧ isNaNKey kv.1 = false) :
    ∃ es, hamtOfList (place (reloadEntries place entries)) (reloadEntries place entries) = some es ∧
      reload place (.hamt entries) = .hamt es ∧ es.Perm (reloadEntries place entries) := by
  obtain ⟨es, hes, hperm⟩ : ∃ es, hamtOfList (place (reloadEntries place entries))
      (reloadEntries place entries) = some es ∧ es.Perm (reloadEntries place entries) := by
    apply hamtOfList_perm
    · intro kv hkv
      obtain ⟨kv', hkv', rfl⟩ := List.mem_map.mp hkv
      obtain ⟨hval, hnan⟩ := hkeys kv' hkv'
      obtain ⟨hval', hnan'⟩ := hashedByValue_reload hval
      exact ⟨hval', hnan'.trans hnan⟩
    · refine List.pairwise_map.mpr (hdist.imp_of_mem fun {a b} ha hb hab => ?_)
      show Exp.isequal (reload place a.1) (reload place b.1) = false
      rw [(isequal_reload (hkeys a ha).1 _).1, (isequal_reload (hkeys b hb).1 _).2, hab]
  refine ⟨es, hes, ?_, hperm⟩
  have heq : reload place (.hamt entries) = .hamt ((hamtOfList (place (reloadEntries place entries))
      (reloadEntries place entries)).getD []) := by
    rw [reload]
    rfl
  rw [heq, hes]
  rfl

theorem yields_dict {d : Dict Exp} (hok : d.Ok) (hlimit : WithinLimits session (.dict d))
    (h : ∀ kv ∈ d.entries, ReadsBack session room kv.2) {bytes : List UInt8}
    (hbytes : concat (d.entries.map fun kv =>
      (dumpElem session.toRegistry kv.2 (dump session.toRegistry kv.2)).bind fun x =>
        some (dumpStr kv.1 ++ x)) = some bytes) (r : List UInt8) :
    (loadDict (loadExp session room)).Yields (dumpsizeT d.used ++ bytes ++ r)
      (reload session.place (.dict d)) r := by
  rw [reload_dict, List.append_assoc]
  refine .bind (yields_loadCount hlimit.1 _) (.bind (t := r) ?_ .pure)
  rw [hok.used_eq]
  refine yields_loadMany (fun kv hkv bs hbs r => ?_) hbytes r
  obtain ⟨x, hx, hbs⟩ := Option.bind_eq_some_iff.mp hbs
  obtain rfl := Option.some.inj hbs
  rw [List.append_assoc]
  refine .bind (yields_loadStr (hlimit.2 kv hkv) _) (.bind ?_ .pure)
  exact h kv hkv x (dump_of_dumpElem hx) r

theorem yields_set {d : Dict Exp} (hproper : Proper (.set d))
    (hlimit : WithinLimits session (.set d)) (ht : Comparable (.set d))
    (h : ∀ kv ∈ d.entries, ReadsBack session room kv.2) {bytes : List UInt8}
    (hbytes : concat (d.entries.map fun kv =>
      dumpElem session.toRegistry kv.2 (dump session.toRegistry kv.2)) = some bytes)
    (r : List UInt8) :
    (loadSet (loadExp session room)).Yields (dumpsizeT d.used ++ bytes ++ r)
      (reload session.place (.set d)) r := by
  obtain ⟨hok, hmem⟩ := hproper
  rw [reload_set_eq hmem ht, List.append_assoc]
  refine .bind (yields_loadCount hlimit _) (.bind (t := r) ?_ .pure)
  rw [hok.used_eq]
  have hmany : (loadMany (loadMember (loadExp session room)) d.entries.length).Yields (bytes ++ r)
      (d.entries.map id) r := by
    refine yields_loadMany (fun kv hkv bs hbs r => ?_) hbytes r
    refine .bind (h kv hkv bs (dump_of_dumpElem hbs) r) ?_
    rw [setEntry_reload (hmem kv hkv) (ht kv hkv)]
    exact .pure
  rwa [List.map_id] at hmany

theorem yields_deque {vals : List Exp} (hlimit : WithinLimits session (.deque vals))
    (h : ∀ v ∈ vals, ReadsBack session room v) {bytes : List UInt8}
    (hbytes : concat (vals.map fun v =>
      dumpElem session.toRegistry v (dump session.toRegistry v)) = some bytes) (r : List UInt8) :
    (loadDeque (loadExp session room)).Yields (dumpsizeT vals.length ++ bytes ++ r)
      (reload session.place (.deque vals)) r := by
  rw [reload, List.append_assoc]
  exact .bind (yields_loadCount hlimit _) (.map (yields_elements h hbytes r))

theorem yields_hamt {entries : List (Exp × Exp)} (hproper : Proper (.hamt entries))
    (hlimit : WithinLimits session (.hamt entries))
    (hkeys : ∀ kv ∈ entries, kv.1.hashedByValue ∧ isNaNKey kv.1 = false)
    (h : ∀ kv ∈ entries, ReadsBack session room kv.1 ∧ ReadsBack session room kv.2)
    {bytes : List UInt8}
    (hbytes : concat (entries.map fun kv =>
      (dumpElem session.toRegistry kv.1 (dump session.toRegistry kv.1)).bind fun x =>
        (dumpElem session.toRegistry kv.2 (dump session.toRegistry kv.2)).bind fun y =>
          some (x ++ y)) = some bytes) (r : List UInt8) :
    (loadHamt (loadExp session room) session.place).Yields
      (dumpsizeT entries.length ++ bytes ++ r) (reload session.place (.hamt entries)) r := by
  obtain ⟨es, hes, hreload, -⟩ : ∃ es, hamtOfList (session.place (reloadEntries session.place entries))
      (reloadEntries session.place entries) = some es ∧
        reload session.place (.hamt entries) = .hamt es ∧ es.Perm (reloadEntries session.place entries) :=
    reload_hamt hproper hkeys
  rw [hreload, List.append_assoc]
  refine .bind (yields_loadCount hlimit _) ?_
  have hmany : (loadMany (loadKeyVal (loadExp session room)) entries.length).Yields (bytes ++ r)
      (reloadEntries session.place entries) r := by
    refine yields_loadMany (fun kv hkv bs hbs r => ?_) hbytes r
    obtain ⟨x, hx, hbs⟩ := Option.bind_eq_some_iff.mp hbs
    obtain ⟨y, hy, hbs⟩ := Option.bind_eq_some_iff.mp hbs
    obtain rfl := Option.some.inj hbs
    obtain ⟨hk, hv⟩ := h kv hkv
    obtain ⟨hval, hnan⟩ := hkeys kv hkv
    rw [List.append_assoc]
    refine .bind (hk x (dump_of_dumpElem hx) _) ?_
    rw [(hashedByValue_reload hval).2, hnan, if_neg Bool.false_ne_true]
    exact .bind (hv y (dump_of_dumpElem hy) r) .pure
  refine .bind hmany ?_
  rw [hes]
  exact .pure

/-! ## Every value -/

theorem LevelsWithin.part {e x : Exp} (h : LevelsWithin (room + 1) e) (hx : Part e x) :
    LevelsWithin room x := by
  cases h with
  | type => cases hx
  | record h => exact h x hx

theorem isNaNKey_eq_false {k : Exp} (h : Comparable k) : isNaNKey k = false := by
  cases k <;> first | exact h | rfl

/-- **A dump is read back**: the loader consumes the record, whatever comes after it. -/
theorem loadExp_dump {e : Exp} (hportable : ∀ x, Inside e x → Portable session x)
    (hlevels : LevelsWithin room e) : ReadsBack session room e := by
  induction e using part_induction generalizing room with
  | h e ih =>
  obtain ⟨hproper, hlimit, hcomp⟩ := hportable e .refl
  cases room with
  | zero =>
    cases hlevels with
    | type => exact yields_typeObj hlimit
  | succ room =>
    have hpart (x : Exp) (hx : Part e x) : ReadsBack session room x :=
      ih x hx (fun y hy => hportable y (.head hx hy)) (hlevels.part hx)
    have hrecord (tag : ℕ) (htag : tag < 0xffff) {body : List UInt8}
        (hdump : dump session.toRegistry e = some (dumptype tag ++ body)) {v : Exp}
        (hv : reload session.place e = v)
        (hload : ∀ r, (loadRecord session (loadExp session room) tag).Yields (body ++ r) v r) :
        ReadsBack session (room + 1) e := by
      intro bytes hbytes r
      rw [hdump] at hbytes
      obtain rfl := Option.some.inj hbytes
      rw [hv]
      exact yields_record htag (hload r)
    cases e with
    | null =>
      intro bytes hbytes
      rw [dump] at hbytes
      cases hbytes
    | nil =>
      refine hrecord expPair (by decide) (by rw [dump]) (by rw [reload]) fun r => ?_
      exact .bind (.bind (yields_byte 0 r) (.bind .pure (.bind .pure .pure))) .pure
    | t =>
      refine hrecord expSymbol (by decide) (by rw [dump]) (by rw [reload]) fun r => ?_
      exact .map (yields_loadStr (by decide) r)
    | fix n =>
      refine hrecord expNumber (by decide) (by rw [dump]) (by rw [reload] <;> simp) fun r => ?_
      have hfits : Fits (8 * 8) n.1 := by
        obtain ⟨hlo, hhi⟩ := n.2
        constructor <;> omega
      refine .bind (yields_loadInt (by decide) hfits r) ?_
      rw [if_pos (fixFits_fixnum n), makeFix_fixnum]
      exact .pure
    | char c =>
      obtain ⟨first, rest, henc, hload⟩ : ∃ first rest, Json.utf8Encode c.toNat = first :: rest ∧
          ∀ r, (utf8DecodeStream first).Yields (rest ++ r) c.toNat r := by
        obtain ⟨first, rest, henc, -⟩ := utf8_roundTrip hproper []
        refine ⟨first, rest, henc, fun r => ?_⟩
        obtain ⟨first', rest', henc', hload⟩ := utf8_roundTrip hproper r
        obtain ⟨rfl, rfl⟩ := List.cons.inj (henc.symm.trans henc')
        exact hload
      refine hrecord expChar (by decide) (by rw [dump]) (by rw [reload] <;> simp) fun r => ?_
      rw [henc]
      refine .bind (.need (by simp)) (.bind .next (.bind (hload r) ?_))
      rw [UInt32.ofNat_toNat]
      exact .pure
    | type id => exact yields_typeObj hlimit
    | float bits =>
      refine hrecord expFloat (by decide) (by rw [dump]) (by rw [reload] <;> simp) fun r => ?_
      have hmap : loadFloat.Yields (putLe 8 bits.toNat ++ r) (.float (UInt64.ofNat bits.toNat)) r :=
        .map (yields_loadLe (bits.toNat_lt.trans_le (by norm_num)) r)
      rwa [UInt64.ofNat_toNat] at hmap
    | string text =>
      exact hrecord expString (by decide) (by rw [dump]) (by rw [reload] <;> simp) fun r =>
        .map (yields_loadStr hlimit r)
    | symbol text =>
      exact hrecord expSymbol (by decide) (by rw [dump]) (by rw [reload] <;> simp) fun r =>
        .map (yields_loadStr hlimit r)
    | blob bytes =>
      have hmax : loadMaxBlob < 256 ^ 8 := by decide
      have hlen : bytes.length ≤ loadMaxBlob := hlimit
      refine hrecord expBlob (by decide) (by rw [dump, List.append_assoc]) (by rw [reload] <;> simp)
        fun r => ?_
      rw [List.append_assoc]
      refine .bind (yields_loadLe (by omega) _) ?_
      rw [if_neg (by omega)]
      exact .map (yields_fread bytes r)
    | rational num den =>
      refine hrecord expRational (by decide) (by rw [dump, List.append_assoc])
        (by rw [reload] <;> simp) fun r => ?_
      rw [List.append_assoc]
      refine .bind (yields_loadInt (by decide) hproper.1 _)
        (.bind (yields_loadInt (by decide) hproper.2.1 r) ?_)
      rw [if_neg hproper.2.2.1.ne', expOfRational_eq hproper]
      exact .pure
    | decimal coef scale =>
      obtain ⟨hnn, hle, hdigits, htrim⟩ := hproper
      have hmax : (10 : ℤ) ^ 29 < 2 ^ 127 := by norm_num
      have hscale : decMaxScale < 2 ^ 31 := by decide
      have hcoef : Fits (8 * 16) coef := by constructor <;> omega
      have hfits : Fits (8 * 4) scale := by constructor <;> omega
      refine hrecord expDecimal (by decide) (by rw [dump, List.append_assoc])
        (by rw [reload] <;> simp) fun r => ?_
      rw [List.append_assoc]
      refine .bind (yields_loadInt (by decide) hcoef _)
        (.bind (yields_loadInt (by decide) hfits r) ?_)
      rw [if_neg (by omega), expOfDecimal_eq ⟨hnn, hle, hdigits, htrim⟩]
      exact .pure
    | pair content next =>
      intro bytes hbytes r
      rw [dump] at hbytes
      obtain ⟨a, ha, hbytes⟩ := Option.bind_eq_some_iff.mp hbytes
      obtain ⟨b, hb, hbytes⟩ := Option.bind_eq_some_iff.mp hbytes
      obtain rfl := Option.some.inj hbytes
      rw [reload]
      exact yields_record (by decide) (.bind (yields_loadParts (fun h => hpart _ (.content h))
        (fun h => hpart _ (.next h)) ha hb r) .pure)
    | vector cells =>
      intro bytes hbytes r
      rw [dump] at hbytes
      obtain ⟨xs, hxs, hbytes⟩ := Option.bind_eq_some_iff.mp hbytes
      obtain rfl := Option.some.inj hbytes
      rw [reload]
      apply yields_record (by decide)
      rw [List.cons_append, List.append_assoc]
      exact yields_loadVec (by decide) hproper
        (yields_map (yields_elements (fun v hv => hpart v (.cell hv)) hxs r))
    | vectorI64 cells =>
      exact hrecord expVector (by decide) (by rw [dump]) (by rw [reload] <;> simp)
        (yields_vectorI64 hproper.1 hproper.2)
    | vectorF64 cells =>
      exact hrecord expVector (by decide) (by rw [dump]) (by rw [reload] <;> simp)
        (yields_vectorF64 hproper)
    | dict d =>
      intro bytes hbytes r
      rw [dump] at hbytes
      obtain ⟨xs, hxs, hbytes⟩ := Option.bind_eq_some_iff.mp hbytes
      obtain rfl := Option.some.inj hbytes
      have hentries : concat (d.entries.map fun kv => (dumpElem session.toRegistry kv.2
          (dump session.toRegistry kv.2)).bind fun x => some (dumpStr kv.1 ++ x)) = some xs := by
        rw [map_eq_attach]
        exact hxs
      rw [List.append_assoc (dumptype expDict)]
      exact yields_record (by decide)
        (yields_dict hproper hlimit (fun kv hkv => hpart _ (.dict hkv)) hentries r)
    | set d =>
      intro bytes hbytes r
      rw [dump] at hbytes
      obtain ⟨xs, hxs, hbytes⟩ := Option.bind_eq_some_iff.mp hbytes
      obtain rfl := Option.some.inj hbytes
      have hentries : concat (d.entries.map fun kv => dumpElem session.toRegistry kv.2
          (dump session.toRegistry kv.2)) = some xs := by
        rw [map_eq_attach]
        exact hxs
      rw [List.append_assoc (dumptype expSet)]
      exact yields_record (by decide)
        (yields_set hproper hlimit hcomp (fun kv hkv => hpart _ (.set hkv)) hentries r)
    | deque vals =>
      intro bytes hbytes r
      rw [dump] at hbytes
      obtain ⟨xs, hxs, hbytes⟩ := Option.bind_eq_some_iff.mp hbytes
      obtain rfl := Option.some.inj hbytes
      rw [List.append_assoc (dumptype expList)]
      exact yields_record (by decide)
        (yields_deque hlimit (fun v hv => hpart v (.deque hv)) hxs r)
    | hamt entries =>
      intro bytes hbytes r
      rw [dump] at hbytes
      obtain ⟨xs, hxs, hbytes⟩ := Option.bind_eq_some_iff.mp hbytes
      obtain rfl := Option.some.inj hbytes
      rw [List.append_assoc (dumptype expHamt)]
      exact yields_record (by decide) (yields_hamt hproper hlimit
        (fun kv hkv => ⟨hcomp kv hkv, isNaNKey_eq_false (hportable _ (.single (.key hkv))).comparable⟩)
        (fun kv hkv => ⟨hpart _ (.key hkv), hpart _ (.val hkv)⟩) hxs r)
    | lambda multi name params body =>
      intro bytes hbytes r
      rw [dump] at hbytes
      obtain ⟨a, ha, hbytes⟩ := Option.bind_eq_some_iff.mp hbytes
      obtain ⟨b, hb, hbytes⟩ := Option.bind_eq_some_iff.mp hbytes
      obtain rfl := Option.some.inj hbytes
      rw [reload, List.append_assoc (dumptype expLambda)]
      exact yields_record (by decide) (yields_callable hlimit (fun h => hpart _ (.params h))
        (fun h => hpart _ (.body h)) ha hb _ r)
    | expander name params body =>
      intro bytes hbytes r
      rw [dump] at hbytes
      obtain ⟨a, ha, hbytes⟩ := Option.bind_eq_some_iff.mp hbytes
      obtain ⟨b, hb, hbytes⟩ := Option.bind_eq_some_iff.mp hbytes
      obtain rfl := Option.some.inj hbytes
      rw [reload, List.append_assoc (dumptype expMacro)]
      exact yields_record (by decide) (yields_callable hlimit (fun h => hpart _ (.macroParams h))
        (fun h => hpart _ (.macroBody h)) ha hb _ r)
    | foreign type => exact hcomp.elim

end Alcove.Persist
