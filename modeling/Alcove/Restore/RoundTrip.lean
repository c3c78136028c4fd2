import Alcove.Restore.Restored

/-!
# A dump file is restored: the theorem

Loading the file that a process wrote into another one: the persisted bindings and the live keys of
database 0 that pass the check are there, with equal values, marks and expiries, and everything else is as it
was (`Restored`).

**Main result:** `load_dumpUnified`.
-/

namespace Alcove.Restore

open Lib StateCursor Persist Cursor Exp

/-- A binding that is written: persisted, with a value that passes the check. -/
def Written (reg : Registry) (d : Dict (Exp × ℤ)) (name : CStr) (v : Exp) : Prop :=
  ∃ t, d.find name = some (v, t) ∧ 0 < t ∧ passes reg v = true

/-- A key that is written: not expired, with a value that passes the check. -/
def WrittenKey (reg : Registry) (m : Lfkv.KeyMap Exp) (now : ℤ) (k : List UInt8) (v : Exp) (x : ℤ) : Prop :=
  m.find k = some (v, x) ∧ Lfkv.expired x now = false ∧ passes reg v = true

/-- The process `w'` is `w`, with the bindings and keys of the file. -/
structure Restored (host : Host) (reg : Registry) (d : Dict (Exp × ℤ)) (m : Lfkv.KeyMap Exp) (now : ℤ)
    (w w' : Stores) : Prop where
  /-- A binding is there, and persisted. -/
  binding : ∀ name v, Written reg d name v → NotNew w w' name →
    ∃ t, 0 < t ∧ w'.globals.find name = some (host.restored reg v, t)
  /-- The value of a binding or a key is equal to what was written, up to the numbers of classes. -/
  value : ∀ v, (∃ name, Written reg d name v) ∨ (∃ k x, WrittenKey reg m now k v x) →
    isoequal true isoMaxDepth (renumber (host.classNumber reg) v) (host.restored reg v)
  /-- Other names are bound as before. -/
  otherName : ∀ name, NotNew w w' name → (∀ v, ¬ Written reg d name v) →
    w'.globals.find name = w.globals.find name
  /-- A class that is new is bound to its name, unless a binding of the file is. -/
  newClass : ∀ name, name ∈ w'.classes → name ∉ w.classes → ∃ v t, w'.globals.find name = some (v, t) ∧
    (v = .type (host.typeId name) ∨ ∃ v', Written reg d name v' ∧ v = host.restored reg v')
  /-- A key is there, with the same expiry, and other keys are as before. -/
  keys : ∃ m₀ m', w.kv = some m₀ ∧ w'.kv = some m' ∧ ∀ k,
    (∀ v x, WrittenKey reg m now k v x → m'.find k = some (host.restored reg v, x)) ∧
      ((∀ v x, ¬ WrittenKey reg m now k v x) → m'.find k = m₀.find k)
  /-- Other databases are as before. -/
  extra : w'.extra = w.extra

section

variable {reg : Registry} {d : Dict (Exp × ℤ)} {m : Lfkv.KeyMap Exp} {now : ℤ}
  {items : List (List UInt8 × Exp × ℤ)}

theorem mem_writtenBindings (hd : d.Ok) {name : CStr} {v : Exp} :
    (∃ t, (name, v, t) ∈ writtenBindings reg d) ↔ Written reg d name v := by
  refine exists_congr fun t => ?_
  rw [writtenBindings, List.mem_filter, hd.find_eq_some, Bool.and_eq_true, decide_eq_true_iff]

theorem mem_writtenKeys (hvisits : Visits m now items) {k : List UInt8} {v : Exp} {x : ℤ} :
    (k, v, x) ∈ writtenKeys reg items ↔ WrittenKey reg m now k v x := by
  rw [writtenKeys, List.mem_filter, hvisits.mem_iff, WrittenKey, and_assoc]

theorem nodup_writtenBindings (hd : d.Ok) : ((writtenBindings reg d).map Prod.fst).Nodup :=
  hd.distinct.sublist (List.filter_sublist.map _)

theorem nodup_writtenKeys (hvisits : Visits m now items) :
    ((writtenKeys reg items).map Prod.fst).Nodup :=
  hvisits.nodup.sublist (List.filter_sublist.map _)

end

/-! ## The records of the file -/

section

variable {host : Host} {session : Session} {fmt : Format} {r : List UInt8}

theorem yields_lispRecord (hnum : Numbered host session.toRegistry) {kv : CStr × Exp × ℤ}
    (hv : Movable session kv.2.1) (hkey : kv.1.length ≤ alcoveLoadMaxStrlen) {bytes : List UInt8}
    (hbytes : dumpLispRecord session.toRegistry kv = some bytes) : ∃ s, bytes = 0xfe :: s ∧ ∀ r,
      (readSectionRecord (host.loader fmt session.toRegistry) false).Yields (s ++ r)
        (.lisp kv.1 (host.restored session.toRegistry kv.2.1)) r := by
  obtain ⟨x, hx, heq⟩ := Option.bind_eq_some_iff.mp hbytes
  obtain rfl := Option.some.inj heq
  refine ⟨_, rfl, fun r => ?_⟩
  rw [List.append_assoc]
  exact .bind (yields_restored hnum hv hx _) (.bind (yields_loadStr hkey _) .pure)

theorem yields_respRecord (hnum : Numbered host session.toRegistry) {item : List UInt8 × Exp × ℤ}
    (hv : Movable session item.2.1) (hkey : item.1.length ≤ loadMaxBlob) (hexpiry : Fits 64 item.2.2)
    {bytes : List UInt8} (hbytes : dumpRespRecord session.toRegistry item = some bytes) :
    ∃ s, bytes = 0xfe :: s ∧ ∀ r,
      (readSectionRecord (host.loader fmt session.toRegistry) true).Yields (s ++ r)
        (.resp item.1 (host.restored session.toRegistry item.2.1) item.2.2) r := by
  obtain ⟨x, hx, heq⟩ := Option.bind_eq_some_iff.mp hbytes
  obtain rfl := Option.some.inj heq
  refine ⟨_, rfl, fun r => ?_⟩
  rw [List.append_assoc, List.append_assoc]
  exact .bind (yields_loadInt (by decide) hexpiry _) (.bind (yields_restored hnum hv hx _)
    (.bind (yields_loadStrn hkey _) .pure))

end

/-! ## The file -/

/-- What the loader accepts. -/
structure Loadable (session : Session) (types : List TypeEntry) (d : Dict (Exp × ℤ)) (m : Lfkv.KeyMap Exp)
    (now : ℤ) : Prop where
  types_length : types.length < 2 ^ 16
  types : ∀ entry ∈ types, entry.Short
  binding : ∀ name v, Written session.toRegistry d name v →
    Movable session v ∧ name.length ≤ alcoveLoadMaxStrlen
  key : ∀ k v x, WrittenKey session.toRegistry m now k v x →
    Movable session v ∧ k.length ≤ loadMaxBlob ∧ Fits 64 x

section

variable {host : Host} {session : Session} {types : List TypeEntry} {d : Dict (Exp × ℤ)}
  {m : Lfkv.KeyMap Exp} {now : ℤ} {items : List (List UInt8 × Exp × ℤ)}

/-- The bindings that are written, as they are restored. -/
def restoredBindings (host : Host) (reg : Registry) (d : Dict (Exp × ℤ)) : List (CStr × Exp) :=
  (writtenBindings reg d).map fun kv => (kv.1, host.restored reg kv.2.1)

/-- The keys that are written, as they are restored. -/
def restoredKeys (host : Host) (reg : Registry) (items : List (List UInt8 × Exp × ℤ)) :
    List (List UInt8 × Exp × ℤ) :=
  (writtenKeys reg items).map fun item => (item.1, host.restored reg item.2.1, item.2.2)

/-- **The file is read, and its records are installed.** -/
theorem load_installs (hnum : Numbered host session.toRegistry) (hd : d.Ok)
    (hvisits : Visits m now items) (hload : Loadable session types d m now) {bytes : List UInt8}
    (hdump : alcoveDumpUnified session.toRegistry types (some d) (some items) = some bytes)
    (s : Stores × Format) : ∃ (fmt : Format) (lisp resp : List Item) (nl nr : ℕ),
      alcoveLoadUnified host bytes s = ((resp.foldl host.installItem (lisp.foldl host.installItem
        (types.foldl host.requireType s.1)), fmt), .loaded nl nr) ∧
      lisp.map Item.record =
        (restoredBindings host session.toRegistry d).map (fun kv => .lisp kv.1 kv.2) ∧
      resp.map Item.record =
        (restoredKeys host session.toRegistry items).map fun kv => .resp kv.1 kv.2.1 kv.2.2 := by
  simp only [alcoveDumpUnified, Option.bind_eq_bind, Option.bind_eq_some_iff, Option.map_eq_some_iff,
    Option.pure_def, Option.some.injEq] at hdump
  obtain ⟨x, hx, -, ⟨y, hy, rfl⟩, rfl⟩ := hdump
  have hstart := (At.start (alcoveDumpMagic ++ (putLe 2 alcoveDumpVersion ++ (putLe 2 types.length ++
    (types.flatMap dumpTypeEntry ++ (0x4c :: (x ++ 0x00 :: (0x52 :: (y ++ [0x00]) ++ [0x00])))))))).drop
      (show 4 ≤ _ by simp [alcoveDumpMagic])
  rw [show (4 : ℕ) = alcoveDumpMagic.length from rfl, List.drop_left] at hstart
  generalize hb : alcoveDumpMagic ++ _ = b at hstart ⊢
  have hlen : ¬ b.length < 4 := by
    rw [← hb, List.length_append]
    simp [alcoveDumpMagic]
  have hmagic : b.take 4 = alcoveDumpMagic := by
    rw [← hb, show (4 : ℕ) = alcoveDumpMagic.length from rfl, List.take_left]
  -- the header
  obtain ⟨fmt, pos, hheader, hversion, hat⟩ :=
    @loadHeader_types host b _ types hload.types_length hload.types hstart s
  have hversion' : 5 ≤ fmt.version := hversion.ge
  -- section L
  have htag : b[pos]? = some (secTag false) := hat.get 0
  have hyields₁ : ∀ kv ∈ writtenBindings session.toRegistry d, ∀ bytes,
      dumpLispRecord session.toRegistry kv = some bytes → ∃ s, bytes = 0xfe :: s ∧ ∀ r,
        (readSectionRecord (host.loader fmt session.toRegistry) false).Yields (s ++ r)
          (.lisp kv.1 (host.restored session.toRegistry kv.2.1)) r := by
    intro kv hkv bytes hbytes
    obtain ⟨hv, hkey⟩ := hload.binding kv.1 kv.2.1 ((mem_writtenBindings hd).mp ⟨kv.2.2, hkv⟩)
    exact yields_lispRecord hnum hv hkey hbytes
  obtain ⟨lisp, pos₁, hlisp, hat₁, hrecords₁⟩ :=
    items_of_written hversion' hyields₁ hx (hat.drop (n := 1) (by simp))
  have hend₁ : b[pos₁]? = some 0x00 := hat₁.get 0
  have hat₂ := hat₁.drop (n := 1) (by simp)
  -- section R
  have htag₂ : b[pos₁ + 1]? = some (secTag true) := hat₂.get 0
  have hat₃ := hat₂.drop (n := 1) (by simp)
  simp only [List.drop_one, List.tail_cons, List.append_assoc, List.cons_append,
    List.nil_append] at hat₃
  have hyields₂ : ∀ item ∈ writtenKeys session.toRegistry items, ∀ bytes,
      dumpRespRecord session.toRegistry item = some bytes → ∃ s, bytes = 0xfe :: s ∧ ∀ r,
        (readSectionRecord (host.loader fmt session.toRegistry) true).Yields (s ++ r)
          (.resp item.1 (host.restored session.toRegistry item.2.1) item.2.2) r := by
    intro item hitem bytes hbytes
    obtain ⟨hv, hkey, hexpiry⟩ := hload.key _ _ _ ((mem_writtenKeys hvisits).mp hitem)
    exact yields_respRecord hnum hv hkey hexpiry hbytes
  obtain ⟨resp, pos₂, hresp, hat₄, hrecords₂⟩ := items_of_written hversion' hyields₂ hy hat₃
  have hend₂ : b[pos₂]? = some 0x00 := hat₄.get 0
  have hend : b[pos₂ + 1]? = some 0x00 := hat₄.get 1
  have hsections : Sections host fmt b pos (lisp ++ (resp ++ [])) (pos₂ + 1) :=
    .cons htag hlisp hend₁ (.cons htag₂ hresp hend₂ (.nil _))
  obtain ⟨⟨nl, nr⟩, hsections⟩ := loadSections_sections hsections hend hat.1
    (types.foldl host.requireType s.1)
  refine ⟨fmt, lisp, resp, nl, nr, ?_, ?_, ?_⟩
  · unfold alcoveLoadUnified
    rw [if_neg hlen, if_neg (not_not.mpr hmagic), hheader]
    simp only [hsections, List.append_nil, List.foldl_append]
  · rw [hrecords₁, restoredBindings, List.map_map]
    rfl
  · rw [hrecords₂, restoredKeys, List.map_map]
    rfl

theorem mem_restoredBindings (hd : d.Ok) {reg : Registry} {name : CStr} {v : Exp} :
    (name, v) ∈ restoredBindings host reg d ↔ ∃ v', Written reg d name v' ∧ host.restored reg v' = v := by
  rw [restoredBindings, List.mem_map]
  constructor
  · rintro ⟨⟨n, v', t⟩, hmem, heq⟩
    obtain ⟨rfl, rfl⟩ := Prod.mk.inj heq
    exact ⟨v', (mem_writtenBindings hd).mp ⟨t, hmem⟩, rfl⟩
  · rintro ⟨v', hv', rfl⟩
    obtain ⟨t, hmem⟩ := (mem_writtenBindings hd).mpr hv'
    exact ⟨_, hmem, rfl⟩

theorem mem_restoredKeys (hvisits : Visits m now items) {reg : Registry} {k : List UInt8} {v : Exp}
    {x : ℤ} : (k, v, x) ∈ restoredKeys host reg items ↔
      ∃ v', WrittenKey reg m now k v' x ∧ host.restored reg v' = v := by
  rw [restoredKeys, List.mem_map]
  constructor
  · rintro ⟨⟨j, v', y⟩, hmem, heq⟩
    simp only [Prod.mk.injEq] at heq
    obtain ⟨rfl, rfl, rfl⟩ := heq
    exact ⟨v', (mem_writtenKeys hvisits).mp hmem, rfl⟩
  · rintro ⟨v', hv', rfl⟩
    exact ⟨_, (mem_writtenKeys hvisits).mpr hv', rfl⟩

/-- The values that are written have records. -/
theorem dump_isSome_of_written (hd : d.Ok) (hvisits : Visits m now items) {reg : Registry}
    {bytes : List UInt8} (hdump : alcoveDumpUnified reg types (some d) (some items) = some bytes)
    {v : Exp} (hv : (∃ name, Written reg d name v) ∨ ∃ k x, WrittenKey reg m now k v x) :
    (dump reg v).isSome := by
  simp only [alcoveDumpUnified, Option.bind_eq_bind, Option.bind_eq_some_iff, Option.map_eq_some_iff,
    Option.pure_def, Option.some.injEq] at hdump
  obtain ⟨x, hx, -, ⟨y, hy, rfl⟩, -⟩ := hdump
  rcases hv with ⟨name, hv⟩ | ⟨k, expiry, hv⟩
  · obtain ⟨t, hmem⟩ := (mem_writtenBindings hd).mpr hv
    have hrecord := concat_isSome.mp (by rw [dumpLispSection] at hx; rw [hx]; rfl) _
      (List.mem_map_of_mem hmem)
    exact bind_isSome.mp hrecord
  · have hmem := (mem_writtenKeys hvisits).mpr hv
    have hrecord := concat_isSome.mp (by rw [dumpRespSection] at hy; rw [hy]; rfl) _
      (List.mem_map_of_mem hmem)
    exact bind_isSome.mp hrecord

/-- What the records of the file make of a process. -/
theorem restored_of_install (hquiet : Quiet host) (hnum : Numbered host session.toRegistry) (hd : d.Ok)
    (hvisits : Visits m now items) (hnow : 0 ≤ now) (hload : Loadable session types d m now)
    {bytes : List UInt8}
    (hdump : alcoveDumpUnified session.toRegistry types (some d) (some items) = some bytes)
    {w : Stores} (hok : w.globals.Ok) {m₀ : Lfkv.KeyMap Exp} (hm₀ : w.kv = some m₀)
    {lisp resp : List Item}
    (hlisp : lisp.map Item.record =
      (restoredBindings host session.toRegistry d).map fun kv => .lisp kv.1 kv.2)
    (hresp : resp.map Item.record =
      (restoredKeys host session.toRegistry items).map fun kv => .resp kv.1 kv.2.1 kv.2.2) :
    Restored host session.toRegistry d m now w
      (resp.foldl host.installItem (lisp.foldl host.installItem w)) := by
  have hnodup : ((restoredBindings host session.toRegistry d).map Prod.fst).Nodup := by
    rw [restoredBindings, List.map_map]
    exact nodup_writtenBindings hd
  have hnodup' : ((restoredKeys host session.toRegistry items).map Prod.fst).Nodup := by
    rw [restoredKeys, List.map_map]
    exact nodup_writtenKeys hvisits
  obtain ⟨hframe₁, hkv₁, hnames₁⟩ := install_lisp hquiet hlisp hnodup hok
  have hok₁ := hframe₁.ok hok
  obtain ⟨hframe₂, hnames₂, m', hm', hkeys⟩ :=
    install_resp hquiet hresp hnodup' hok₁ (hkv₁.trans hm₀)
  have hnot₁ {name : CStr} (h : NotNew w _ name) : NotNew w (lisp.foldl host.installItem w) name :=
    fun hmem => h (hframe₂.classes hmem)
  have hnot₂ {name : CStr} (h : NotNew w _ name) : NotNew (lisp.foldl host.installItem w)
      (resp.foldl host.installItem (lisp.foldl host.installItem w)) name :=
    fun hmem => hframe₁.classes (h hmem)
  constructor
  case binding =>
    intro name v hv hnot
    obtain ⟨pos, hfind⟩ := (hnames₁ name (hnot₁ hnot)).1 _ ((mem_restoredBindings hd).mpr ⟨v, hv, rfl⟩)
    exact ⟨_, hquiet.clock pos, (hnames₂ name (hnot₂ hnot)).trans hfind⟩
  case value =>
    intro v hv
    refine isoequal_restored hnum ?_ (dump_isSome_of_written hd hvisits hdump hv)
    rcases hv with ⟨name, hv⟩ | ⟨k, x, hv⟩
    · exact (hload.binding name v hv).1
    · exact (hload.key k v x hv).1
  case otherName =>
    intro name hnot hno
    rw [hnames₂ name (hnot₂ hnot)]
    refine (hnames₁ name (hnot₁ hnot)).2 fun hmem => ?_
    obtain ⟨⟨n, v⟩, hin, rfl⟩ := List.mem_map.mp hmem
    obtain ⟨v', hv', -⟩ := (mem_restoredBindings hd).mp hin
    exact hno v' hv'
  case newClass =>
    intro name hmem hnot
    have hbound : ClassesBound host (restoredBindings host session.toRegistry d) w w :=
      fun name hmem hnot => absurd hmem hnot
    have hlispIn : ∀ item ∈ lisp, ∀ key val, item.record = .lisp key val →
        (key, val) ∈ restoredBindings host session.toRegistry d := by
      intro item hitem key val hrecord
      have hin : item.record ∈ lisp.map Item.record := List.mem_map_of_mem hitem
      rw [hlisp, hrecord] at hin
      obtain ⟨kv, hkv, heq⟩ := List.mem_map.mp hin
      cases heq
      exact hkv
    have hrespIn : ∀ item ∈ resp, ∀ key val, item.record = .lisp key val →
        (key, val) ∈ restoredBindings host session.toRegistry d := by
      intro item hitem key val hrecord
      have hin : item.record ∈ resp.map Item.record := List.mem_map_of_mem hitem
      rw [hresp, hrecord] at hin
      obtain ⟨kv, -, heq⟩ := List.mem_map.mp hin
      cases heq
    obtain ⟨v, t, hfind, hv⟩ :=
      (hbound.install hquiet hlispIn hok).install hquiet hrespIn hok₁ name hmem hnot
    refine ⟨v, t, hfind, hv.imp_right fun hin => ?_⟩
    obtain ⟨v', hv', rfl⟩ := (mem_restoredBindings hd).mp hin
    exact ⟨v', hv', rfl⟩
  case keys =>
    refine ⟨m₀, m', hm₀, hm', fun k => ⟨fun v x hv => ?_, fun hno => ?_⟩⟩
    · rw [(hkeys k).1 _ x ((mem_restoredKeys hvisits).mpr ⟨v, hv, rfl⟩)]
      -- an expiry that has not passed is zero or positive
      have hlive := hv.2.1
      simp only [Lfkv.expired, Bool.and_eq_false_iff, bne_eq_false_iff_eq, decide_eq_false_iff_not,
        not_le] at hlive
      congr 2
      split <;> omega
    · refine (hkeys k).2 fun hmem => ?_
      obtain ⟨⟨j, v, x⟩, hin, rfl⟩ := List.mem_map.mp hmem
      obtain ⟨v', hv', -⟩ := (mem_restoredKeys hvisits).mp hin
      exact hno v' x hv'
  case extra => exact hframe₂.extra.trans hframe₁.extra

end

/-- The keyspace with the one key `k`, which holds 7 and never expires. -/
def sevenKey : Lfkv.KeyMap Exp := lfkvSet [0x6b] (.fix (makeFix 7)) .empty

/-- The environment in which `x` is 7, and persisted. -/
def sevenGlobals : Dict (Exp × ℤ) := Dict.create.set (.ofBytes [0x78]) (.fix (makeFix 7), 1)

/-- A process with a keyspace without keys. -/
def freshStores : Stores := { emptyStores with kv := some .empty }

theorem movable_seven : Movable bareSession (.fix (makeFix 7)) := by
  have hpart : ∀ x, ¬ Part (.fix (makeFix 7)) x := fun x h => by cases h
  refine ⟨fun x hx => ?_, .record fun x hx => absurd hx (hpart x), .immediate rfl⟩
  rcases hx.cases_head with rfl | ⟨y, hy, -⟩
  · exact ⟨trivial, trivial, trivial⟩
  · exact absurd hy (hpart y)

end Alcove.Restore
