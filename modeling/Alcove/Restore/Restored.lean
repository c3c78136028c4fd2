import Alcove.Restore.Damage
import Alcove.Restore.Renumber
import Alcove.Restore.Writer

/-!
# A dump file is restored

What loading the file that a process wrote does, step by step, in another process, which numbers its classes
in its own way: the header is read, each value is read up to the numbers of its classes
(`yields_restored`), and the records of a section are installed one after the other (`install_lisp`,
`install_resp`).
-/

namespace Alcove.Restore

open Lib StateCursor Persist Cursor Exp

/-! ## Runs of the loops -/

section

variable {host : Host} {fmt : Format} {b : List UInt8}

/-- A round that meets a record. -/
theorem sectionRound_record {isResp : Bool} {pos : ℕ} {item : Item}
    (hitem : RecordAt host fmt b isResp pos item) (n : ℕ) (w : Stores) :
    sectionRound host fmt isResp n b pos w =
      (host.installItem w item, .ok (.inl (n + 1)) item.pos) := by
  obtain ⟨hmarker, hload⟩ := hitem
  rcases sectionRound_cases isResp n w with ⟨effects, pos', hno, -⟩ | ⟨hend, -⟩ | ⟨item', hitem', h⟩
  · cases hno with
    | marker _ hrecord => exact absurd hmarker hrecord
    | incomplete _ hfail =>
      rw [hload] at hfail
      cases hfail
  · rw [hmarker] at hend
    cases hend
  · obtain ⟨-, hload'⟩ := hitem'
    rw [hload] at hload'
    obtain ⟨effects, record, pos'⟩ := item
    obtain ⟨effects', record', pos''⟩ := item'
    cases hload'
    exact h

/-- **A whole section is installed.** -/
theorem loadSectionRecords_items {isResp : Bool} {pos pos' : ℕ} {items : List Item}
    (hitems : Items host fmt b isResp pos items pos') (hend : b[pos']? = some 0x00)
    (hpos : pos ≤ b.length) (w : Stores) : loadSectionRecords host fmt isResp b pos w =
      (items.foldl host.installItem w, .ok items.length (pos' + 1)) := by
  have hloop : ∀ n w, loop (sectionRound host fmt isResp) n b pos w =
      (items.foldl host.installItem w, .ok (n + items.length) (pos' + 1)) := by
    induction hitems with
    | nil pos =>
      intro n w
      apply loop_done
      rcases sectionRound_cases isResp n w with ⟨effects, pos', hno, -⟩ | ⟨-, h⟩ | ⟨item, hitem, -⟩
      · cases hno with
        | marker hno _ => exact absurd hend hno
        | incomplete hmarker _ =>
          rw [hend] at hmarker
          cases hmarker
      · exact h
      · rw [hitem.1] at hend
        cases hend
    | @cons pos pos' item items hitem _ ih =>
      intro n w
      have hround := sectionRound_record hitem n w
      have hadvances : Advances (sectionRound host fmt isResp) := advances_sectionRound isResp
      have hadvance := hadvances n b pos w hpos
      rw [hround] at hadvance
      rw [loop_next (advances_sectionRound isResp) hpos hround, ih hend hadvance.2]
      simp [Nat.add_assoc, Nat.add_comm 1]
  have h := hloop 0 w
  rw [Nat.zero_add] at h
  exact h

/-- A round over a whole section. -/
theorem sectionsRound_section {isResp : Bool} {pos pos' : ℕ} {items : List Item}
    (htag : b[pos]? = some (secTag isResp)) (hitems : Items host fmt b isResp (pos + 1) items pos')
    (hend : b[pos']? = some 0x00) (n : ℕ × ℕ) (w : Stores) : ∃ n', sectionsRound host fmt n b pos w =
      (items.foldl host.installItem w, .ok (.inl n') (pos' + 1)) := by
  have hpos : pos + 1 ≤ b.length := (List.getElem?_eq_some_iff.mp htag).1
  have hread : (StateCursor.read (loadLe 1) : StateCursor Stores UInt8 ℕ) b pos w =
      (w, .ok (secTag isResp).toNat (pos + 1)) := by
    refine Prod.ext rfl ?_
    show loadLe 1 b pos = _
    rw [loadLe_one, htag]
  obtain ⟨nl, nr⟩ := n
  have hbody := bind_ok (f := fun tag =>
    if tag = 0x00 then (return .inr (nl, nr) : StateCursor Stores UInt8 (ℕ × ℕ ⊕ ℕ × ℕ))
    else if tag = alcoveSecLisp then do
      let got ← loadSectionRecords host fmt false
      return .inl (nl + got, nr)
    else if tag = alcoveSecResp then do
      let got ← loadSectionRecords host fmt true
      return .inl (nl, nr + got)
    else StateCursor.fail) hread
  have hround := loadSectionRecords_items hitems hend hpos w
  cases isResp with
  | false => exact ⟨(nl + items.length, nr), hbody.trans (bind_ok hround)⟩
  | true => exact ⟨(nl, nr + items.length), hbody.trans (bind_ok hround)⟩

/-- **Whole sections are installed.** -/
theorem loadSections_sections {pos pos' : ℕ} {items : List Item}
    (hsections : Sections host fmt b pos items pos') (hend : b[pos']? = some 0x00)
    (hpos : pos ≤ b.length) (w : Stores) : ∃ n, loadSections host fmt b pos w =
      (items.foldl host.installItem w, .ok n (pos' + 1)) := by
  have hloop : ∀ n w, ∃ n', loop (sectionsRound host fmt) n b pos w =
      (items.foldl host.installItem w, .ok n' (pos' + 1)) := by
    induction hsections with
    | nil pos =>
      intro n w
      refine ⟨n, loop_done ?_⟩
      rcases sectionsRound_cases n w with ⟨hno, -, -⟩ | ⟨-, h⟩ | ⟨isResp, items, pos', htag, -⟩
      · exact absurd hend hno
      · exact h
      · rw [hend] at htag
        cases isResp <;> cases htag
    | @cons isResp pos pos' pos'' items items' htag hitems hend' _ ih =>
      intro n w
      obtain ⟨n', hround⟩ := sectionsRound_section htag hitems hend' n w
      have hadvances : Advances (sectionsRound host fmt) := advances_sectionsRound
      have hadvance := hadvances n b pos w hpos
      rw [hround] at hadvance
      obtain ⟨n'', hrest⟩ := ih hend hadvance.2 n' (items.foldl host.installItem w)
      exact ⟨n'', by rw [loop_next advances_sectionsRound hpos hround, hrest, List.foldl_append]⟩
  exact hloop (0, 0) w

end

/-! ## Records -/

/-- A record after its marker, its value read as `Persist.loadExp` reads it. -/
def readSectionRecord (session : Session) (isResp : Bool) : Cursor UInt8 Record :=
  if isResp then do
    let expiry ← loadInt 8
    let val ← Persist.loadExp session alcoveLoadMaxDepth
    let key ← loadStrn
    return .resp key val expiry
  else do
    let val ← Persist.loadExp session alcoveLoadMaxDepth
    let key ← loadStr
    return .lisp key val

section

variable {host : Host} {fmt : Format} {reg : Registry}
  {hreg : ∀ id name, reg.userTypeName id = some name → (host.typeId name).toNat = id}
  {b : List UInt8} {isResp : Bool} {pos : ℕ} {s r : List UInt8}

theorem loadSectionRecord_erases (hversion : 5 ≤ fmt.version) (isResp : Bool) :
    (loadSectionRecord host fmt isResp).Erases
      (readSectionRecord (host.session fmt reg hreg) isResp) := by
  have hexp : (loadExp host.toTables fmt alcoveLoadMaxDepth).Erases
      (Persist.loadExp (host.session fmt reg hreg) alcoveLoadMaxDepth) := loadExp_erases hversion _
  refine .ite ?_ ?_
  · exact .bind (.read _) fun _ => .bind hexp fun _ => .bind (.read _) fun _ => .pure _
  · exact .bind hexp fun _ => .bind (.read _) fun _ => .pure _

theorem yields_loadStrn {bytes : List UInt8} (h : bytes.length ≤ loadMaxBlob) (r : List UInt8) :
    loadStrn.Yields (dumpStrn bytes ++ r) bytes r := by
  have hmax : loadMaxBlob < 256 ^ 8 := by decide
  rw [dumpStrn, dumpsizeT, List.append_assoc]
  refine .bind (yields_loadLe (by omega) _) ?_
  rw [if_neg (by omega)]
  exact yields_fread bytes r

/-- A record in the file. -/
theorem recordAt_of_yields (hversion : 5 ≤ fmt.version) {record : Record}
    (h : (readSectionRecord (host.session fmt reg hreg) isResp).Yields s record r)
    (hat : At b pos (0xfe :: s)) :
    ∃ item, RecordAt host fmt b isResp pos item ∧ item.record = record ∧ At b item.pos r := by
  have hmarker : b[pos]? = some 0xfe := hat.get 0
  have hat' : At b (pos + 1) s := hat.drop (n := 1) (by simp)
  obtain ⟨pos', heq, hr⟩ := h b (pos + 1) hat'
  rw [← loadSectionRecord_erases hversion isResp b (pos + 1) []] at heq
  exact ⟨⟨(loadSectionRecord host fmt isResp b (pos + 1) []).1, record, pos'⟩,
    ⟨hmarker, Prod.ext rfl heq⟩, rfl, hr⟩

/-- **The records of a section that was written are in the file.** -/
theorem items_of_written {α : Type} (hversion : 5 ≤ fmt.version) {xs : List α}
    {bytesOf : α → Option (List UInt8)} {recordOf : α → Record}
    (h : ∀ x ∈ xs, ∀ bytes, bytesOf x = some bytes → ∃ s, bytes = 0xfe :: s ∧ ∀ r,
      (readSectionRecord (host.session fmt reg hreg) isResp).Yields (s ++ r) (recordOf x) r)
    {bytes : List UInt8} (hbytes : concat (xs.map bytesOf) = some bytes)
    (hat : At b pos (bytes ++ r)) : ∃ items pos', Items host fmt b isResp pos items pos' ∧
      At b pos' r ∧ items.map Item.record = xs.map recordOf := by
  induction xs generalizing pos bytes with
  | nil =>
    obtain rfl : [] = bytes := Option.some.inj hbytes
    exact ⟨[], pos, .nil pos, hat, rfl⟩
  | cons x xs ih =>
    obtain ⟨hx, hxs⟩ := List.forall_mem_cons.mp h
    simp only [List.map_cons, concat, Option.bind_eq_bind, Option.bind_eq_some_iff, Option.pure_def,
      Option.some.injEq] at hbytes
    obtain ⟨y, hy, ys, hys, rfl⟩ := hbytes
    obtain ⟨s, rfl, hyields⟩ := hx y hy
    rw [List.append_assoc] at hat
    obtain ⟨item, hitem, hrecord, hat'⟩ := recordAt_of_yields hversion (hyields _) hat
    obtain ⟨items, pos', hitems, hat'', hmap⟩ := ih hxs hys hat'
    exact ⟨item :: items, pos', .cons hitem hitems, hat'', by rw [List.map_cons, hrecord, hmap]; rfl⟩

end

/-! ## The classes of the process that loads -/

/-- The number that a class has in the process that loads. -/
def Host.classNumber (host : Host) (reg : Registry) (id : UInt32) : UInt32 :=
  if id.toNat < typeUserMin then id
  else ((reg.userTypeName id.toNat).map host.typeId).getD id

/-- The numbers of user classes are above those of built-in types, and different classes have different
ones, in both processes. -/
structure Numbered (host : Host) (reg : Registry) : Prop where
  min : ∀ id name, reg.userTypeName id = some name →
    typeUserMin ≤ id ∧ typeUserMin ≤ (host.typeId name).toNat
  inj : ∀ i j m n, reg.userTypeName i = some m → reg.userTypeName j = some n →
    host.typeId m = host.typeId n → i = j

open Classical in
/-- The classes of `reg`, as the process that loads numbers them. -/
noncomputable def Host.registry (host : Host) (reg : Registry) : Registry where
  userTypeName id :=
    if h : ∃ name, (∃ i, reg.userTypeName i = some name) ∧ (host.typeId name).toNat = id then
      some h.choose
    else none
  customDump := reg.customDump

section

variable {host : Host} {reg : Registry}

theorem registry_typeId (host : Host) (reg : Registry) : ∀ id name,
    (host.registry reg).userTypeName id = some name → (host.typeId name).toNat = id := by
  intro id name h
  simp only [Host.registry] at h
  split at h
  · next hex =>
    obtain rfl := Option.some.inj h
    exact hex.choose_spec.2
  · cases h

theorem registry_name (hnum : Numbered host reg) {id : ℕ} {name : CStr}
    (h : reg.userTypeName id = some name) :
    (host.registry reg).userTypeName (host.typeId name).toNat = some name := by
  have hex : ∃ name', (∃ i, reg.userTypeName i = some name') ∧
      (host.typeId name').toNat = (host.typeId name).toNat := ⟨name, ⟨id, h⟩, rfl⟩
  simp only [Host.registry]
  rw [dif_pos hex]
  obtain ⟨⟨i, hi⟩, hsame⟩ := hex.choose_spec
  obtain rfl := hnum.inj i id _ name hi h (UInt32.toNat_inj.mp hsame)
  rw [hi] at h
  exact h

theorem renumbers (hnum : Numbered host reg) :
    Renumbers (host.classNumber reg) reg (host.registry reg) where
  customDump := rfl
  builtin id hid := by
    refine ⟨if_pos hid, ?_⟩
    by_contra hne
    obtain ⟨name, hname⟩ := Option.ne_none_iff_exists'.mp hne
    have hmin : typeUserMin ≤ (host.typeId name).toNat := by
      simp only [Host.registry] at hname
      split at hname
      · next hex =>
        obtain rfl := Option.some.inj hname
        obtain ⟨⟨i, hi⟩, -⟩ := hex.choose_spec
        exact (hnum.min i _ hi).2
      · cases hname
    rw [registry_typeId host reg _ _ hname] at hmin
    omega
  user id hid hsome := by
    obtain ⟨name, hname⟩ := Option.isSome_iff_exists.mp hsome
    have hnumber : host.classNumber reg id = host.typeId name := by
      rw [Host.classNumber, if_neg (by omega), hname]
      rfl
    rw [hnumber, hname]
    exact ⟨(hnum.min _ _ hname).2, registry_name hnum hname⟩
  inj i j hi hj heq := by
    have hnumber {id : UInt32} (hid : ¬ id.toNat < typeUserMin) (h : Writable reg (.type id)) :
        ∃ name, reg.userTypeName id.toNat = some name ∧
          host.classNumber reg id = host.typeId name := by
      obtain hlt | hsome := h
      · exact absurd hlt hid
      · obtain ⟨name, hname⟩ := Option.isSome_iff_exists.mp hsome
        refine ⟨name, hname, ?_⟩
        rw [Host.classNumber, if_neg hid, hname]
        rfl
    by_cases hbi : i.toNat < typeUserMin <;> by_cases hbj : j.toNat < typeUserMin
    · rwa [Host.classNumber, Host.classNumber, if_pos hbi, if_pos hbj] at heq
    · obtain ⟨name, hname, hn⟩ := hnumber hbj hj
      have hmin := (hnum.min _ _ hname).2
      rw [← hn, ← heq, Host.classNumber, if_pos hbi] at hmin
      omega
    · obtain ⟨name, hname, hn⟩ := hnumber hbi hi
      have hmin := (hnum.min _ _ hname).2
      rw [← hn, heq, Host.classNumber, if_pos hbj] at hmin
      omega
    · obtain ⟨m, hm, hmi⟩ := hnumber hbi hi
      obtain ⟨n, hn, hnj⟩ := hnumber hbj hj
      exact UInt32.toNat_inj.mp (hnum.inj _ _ m n hm hn (hmi.symm.trans (heq.trans hnj)))

end

/-! ## Values -/

/-- A value that can be moved to another process, and compared there. -/
structure Movable (session : Session) (v : Exp) : Prop where
  portable : ∀ x, Inside v x → Portable session x
  levels : LevelsWithin alcoveLoadMaxDepth v
  nests : NestsWithin isoMaxDepth v

/-- The value that the process that loads makes of the record of `v`. -/
def Host.restored (host : Host) (reg : Registry) (v : Exp) : Exp :=
  reload host.place (renumber (host.classNumber reg) v)

section

variable {host : Host} {session : Session} {fmt : Format} {v : Exp}

/-- The process that loads, with the classes of the one that dumped. -/
noncomputable abbrev Host.loader (host : Host) (fmt : Format) (reg : Registry) : Session :=
  host.session fmt (host.registry reg) (registry_typeId host reg)

/-- **A value is restored**, up to the numbers of the classes. -/
theorem yields_restored (hnum : Numbered host session.toRegistry) (hv : Movable session v)
    {bytes : List UInt8} (hdump : dump session.toRegistry v = some bytes) (r : List UInt8) :
    (Persist.loadExp (host.loader fmt session.toRegistry) alcoveLoadMaxDepth).Yields (bytes ++ r)
      (host.restored session.toRegistry v) r := by
  have hwritable : ∀ x, Inside v x → Writable session.toRegistry x :=
    dump_isSome_iff.mp (by rw [hdump]; rfl)
  have hproper : ∀ x, Inside v x → Persist.Proper x := fun x hx => (hv.portable x hx).proper
  have hf : Renumbers (host.classNumber session.toRegistry) session.toRegistry
      (host.loader fmt session.toRegistry).toRegistry := renumbers hnum
  refine loadExp_dump (portable_renumber hf hwritable hv.portable)
    (levelsWithin_renumber hproper hv.levels) bytes ?_ r
  rw [dump_renumber hf fun x hx => ⟨hwritable x hx, hproper x hx⟩, hdump]

theorem isoequal_restored (hnum : Numbered host session.toRegistry) (hv : Movable session v)
    (hdump : (dump session.toRegistry v).isSome) :
    isoequal true isoMaxDepth (renumber (host.classNumber session.toRegistry) v)
      (host.restored session.toRegistry v) := by
  have hwritable : ∀ x, Inside v x → Writable session.toRegistry x := dump_isSome_iff.mp hdump
  have hf : Renumbers (host.classNumber session.toRegistry) session.toRegistry
      (host.loader ⟨5, fun _ => none⟩ session.toRegistry).toRegistry := renumbers hnum
  have hportable : ∀ x, Inside (renumber (host.classNumber session.toRegistry) v) x →
      Portable (host.loader ⟨5, fun _ => none⟩ session.toRegistry) x :=
    portable_renumber hf hwritable hv.portable
  exact isoequal_reload hportable
    (nestsWithin_renumber (fun x hx => (hv.portable x hx).proper) hv.nests)

end

/-! ## The process -/

/-- Compiling a lambda changes nothing outside it, there is room for every key, and the clock runs. -/
structure Quiet (host : Host) : Prop where
  compileLambda : ∀ fn w, host.compileLambda fn w = w
  room : ∀ m k, host.room m k = true
  clock : ∀ pos, 0 < host.clock pos

/-- A name that is not that of a class that was registered on the way from `w` to `w'`. -/
def NotNew (w w' : Stores) (name : CStr) : Prop := name ∈ w'.classes → name ∈ w.classes

/-- What loading leaves alone. -/
structure Frame (w w' : Stores) : Prop where
  extra : w'.extra = w.extra
  classes : w.classes ⊆ w'.classes
  ok : w.globals.Ok → w'.globals.Ok

theorem Frame.refl (w : Stores) : Frame w w := ⟨rfl, fun _ h => h, id⟩

theorem Frame.trans {w w' w'' : Stores} (h : Frame w w') (h' : Frame w' w'') : Frame w w'' :=
  ⟨h'.extra.trans h.extra, fun _ hx => h'.classes (h.classes hx), fun hok => h'.ok (h.ok hok)⟩

section

variable {host : Host}

/-- **Reading a value** registers classes. -/
theorem perform_effects (hquiet : Quiet host) (effects : List Effect) (w : Stores) :
    Frame w (effects.foldl host.perform w) ∧ (effects.foldl host.perform w).kv = w.kv ∧
      (w.globals.Ok → ∀ name, NotNew w (effects.foldl host.perform w) name →
        (effects.foldl host.perform w).globals.find name = w.globals.find name) := by
  induction effects generalizing w with
  | nil => exact ⟨.refl w, rfl, fun _ _ _ => rfl⟩
  | cons effect effects ih =>
    rw [List.foldl_cons]
    obtain ⟨hframe, hkv, hglobals⟩ := ih (host.perform w effect)
    cases effect with
    | compileLambda fn =>
      have hsame : host.perform w (.compileLambda fn) = w := hquiet.compileLambda fn w
      rw [hsame] at hframe hkv hglobals ⊢
      exact ⟨hframe, hkv, hglobals⟩
    | registerType cls =>
      by_cases hcls : cls ∈ w.classes
      · have hsame : host.perform w (.registerType cls) = w := if_pos hcls
        rw [hsame] at hframe hkv hglobals ⊢
        exact ⟨hframe, hkv, hglobals⟩
      · have hnew : host.perform w (.registerType cls) = { w with
            classes := cls :: w.classes
            globals := host.alcBindGlobalType cls w.globals } := if_neg hcls
        rw [hnew] at hframe hkv hglobals ⊢
        have hfirst : Frame w { w with
            classes := cls :: w.classes
            globals := host.alcBindGlobalType cls w.globals } :=
          ⟨rfl, List.subset_cons_self _ _, fun hok => hok.set⟩
        refine ⟨hfirst.trans hframe, hkv, ?_⟩
        intro hok name hname
        have hne : name ≠ cls := by
          rintro rfl
          exact hcls (hname (hframe.classes List.mem_cons_self))
        rw [hglobals hok.set name fun h => List.mem_cons_of_mem _ (hname h)]
        exact hok.find_set.trans (if_neg hne)

/-- **The records of section L**: their names are bound to their values. -/
theorem install_lisp (hquiet : Quiet host) {items : List Item} {kvs : List (CStr × Exp)}
    (hrecords : items.map Item.record = kvs.map fun kv => .lisp kv.1 kv.2)
    (hnodup : (kvs.map Prod.fst).Nodup) {w : Stores} (hok : w.globals.Ok) :
    Frame w (items.foldl host.installItem w) ∧ (items.foldl host.installItem w).kv = w.kv ∧
      ∀ name, NotNew w (items.foldl host.installItem w) name →
        (∀ v, (name, v) ∈ kvs → ∃ pos,
          (items.foldl host.installItem w).globals.find name = some (v, host.clock pos)) ∧
        (name ∉ kvs.map Prod.fst →
          (items.foldl host.installItem w).globals.find name = w.globals.find name) := by
  induction kvs generalizing items w with
  | nil =>
    obtain rfl := List.map_eq_nil_iff.mp hrecords
    exact ⟨.refl w, rfl, fun name _ => ⟨fun v h => absurd h List.not_mem_nil, fun _ => rfl⟩⟩
  | cons kv kvs ih =>
    obtain ⟨key, val⟩ := kv
    rw [List.map_cons] at hrecords
    obtain ⟨item, items, rfl, hrecord, hrecords⟩ := List.map_eq_cons_iff.mp hrecords
    obtain ⟨hkey, hnodup⟩ := List.nodup_cons.mp hnodup
    obtain ⟨hframe₁, hkv₁, hglobals₁⟩ := perform_effects hquiet item.effects w
    -- the binding of the record
    have hinstall : host.installItem w item = { item.effects.foldl host.perform w with
        globals := (item.effects.foldl host.perform w).globals.set key (val, host.clock item.pos) } := by
      rw [Host.installItem, hrecord]
      rfl
    have hframe₂ : Frame w (host.installItem w item) := by
      rw [hinstall]
      exact ⟨hframe₁.extra, hframe₁.classes, fun hok => (hframe₁.ok hok).set⟩
    obtain ⟨hframe, hkv, hnames⟩ := ih hrecords hnodup (hframe₂.ok hok)
    rw [List.foldl_cons]
    refine ⟨hframe₂.trans hframe, hkv.trans ?_, fun name hname => ?_⟩
    · rw [hinstall]
      exact hkv₁
    obtain ⟨hin, hout⟩ := hnames name fun h => hframe₂.classes (hname h)
    have hfind : (host.installItem w item).globals.find name =
        if name = key then some (val, host.clock item.pos) else w.globals.find name := by
      have hclasses : (host.installItem w item).classes =
          (item.effects.foldl host.perform w).classes := by rw [hinstall]
      have hsame := hglobals₁ hok name fun h => hname (hframe.classes (hclasses ▸ h))
      rw [hinstall]
      show ((item.effects.foldl host.perform w).globals.set key _).find name = _
      rw [(hframe₁.ok hok).find_set, hsame]
    constructor
    · intro v hv
      rcases List.mem_cons.mp hv with heq | hv
      · obtain ⟨rfl, rfl⟩ := Prod.mk.inj heq
        exact ⟨item.pos, by rw [hout hkey, hfind, if_pos rfl]⟩
      · exact hin v hv
    · intro hname'
      obtain ⟨hne, hrest⟩ := not_or.mp (mt List.mem_cons.mpr hname')
      rw [hout hrest, hfind, if_neg hne]

/-- A key of section R after its record. -/
theorem find_restoreKey (hquiet : Quiet host) (now : ℤ) (k : List UInt8) (val : Exp) (expiry : ℤ)
    (m : Lfkv.KeyMap Exp) (j : List UInt8) : (host.restoreKey now k val expiry m).find j =
      if j = k then some (val, if 0 < expiry then expiry else 0) else m.find j := by
  unfold Host.restoreKey
  rw [if_pos (hquiet.room m k)]
  by_cases hpos : 0 < expiry
  · rw [if_pos hpos, if_pos hpos]
    simp only [lfkvSetExpiry, lfkvSet, Lfkv.KeyMap.update, Function.update_self]
    by_cases hj : j = k
    · subst hj
      simp [Lfkv.expired]
    · simp [hj]
  · rw [if_neg hpos, if_neg hpos]
    simp [lfkvSet, Lfkv.KeyMap.update, Function.update_apply]

/-- **The records of section R**: their keys hold their values and expiries. -/
theorem install_resp (hquiet : Quiet host) {items : List Item}
    {kvs : List (List UInt8 × Exp × ℤ)}
    (hrecords : items.map Item.record = kvs.map fun kv => .resp kv.1 kv.2.1 kv.2.2)
    (hnodup : (kvs.map Prod.fst).Nodup) {w : Stores} (hok : w.globals.Ok) {m : Lfkv.KeyMap Exp}
    (hm : w.kv = some m) : Frame w (items.foldl host.installItem w) ∧
      (∀ name, NotNew w (items.foldl host.installItem w) name →
        (items.foldl host.installItem w).globals.find name = w.globals.find name) ∧
      ∃ m', (items.foldl host.installItem w).kv = some m' ∧ ∀ k,
        (∀ v x, (k, v, x) ∈ kvs → m'.find k = some (v, if 0 < x then x else 0)) ∧
          (k ∉ kvs.map Prod.fst → m'.find k = m.find k) := by
  induction kvs generalizing items w m with
  | nil =>
    obtain rfl := List.map_eq_nil_iff.mp hrecords
    exact ⟨.refl w, fun _ _ => rfl, m, hm, fun k => ⟨fun v x h => absurd h List.not_mem_nil, fun _ => rfl⟩⟩
  | cons kv kvs ih =>
    obtain ⟨key, val, expiry⟩ := kv
    rw [List.map_cons] at hrecords
    obtain ⟨item, items, rfl, hrecord, hrecords⟩ := List.map_eq_cons_iff.mp hrecords
    obtain ⟨hkey, hnodup⟩ := List.nodup_cons.mp hnodup
    obtain ⟨hframe₁, hkv₁, hglobals₁⟩ := perform_effects hquiet item.effects w
    have hinstall : host.installItem w item = { item.effects.foldl host.perform w with
        kv := (item.effects.foldl host.perform w).kv.map
          (host.restoreKey (host.clock item.pos) key val expiry) } := by
      rw [Host.installItem, hrecord]
      rfl
    have hframe₂ : Frame w (host.installItem w item) := by
      rw [hinstall]
      exact ⟨hframe₁.extra, hframe₁.classes, hframe₁.ok⟩
    have hm₂ : (host.installItem w item).kv =
        some (host.restoreKey (host.clock item.pos) key val expiry m) := by
      rw [hinstall, hkv₁, hm]
      rfl
    obtain ⟨hframe, hglobals, m', hm', hkeys⟩ := ih hrecords hnodup (hframe₂.ok hok) hm₂
    rw [List.foldl_cons]
    refine ⟨hframe₂.trans hframe, fun name hname => ?_, m', hm', fun k => ?_⟩
    · have hclasses : (host.installItem w item).classes =
          (item.effects.foldl host.perform w).classes := by rw [hinstall]
      rw [hglobals name fun h => hframe₂.classes (hname h)]
      rw [← hglobals₁ hok name fun h => hname (hframe.classes (hclasses ▸ h)), hinstall]
    · obtain ⟨hin, hout⟩ := hkeys k
      constructor
      · intro v x hv
        rcases List.mem_cons.mp hv with heq | hv
        · obtain ⟨hk, heq⟩ := Prod.mk.inj heq
          obtain ⟨rfl, rfl⟩ := Prod.mk.inj heq
          rw [hout (hk ▸ hkey), find_restoreKey hquiet, if_pos hk]
        · exact hin v x hv
      · intro hk
        obtain ⟨hne, hrest⟩ := not_or.mp (mt List.mem_cons.mpr hk)
        rw [hout hrest, find_restoreKey hquiet, if_neg hne]

end

/-! ## The classes of the process -/

/-- A class that was registered on the way from `w` to `w'` is bound to its name, unless a record is. -/
def ClassesBound (host : Host) (kvs : List (CStr × Exp)) (w w' : Stores) : Prop :=
  ∀ name, name ∈ w'.classes → name ∉ w.classes → ∃ v t, w'.globals.find name = some (v, t) ∧
    (v = .type (host.typeId name) ∨ (name, v) ∈ kvs)

section

variable {host : Host} {kvs : List (CStr × Exp)} {w w' : Stores}

theorem ClassesBound.perform (hquiet : Quiet host) (effects : List Effect) (hok : w'.globals.Ok)
    (h : ClassesBound host kvs w w') : ClassesBound host kvs w (effects.foldl host.perform w') := by
  induction effects generalizing w' with
  | nil => exact h
  | cons effect effects ih =>
    rw [List.foldl_cons]
    cases effect with
    | compileLambda fn =>
      have hsame : host.perform w' (.compileLambda fn) = w' := hquiet.compileLambda fn w'
      rw [hsame]
      exact ih hok h
    | registerType cls =>
      by_cases hcls : cls ∈ w'.classes
      · have hsame : host.perform w' (.registerType cls) = w' := if_pos hcls
        rw [hsame]
        exact ih hok h
      · have hnew : host.perform w' (.registerType cls) = { w' with
            classes := cls :: w'.classes
            globals := host.alcBindGlobalType cls w'.globals } := if_neg hcls
        rw [hnew]
        refine ih hok.set fun name hmem hnot => ?_
        by_cases hname : name = cls
        · exact ⟨_, _, hok.find_set.trans (if_pos hname), .inl (by rw [hname])⟩
        · obtain ⟨v, t, hfind, hv⟩ := h name ((List.mem_cons.mp hmem).resolve_left hname) hnot
          exact ⟨v, t, (hok.find_set.trans (if_neg hname)).trans hfind, hv⟩

/-- **Records keep the classes bound.** -/
theorem ClassesBound.install (hquiet : Quiet host) {items : List Item}
    (hrecords : ∀ item ∈ items, ∀ key val, item.record = .lisp key val → (key, val) ∈ kvs)
    (hok : w'.globals.Ok) (h : ClassesBound host kvs w w') :
    ClassesBound host kvs w (items.foldl host.installItem w') := by
  induction items generalizing w' with
  | nil => exact h
  | cons item items ih =>
    obtain ⟨hrecord, hrecords⟩ := List.forall_mem_cons.mp hrecords
    have hread := h.perform hquiet item.effects hok
    have hok' := (perform_effects hquiet item.effects w').1.ok hok
    rw [List.foldl_cons]
    cases hcase : item.record with
    | lisp key val =>
      have hinstall : host.installItem w' item = { item.effects.foldl host.perform w' with
          globals := (item.effects.foldl host.perform w').globals.set key
            (val, host.clock item.pos) } := by
        rw [Host.installItem, hcase]
        rfl
      rw [hinstall]
      refine ih hrecords hok'.set fun name hmem hnot => ?_
      by_cases hname : name = key
      · exact ⟨val, _, hok'.find_set.trans (if_pos hname), .inr (hname ▸ hrecord key val hcase)⟩
      · obtain ⟨v, t, hfind, hv⟩ := hread name hmem hnot
        exact ⟨v, t, (hok'.find_set.trans (if_neg hname)).trans hfind, hv⟩
    | resp key val expiry =>
      have hinstall : host.installItem w' item = { item.effects.foldl host.perform w' with
          kv := (item.effects.foldl host.perform w').kv.map
            (host.restoreKey (host.clock item.pos) key val expiry) } := by
        rw [Host.installItem, hcase]
        rfl
      rw [hinstall]
      exact ih hrecords hok' hread

end

/-! ## The header -/

/-- The fields of an entry fit their widths. -/
structure TypeEntry.Short (entry : TypeEntry) : Prop where
  dumpId : entry.dumpId < 2 ^ 16
  name : entry.name.length ≤ loadMaxBlob
  spec : entry.spec.length ≤ loadMaxBlob

theorem yields_loadTypeEntry {entry : TypeEntry} (h : entry.Short) (r : List UInt8) :
    loadTypeEntry.Yields (dumpTypeEntry entry ++ r) entry r := by
  rw [dumpTypeEntry, List.append_assoc, List.append_assoc]
  refine .bind (yields_loadLe h.dumpId _) (.bind (yields_loadStrn h.name _)
    (.bind (yields_loadStrn h.spec _) ?_))
  rw [CStr.ofBytes_bytes, CStr.ofBytes_bytes]
  exact .pure

section

variable {host : Host} {b : List UInt8} {pos : ℕ} {r : List UInt8} {types : List TypeEntry}

theorem each_types (htypes : ∀ entry ∈ types, entry.Short)
    (hat : At b pos (types.flatMap dumpTypeEntry ++ r)) (s : Stores × Format) :
    ∃ pos', each loadTypeEntry host.resolveType types.length b pos s =
      (types.foldl host.resolveType s, .ok () pos') ∧ At b pos' r := by
  induction types generalizing pos s with
  | nil => exact ⟨pos, rfl, hat⟩
  | cons entry types ih =>
    obtain ⟨hentry, htypes⟩ := List.forall_mem_cons.mp htypes
    rw [List.flatMap_cons, List.append_assoc] at hat
    obtain ⟨pos', hread, hat'⟩ := yields_loadTypeEntry hentry _ b pos hat
    obtain ⟨pos'', hrest, hat''⟩ := ih htypes hat' (host.resolveType s entry)
    refine ⟨pos'', ?_, hat''⟩
    have hfirst : StateCursor.read loadTypeEntry b pos s = (s, .ok entry pos') :=
      Prod.ext rfl hread
    exact (bind_ok hfirst).trans hrest

theorem resolveType_version (s : Stores × Format) (entries : List TypeEntry) :
    (entries.foldl host.resolveType s).2.version = s.2.version := by
  induction entries generalizing s with
  | nil => rfl
  | cons entry entries ih =>
    rw [List.foldl_cons, ih, Host.resolveType]
    dsimp only
    split <;> rfl

/-- **The header is read.** -/
theorem loadHeader_types (hlen : types.length < 2 ^ 16) (htypes : ∀ entry ∈ types, entry.Short)
    (hat : At b 4 (putLe 2 alcoveDumpVersion ++
      (putLe 2 types.length ++ (types.flatMap dumpTypeEntry ++ r)))) (s : Stores × Format) :
    ∃ fmt pos, loadHeader host b 4 s = ((types.foldl host.requireType s.1, fmt), .ok () pos) ∧
      fmt.version = alcoveDumpVersion ∧ At b pos r := by
  obtain ⟨pos, hver, hat⟩ := yields_loadLe (by decide) _ b 4 hat
  obtain ⟨pos', hcount, hat⟩ := yields_loadLe hlen _ b pos hat
  obtain ⟨pos'', heach, hat⟩ := @each_types host b _ r types htypes hat
    (s.1, ⟨alcoveDumpVersion, fun _ => none⟩)
  refine ⟨(types.foldl host.resolveType (s.1, ⟨alcoveDumpVersion, fun _ => none⟩)).2, pos'', ?_,
    resolveType_version _ types, hat⟩
  have hread {pos₁ pos₂ v : ℕ} {s : Stores × Format} (h : loadLe 2 b pos₁ = .ok v pos₂) :
      StateCursor.read (loadLe 2) b pos₁ s = (s, .ok v pos₂) := Prod.ext rfl h
  rw [← resolveType_fst (s.1, ⟨alcoveDumpVersion, fun _ => none⟩) types]
  exact (bind_ok (hread hver)).trans ((bind_ok (hread hcount)).trans heach)

end

end Alcove.Restore
