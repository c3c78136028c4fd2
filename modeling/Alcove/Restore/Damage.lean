import Alcove.Persist.Reload
import Alcove.Restore.File

/-!
# A file that is damaged

What a dump file holds before the place where it is damaged (`Damaged`): the entries of its table of
types, the records that are complete, and what reading the incomplete one does. A load that fails has
done what these say, in their order, and nothing else.

**Main result:** `loaddb_failed`.
-/

namespace Alcove.Restore

open Lib StateCursor Persist

/-! ## What a file holds -/

/-- A record in a file: what reading it does to the process, the record, and where it ends. -/
structure Item where
  effects : List Effect
  record : Record
  pos : ℕ

variable (host : Host)

/-- A record is read and installed. -/
def Host.installItem (w : Stores) (item : Item) : Stores :=
  host.install (host.clock item.pos) (item.effects.foldl host.perform w) item.record

section

variable (fmt : Format) (b : List UInt8)

/-- There is a record at `pos`, after its marker. -/
def RecordAt (isResp : Bool) (pos : ℕ) (item : Item) : Prop :=
  b[pos]? = some 0xfe ∧
    loadSectionRecord host fmt isResp b (pos + 1) [] = (item.effects, .ok item.record item.pos)

/-- The file holds the records from `pos` to `pos'`. -/
inductive Items (isResp : Bool) : ℕ → List Item → ℕ → Prop
  | nil (pos : ℕ) : Items isResp pos [] pos
  | cons {pos pos' : ℕ} {item : Item} {items : List Item} (hitem : RecordAt host fmt b isResp pos item)
      (hitems : Items isResp item.pos items pos') : Items isResp pos (item :: items) pos'

/-- Neither a record is at `pos`, nor the end of the section; `effects` is what reading it does. -/
inductive NoRecord (isResp : Bool) (pos : ℕ) : List Effect → Prop
  | marker (hend : b[pos]? ≠ some 0x00) (hrecord : b[pos]? ≠ some 0xfe) : NoRecord isResp pos []
  | incomplete {effects : List Effect} {pos' : ℕ} (hmarker : b[pos]? = some 0xfe)
      (hfail : loadSectionRecord host fmt isResp b (pos + 1) [] = (effects, .fail pos')) :
      NoRecord isResp pos effects

/-- The tag of a section. -/
def secTag (isResp : Bool) : UInt8 := if isResp then 0x52 else 0x4c

/-- The file holds whole sections from `pos` to `pos'`, with these records. -/
inductive Sections : ℕ → List Item → ℕ → Prop
  | nil (pos : ℕ) : Sections pos [] pos
  | cons {isResp : Bool} {pos pos' pos'' : ℕ} {items items' : List Item}
      (htag : b[pos]? = some (secTag isResp)) (hitems : Items host fmt b isResp (pos + 1) items pos')
      (hend : b[pos']? = some 0x00) (hrest : Sections (pos' + 1) items' pos'') :
      Sections pos (items ++ items') pos''

/-- From `pos` on the file holds these records, and is damaged after them. -/
inductive DamagedBody (pos : ℕ) : List Item → List Effect → Prop
  | tag {pos' : ℕ} {items : List Item} (hsections : Sections host fmt b pos items pos')
      (hend : b[pos']? ≠ some 0x00) (htag : ∀ isResp, b[pos']? ≠ some (secTag isResp)) :
      DamagedBody pos items []
  | record {isResp : Bool} {pos' pos'' : ℕ} {items items' : List Item} {effects : List Effect}
      (hsections : Sections host fmt b pos items pos') (htag : b[pos']? = some (secTag isResp))
      (hitems : Items host fmt b isResp (pos' + 1) items' pos'')
      (hno : NoRecord host fmt b isResp pos'' effects) : DamagedBody pos (items ++ items') effects

end

/-- A file with the magic that cannot be loaded into the process `s`: the entries of its table of types,
its records, and what reading what comes after them does. -/
inductive Damaged (b : List UInt8) (s : Stores × Format) :
    List TypeEntry → List Item → List Effect → Prop
  | noVersion {pos : ℕ} (hver : loadLe 2 b 4 = .fail pos) : Damaged b s [] [] []
  | version {ver : ℕ} (hver : loadLe 2 b 4 = .ok ver 6)
      (hbad : ver < alcoveDumpVersionMin ∨ alcoveDumpVersion < ver) : Damaged b s [] [] []
  | noTable {ver pos : ℕ} (hver : loadLe 2 b 4 = .ok ver 6) (hthree : 3 ≤ ver)
      (hmax : ver ≤ alcoveDumpVersion) (hcount : loadLe 2 b 6 = .fail pos) : Damaged b s [] [] []
  | table {ver ntypes pos pos' : ℕ} {entries : List TypeEntry} (hver : loadLe 2 b 4 = .ok ver 6)
      (hthree : 3 ≤ ver) (hmax : ver ≤ alcoveDumpVersion) (hcount : loadLe 2 b 6 = .ok ntypes 8)
      (hentries : Many loadTypeEntry b 8 entries pos) (hlen : entries.length < ntypes)
      (hfail : loadTypeEntry b pos = .fail pos') : Damaged b s entries [] []
  | oldBody {ver : ℕ} {items : List Item} {effects : List Effect} (hver : loadLe 2 b 4 = .ok ver 6)
      (hmin : alcoveDumpVersionMin ≤ ver) (hold : ver < 3)
      (hbody : DamagedBody host ⟨ver, fun _ => none⟩ b 6 items effects) : Damaged b s [] items effects
  | body {ver pos : ℕ} {entries : List TypeEntry} {items : List Item} {effects : List Effect}
      (hver : loadLe 2 b 4 = .ok ver 6) (hthree : 3 ≤ ver) (hmax : ver ≤ alcoveDumpVersion)
      (hcount : loadLe 2 b 6 = .ok entries.length 8) (hentries : Many loadTypeEntry b 8 entries pos)
      (hbody : DamagedBody host
        (entries.foldl host.resolveType (s.1, ⟨ver, fun _ => none⟩)).2 b pos items effects) :
      Damaged b s entries items effects

/-! ## Records -/

section

variable {host} {fmt : Format} {b : List UInt8}

/-- A number in the file. -/
theorem loadLe_eq (n : ℕ) (b : List UInt8) (pos : ℕ) : loadLe n b pos =
    if pos + n ≤ b.length then .ok (getLe ((b.drop pos).take n)) (pos + n) else .fail pos := by
  show Cursor.bind (Cursor.bind (Cursor.need n) fun _ => Cursor.bind (Cursor.slice n) fun bytes =>
    Cursor.bind (Cursor.skip n) fun _ => Cursor.pure bytes) (fun bytes => Cursor.pure (getLe bytes))
      b pos = _
  unfold Cursor.bind Cursor.need Cursor.slice Cursor.skip Cursor.pure
  by_cases h : pos + n ≤ b.length
  · simp [h]
  · simp [h]

/-- A byte of the file. -/
theorem loadLe_one (b : List UInt8) (pos : ℕ) : loadLe 1 b pos =
    match b[pos]? with
    | some c => .ok c.toNat (pos + 1)
    | none => .fail pos := by
  by_cases h : pos < b.length
  · rw [List.getElem?_eq_getElem h]
    have hyields : (loadLe 1).Yields (b[pos] :: b.drop (pos + 1)) b[pos].toNat (b.drop (pos + 1)) :=
      yields_byte _ _
    obtain ⟨pos', heq, hrest⟩ := hyields b pos ⟨by omega, List.drop_eq_getElem_cons h⟩
    have hlen := hrest.length
    rw [List.length_drop] at hlen
    have hpos' : pos' = pos + 1 := by omega
    rw [heq, hpos']
  · rw [List.getElem?_eq_none (by omega), loadLe_eq, if_neg (by omega)]

theorem eats_loadLe {n : ℕ} (hn : 0 < n) (s : List UInt8) :
    (loadLe n).Reads s fun _ r => r.length < s.length := by
  refine .map (.bind (.need fun hs => .bind (.slice hs (.bind (.skip hs (.pure ?_))))))
  rw [List.length_drop]
  omega

theorem forward_loadSectionRecord (isResp : Bool) : (loadSectionRecord host fmt isResp).Forward := by
  have hexp : (loadExp host.toTables fmt alcoveLoadMaxDepth).Forward := forward_loadExp _
  have hstrn : loadStrn.Shrinks :=
    .bind (shrinks_loadLe 8) fun _ => .ite .fail (shrinks_fread _)
  exact .ite
    (.bind (.read (shrinks_loadInt 8)) fun _ => .bind hexp fun _ => .bind (.read hstrn) fun _ => .pure _)
    (.bind hexp fun _ => .bind (.read shrinks_loadStr) fun _ => .pure _)

theorem advances_sectionRound (isResp : Bool) : Advances (sectionRound host fmt isResp) := by
  refine .of_eats fun n => .bind (.read (eats_loadLe (by decide))) fun marker =>
    .ite (.pure _) (.ite .fail ?_)
  exact .bind (.perform (forward_loadSectionRecord isResp)) fun _ => .bind .position fun _ =>
    .bind (.modify _) fun _ => .pure _

/-- **What a round does**: no record, the end of the section, or a record that is installed. -/
theorem sectionRound_cases (isResp : Bool) (n : ℕ) {pos : ℕ} (w : Stores) :
    (∃ effects pos', NoRecord host fmt b isResp pos effects ∧
      sectionRound host fmt isResp n b pos w = (effects.foldl host.perform w, .fail pos')) ∨
    (b[pos]? = some 0x00 ∧ sectionRound host fmt isResp n b pos w = (w, .ok (.inr n) (pos + 1))) ∨
    ∃ item, RecordAt host fmt b isResp pos item ∧
      sectionRound host fmt isResp n b pos w = (host.installItem w item, .ok (.inl (n + 1)) item.pos) := by
  have hround : sectionRound host fmt isResp n b pos w =
      StateCursor.bind (read (loadLe 1)) (fun marker =>
        if marker = 0x00 then StateCursor.pure (.inr n)
        else if marker ≠ 0xfe then fail
        else StateCursor.bind (perform host.perform (loadSectionRecord host fmt isResp)) fun record =>
          StateCursor.bind position fun pos => StateCursor.bind
            (modify fun w => host.install (host.clock pos) w record) fun _ =>
              StateCursor.pure (.inl (n + 1))) b pos w := rfl
  have hread : (read (loadLe 1) : StateCursor Stores UInt8 ℕ) b pos w = (w, match b[pos]? with
    | some c => .ok c.toNat (pos + 1)
    | none => .fail pos) := Prod.ext rfl (loadLe_one b pos)
  rw [hround]
  unfold StateCursor.bind
  rw [hread]
  cases hc : b[pos]? with
  | none => exact .inl ⟨[], pos, .marker (by simp [hc]) (by simp [hc]), rfl⟩
  | some c =>
    by_cases h0 : c = 0x00
    · subst h0
      exact .inr (.inl ⟨rfl, rfl⟩)
    have hne0 : c.toNat ≠ 0x00 := fun h => h0 (UInt8.toNat_inj.mp h)
    by_cases hfe : c = 0xfe
    · subst hfe
      have hpos : pos + 1 ≤ b.length := (List.getElem?_eq_some_iff.mp hc).1
      rcases (forward_loadSectionRecord isResp).cases hpos [] with
        ⟨effects, pos', heq⟩ | ⟨effects, record, pos', heq, -, -⟩
      · refine .inl ⟨effects, pos', .incomplete hc heq, ?_⟩
        simp [perform, heq]
      · refine .inr (.inr ⟨⟨effects, record, pos'⟩, ⟨hc, heq⟩, ?_⟩)
        simp [perform, heq, position, StateCursor.modify, StateCursor.pure, Host.installItem]
    · have hnefe : c.toNat ≠ 0xfe := fun h => hfe (UInt8.toNat_inj.mp h)
      refine .inl ⟨[], pos + 1, .marker ?_ ?_, ?_⟩
      · simp [hc, h0]
      · simp [hc, hfe]
      · simp [hne0, hnefe, StateCursor.fail, StateCursor.read, Cursor.fail]

/-- **A section**: all its records are installed, or those before the damage. -/
theorem loadSectionRecords_cases (isResp : Bool) {pos : ℕ} (hpos : pos ≤ b.length) (w : Stores) :
    ∃ items pos', Items host fmt b isResp pos items pos' ∧
      (b[pos']? = some 0x00 ∧ loadSectionRecords host fmt isResp b pos w =
          (items.foldl host.installItem w, .ok items.length (pos' + 1)) ∨
        ∃ effects pos'', NoRecord host fmt b isResp pos' effects ∧
          loadSectionRecords host fmt isResp b pos w =
            (effects.foldl host.perform (items.foldl host.installItem w), .fail pos'')) := by
  have hadvances : Advances (sectionRound host fmt isResp) := advances_sectionRound isResp
  have hloop := loop_rule hadvances (b := b)
    (C := fun n pos w r => ∃ items pos', Items host fmt b isResp pos items pos' ∧
      (b[pos']? = some 0x00 ∧ r = (items.foldl host.installItem w, .ok (n + items.length) (pos' + 1)) ∨
        ∃ effects pos'', NoRecord host fmt b isResp pos' effects ∧
          r = (effects.foldl host.perform (items.foldl host.installItem w), .fail pos'')))
    ?_ ?_ ?_ hpos 0 w
  · simp only [Nat.zero_add] at hloop
    exact hloop
  · intro n pos w w' pos' _ heq
    refine ⟨[], pos, .nil pos, .inr ?_⟩
    rcases sectionRound_cases isResp n w with ⟨effects, pos'', hno, h⟩ | ⟨-, h⟩ | ⟨item, -, h⟩
    · rw [h] at heq
      cases heq
      exact ⟨effects, _, hno, rfl⟩
    · rw [h] at heq
      cases heq
    · rw [h] at heq
      cases heq
  · intro n pos w w' m pos' heq _ _
    refine ⟨[], pos, .nil pos, .inl ?_⟩
    rcases sectionRound_cases isResp n w with ⟨effects, pos'', -, h⟩ | ⟨hend, h⟩ | ⟨item, -, h⟩
    · rw [h] at heq
      cases heq
    · rw [h] at heq
      cases heq
      exact ⟨hend, rfl⟩
    · rw [h] at heq
      cases heq
  · intro n pos w w' m pos' r heq _ ⟨items, pos'', hitems, hr⟩
    rcases sectionRound_cases isResp n w with ⟨effects, pos'', -, h⟩ | ⟨-, h⟩ | ⟨item, hitem, h⟩
    · rw [h] at heq
      cases heq
    · rw [h] at heq
      cases heq
    · rw [h] at heq
      cases heq
      refine ⟨item :: items, pos'', .cons hitem hitems, ?_⟩
      simpa [Nat.add_assoc, Nat.add_comm 1] using hr

/-! ## Sections -/

theorem advances_sectionsRound : Advances (sectionsRound host fmt) := by
  have hsection (isResp : Bool) : (loadSectionRecords host fmt isResp).Forward :=
    .loop (advances_sectionRound isResp) 0
  exact .of_eats fun n => .bind (.read (eats_loadLe (by decide))) fun tag => .ite (.pure _) (.ite
    (.bind (hsection false) fun _ => .pure _) (.ite (.bind (hsection true) fun _ => .pure _) .fail))

/-- What a section that is damaged ends with. -/
theorem sectionsRound_cases (n : ℕ × ℕ) {pos : ℕ} (w : Stores) :
    (b[pos]? ≠ some 0x00 ∧ (∀ isResp, b[pos]? ≠ some (secTag isResp)) ∧
      ∃ pos', sectionsRound host fmt n b pos w = (w, .fail pos')) ∨
    (b[pos]? = some 0x00 ∧ sectionsRound host fmt n b pos w = (w, .ok (.inr n) (pos + 1))) ∨
    ∃ isResp items pos', b[pos]? = some (secTag isResp) ∧ Items host fmt b isResp (pos + 1) items pos' ∧
      ((∃ n', b[pos']? = some 0x00 ∧ sectionsRound host fmt n b pos w =
          (items.foldl host.installItem w, .ok (.inl n') (pos' + 1))) ∨
        ∃ effects pos'', NoRecord host fmt b isResp pos' effects ∧ sectionsRound host fmt n b pos w =
          (effects.foldl host.perform (items.foldl host.installItem w), .fail pos'')) := by
  obtain ⟨nl, nr⟩ := n
  have hround : sectionsRound host fmt (nl, nr) b pos w =
      StateCursor.bind (read (loadLe 1)) (fun tag =>
        if tag = 0x00 then StateCursor.pure (.inr (nl, nr))
        else if tag = alcoveSecLisp then
          StateCursor.bind (loadSectionRecords host fmt false) fun got =>
            StateCursor.pure (.inl (nl + got, nr))
        else if tag = alcoveSecResp then
          StateCursor.bind (loadSectionRecords host fmt true) fun got =>
            StateCursor.pure (.inl (nl, nr + got))
        else StateCursor.fail) b pos w := rfl
  have hread : (StateCursor.read (loadLe 1) : StateCursor Stores UInt8 ℕ) b pos w = (w, match b[pos]? with
    | some c => .ok c.toNat (pos + 1)
    | none => .fail pos) := Prod.ext rfl (loadLe_one b pos)
  rw [hround]
  unfold StateCursor.bind
  rw [hread]
  cases hc : b[pos]? with
  | none => exact .inl ⟨by simp, by simp, pos, rfl⟩
  | some c =>
    have hpos : pos + 1 ≤ b.length := (List.getElem?_eq_some_iff.mp hc).1
    by_cases h0 : c = 0x00
    · subst h0
      exact .inr (.inl ⟨rfl, rfl⟩)
    have hne0 : c.toNat ≠ 0x00 := fun h => h0 (UInt8.toNat_inj.mp h)
    by_cases hl : c = 0x4c
    · subst hl
      obtain ⟨items, pos', hitems, hends⟩ := @loadSectionRecords_cases host fmt b false _ hpos w
      refine .inr (.inr ⟨false, items, pos', rfl, hitems, ?_⟩)
      rcases hends with ⟨hend, heq⟩ | ⟨effects, pos'', hno, heq⟩
      · refine .inl ⟨(nl + items.length, nr), hend, ?_⟩
        simp [alcoveSecLisp, heq, StateCursor.pure]
      · refine .inr ⟨effects, pos'', hno, ?_⟩
        simp [alcoveSecLisp, heq]
    have hnel : c.toNat ≠ alcoveSecLisp := fun h => hl (UInt8.toNat_inj.mp h)
    by_cases hr : c = 0x52
    · subst hr
      obtain ⟨items, pos', hitems, hends⟩ := @loadSectionRecords_cases host fmt b true _ hpos w
      refine .inr (.inr ⟨true, items, pos', rfl, hitems, ?_⟩)
      rcases hends with ⟨hend, heq⟩ | ⟨effects, pos'', hno, heq⟩
      · refine .inl ⟨(nl, nr + items.length), hend, ?_⟩
        simp [alcoveSecLisp, alcoveSecResp, heq, StateCursor.pure]
      · refine .inr ⟨effects, pos'', hno, ?_⟩
        simp [alcoveSecLisp, alcoveSecResp, heq]
    have hner : c.toNat ≠ alcoveSecResp := fun h => hr (UInt8.toNat_inj.mp h)
    refine .inl ⟨by simp [h0], ?_, pos + 1, ?_⟩
    · rintro (_ | _)
      · simpa [secTag] using hl
      · simpa [secTag] using hr
    · simp [hne0, hnel, hner, StateCursor.fail, StateCursor.read, Cursor.fail]

/-- **The sections**: all of them are installed, or the file is damaged and what is before the damage
is. -/
theorem loadSections_cases {pos : ℕ} (hpos : pos ≤ b.length) (w : Stores) :
    (∃ items pos' n, Sections host fmt b pos items pos' ∧ b[pos']? = some 0x00 ∧
        loadSections host fmt b pos w = (items.foldl host.installItem w, .ok n (pos' + 1))) ∨
      ∃ items effects pos', DamagedBody host fmt b pos items effects ∧ loadSections host fmt b pos w =
        (effects.foldl host.perform (items.foldl host.installItem w), .fail pos') := by
  have hadvances : Advances (sectionsRound host fmt) := advances_sectionsRound
  refine loop_rule hadvances (b := b)
    (C := fun _ pos w r => (∃ items pos' n, Sections host fmt b pos items pos' ∧
        b[pos']? = some 0x00 ∧ r = (items.foldl host.installItem w, .ok n (pos' + 1))) ∨
      ∃ items effects pos', DamagedBody host fmt b pos items effects ∧
        r = (effects.foldl host.perform (items.foldl host.installItem w), .fail pos'))
    ?_ ?_ ?_ hpos (0, 0) w
  · intro n pos w w' pos' _ heq
    right
    rcases sectionsRound_cases n w with ⟨hend, htag, pos'', h⟩ | ⟨-, h⟩ |
      ⟨isResp, items, pos'', htag, hitems, ⟨n', -, h⟩ | ⟨effects, p, hno, h⟩⟩
    · rw [h] at heq
      cases heq
      exact ⟨[], [], _, .tag (.nil pos) hend htag, rfl⟩
    · rw [h] at heq
      cases heq
    · rw [h] at heq
      cases heq
    · rw [h] at heq
      cases heq
      exact ⟨[] ++ items, effects, _, .record (.nil pos) htag hitems hno, rfl⟩
  · intro n pos w w' m pos' heq _ _
    left
    rcases sectionsRound_cases n w with ⟨-, -, pos'', h⟩ | ⟨hend, h⟩ |
      ⟨isResp, items, pos'', -, -, ⟨n', -, h⟩ | ⟨effects, p, -, h⟩⟩
    · rw [h] at heq
      cases heq
    · rw [h] at heq
      cases heq
      exact ⟨[], pos, n, .nil pos, hend, rfl⟩
    · rw [h] at heq
      cases heq
    · rw [h] at heq
      cases heq
  · intro n pos w w' m pos' r heq _ hrest
    rcases sectionsRound_cases n w with ⟨-, -, pos'', h⟩ | ⟨-, h⟩ |
      ⟨isResp, items, pos'', htag, hitems, ⟨n', hend, h⟩ | ⟨effects, p, -, h⟩⟩
    · rw [h] at heq
      cases heq
    · rw [h] at heq
      cases heq
    · rw [h] at heq
      cases heq
      rcases hrest with ⟨items', p, k, hsections, hend', hr⟩ | ⟨items', effects, p, hbody, hr⟩
      · refine .inl ⟨items ++ items', p, k, .cons htag hitems hend hsections, hend', ?_⟩
        rw [hr, List.foldl_append]
      · refine .inr ⟨items ++ items', effects, p, ?_, ?_⟩
        · cases hbody with
          | tag hsections hend' htag' => exact .tag (.cons htag hitems hend hsections) hend' htag'
          | record hsections htag' hitems' hno =>
            rw [← List.append_assoc]
            exact .record (.cons htag hitems hend hsections) htag' hitems' hno
        · rw [hr, List.foldl_append]
    · rw [h] at heq
      cases heq

/-! ## Files -/

theorem shrinks_loadTypeEntry : loadTypeEntry.Shrinks := by
  have hstrn : loadStrn.Shrinks :=
    .bind (shrinks_loadLe 8) fun _ => .ite .fail (shrinks_fread _)
  exact .bind (shrinks_loadLe 2) fun _ => .bind hstrn fun _ => .bind hstrn fun _ => .pure _

theorem resolveType_fst (s : Stores × Format) (entries : List TypeEntry) :
    (entries.foldl host.resolveType s).1 = entries.foldl host.requireType s.1 := by
  induction entries generalizing s with
  | nil => rfl
  | cons entry entries ih => exact ih (host.resolveType s entry)

/-- **The header**: a version that is not supported, a table that is damaged, or the sections follow. -/
theorem loadHeader_cases (s : Stores × Format) :
    (∃ s' pos entries, Damaged host b s entries [] [] ∧
      s'.1 = entries.foldl host.requireType s.1 ∧ loadHeader host b 4 s = (s', .fail pos)) ∨
    ∃ s' pos entries, s'.1 = entries.foldl host.requireType s.1 ∧ pos ≤ b.length ∧
      loadHeader host b 4 s = (s', .ok () pos) ∧
        ∀ items effects, DamagedBody host s'.2 b pos items effects → Damaged host b s entries items effects := by
  have hread (pos : ℕ) (s : Stores × Format) :
      StateCursor.read (loadLe 2) b pos s = (s, loadLe 2 b pos) := rfl
  cases hver : loadLe 2 b 4 with
  | overrun | exhausted =>
    rw [loadLe_eq] at hver
    split at hver <;> cases hver
  | fail pos =>
    exact .inl ⟨s, pos, [], .noVersion hver, rfl, bind_fail ((hread 4 s).trans (by rw [hver]))⟩
  | ok ver pos =>
    obtain ⟨rfl, hsix⟩ : pos = 6 ∧ 6 ≤ b.length := by
      rw [loadLe_eq] at hver
      split at hver
      · next h =>
        cases hver
        exact ⟨rfl, h⟩
      · cases hver
    have hbody : loadHeader host b 4 s = _ := bind_ok ((hread 4 s).trans (by rw [hver]))
    by_cases hbad : ver < alcoveDumpVersionMin ∨ alcoveDumpVersion < ver
    · rw [if_pos hbad] at hbody
      exact .inl ⟨s, 6, [], .version hver hbad, rfl, hbody⟩
    obtain ⟨hmin, hmax⟩ := not_or.mp hbad
    have hmodify : StateCursor.modify (fun s : Stores × Format => (s.1, (⟨ver, fun _ => none⟩ : Format)))
        b 6 s = ((s.1, ⟨ver, fun _ => none⟩), .ok () 6) := rfl
    rw [if_neg hbad, bind_ok hmodify] at hbody
    by_cases hthree : 3 ≤ ver
    · rw [if_pos hthree] at hbody
      cases hcount : loadLe 2 b 6 with
      | overrun | exhausted =>
        rw [loadLe_eq] at hcount
        split at hcount <;> cases hcount
      | fail pos =>
        rw [bind_fail ((hread 6 _).trans (by rw [hcount]))] at hbody
        exact .inl ⟨(s.1, ⟨ver, fun _ => none⟩), pos, [], .noTable hver hthree (by omega) hcount, rfl, hbody⟩
      | ok ntypes pos =>
        obtain ⟨rfl, height⟩ : pos = 8 ∧ 8 ≤ b.length := by
          rw [loadLe_eq] at hcount
          split at hcount
          · next h =>
            cases hcount
            exact ⟨rfl, h⟩
          · cases hcount
        rw [bind_ok ((hread 6 _).trans (by rw [hcount]))] at hbody
        obtain ⟨entries, pos, hentries, hpos, ⟨hlen, heq⟩ | ⟨hlen, pos', hfail, heq⟩⟩ :=
          many_spec shrinks_loadTypeEntry host.resolveType ntypes height (s.1, ⟨ver, fun _ => none⟩)
        · subst hlen
          exact .inr ⟨_, pos, entries, resolveType_fst (s.1, ⟨ver, fun _ => none⟩) entries, hpos,
            hbody.trans heq, fun items effects hdamaged => .body hver hthree (by omega) hcount hentries hdamaged⟩
        · exact .inl ⟨_, pos', entries, .table hver hthree (by omega) hcount hentries hlen hfail,
            resolveType_fst (s.1, ⟨ver, fun _ => none⟩) entries, hbody.trans heq⟩
    · rw [if_neg hthree] at hbody
      exact .inr ⟨(s.1, ⟨ver, fun _ => none⟩), 6, [], rfl, hsix, hbody, fun items effects hdamaged =>
        .oldBody hver (by omega) (by omega) hdamaged⟩

/-- The reader for files without a header returns, too. -/
theorem legacy_returns {pos : ℕ} (hpos : pos ≤ b.length) (w : Stores) :
    ∃ w' n pos', loop (legacyRound host fmt) 0 b pos w = (w', .ok n pos') := by
  have hexp : (loadExp host.toTables fmt alcoveLoadMaxDepth).Eats :=
    .bind (.read (eats_loadLe (by decide))) fun type =>
      .ite forward_loadTypeObj (forward_loadRecord (forward_loadExp _) type)
  have hrecord : (loadSectionRecord host fmt false).Eats :=
    .bind hexp fun _ => .bind (.read shrinks_loadStr) fun _ => .pure _
  have hforward : (perform host.perform (loadSectionRecord host fmt false)).Forward :=
    .perform (forward_loadSectionRecord false)
  have hadvances : Advances (legacyRound host fmt) :=
    .attempt hrecord.perform (fun n => ⟨n, rfl⟩) fun n record =>
      .bind .position fun _ => .bind (.modify _) fun _ => .pure _
  refine loop_rule hadvances (b := b) (C := fun _ _ _ r => ∃ w' n pos', r = (w', .ok n pos'))
    ?_ ?_ ?_ hpos 0 w
  · -- a record that cannot be read ends the loop
    intro n pos w w' pos' hpos heq
    rcases hforward.cases hpos w with ⟨y, p, h⟩ | ⟨y, record, p, h, -, -⟩
    · rw [legacyRound, bind_ok (attempt_fail h)] at heq
      cases heq
    · rw [legacyRound, bind_ok (attempt_ok h)] at heq
      cases heq
  · exact fun _ _ _ w' n pos' _ _ _ => ⟨w', n, pos', rfl⟩
  · exact fun _ _ _ _ _ _ _ _ _ h => h

/-- What a load that fails has done: the modules of the types that the file lists are required, and the
records that are complete are installed, in the order of the file, up to the place where it is damaged;
reading the incomplete record registers the classes it names and compiles its lambdas. -/
def LoadedPart (host : Host) (b : List UInt8) (s s' : Stores × Format) : Prop :=
  b.take 4 = alcoveDumpMagic ∧ ∃ entries items effects, Damaged host b s entries items effects ∧
    s'.1 = effects.foldl host.perform
      (items.foldl host.installItem (entries.foldl host.requireType s.1))

theorem loadedPart_of_corrupt {s s' : Stores × Format}
    (h : alcoveLoadUnified host b s = (s', .corrupt)) : LoadedPart host b s s' := by
  unfold alcoveLoadUnified at h
  by_cases hlen : b.length < 4
  · rw [if_pos hlen] at h
    cases h
  rw [if_neg hlen] at h
  by_cases hmagic : b.take 4 = alcoveDumpMagic
  · rw [if_neg (by simpa using hmagic)] at h
    rcases @loadHeader_cases host b s with
      ⟨s₂, pos, entries, hdamaged, hs, heq⟩ | ⟨s₂, pos, entries, hs, hpos, heq, hbody⟩
    · rw [heq] at h
      obtain ⟨rfl, -⟩ := Prod.mk.inj h
      exact ⟨hmagic, entries, [], [], hdamaged, hs⟩
    · rw [heq] at h
      rcases @loadSections_cases host s₂.2 b _ hpos s₂.1 with
        ⟨items, pos', n, -, -, heq'⟩ | ⟨items, effects, pos', hdamaged, heq'⟩
      · simp only [heq'] at h
        cases h
      · simp only [heq'] at h
        obtain ⟨rfl, -⟩ := Prod.mk.inj h
        exact ⟨hmagic, entries, items, effects, hbody _ _ hdamaged, by rw [← hs]⟩
  · rw [if_pos (by simpa using hmagic)] at h
    cases h

end

/-- A process without classes, modules and keys. -/
def bareHost : Host where
  typeId _ := 0
  tfunc _ := none
  place _ i := UInt64.ofNat (16 * i + 16)
  safeMode := false
  requireNative _ w := w
  compileLambda _ w := w
  clock _ := 1
  room _ _ := true

/-- An empty environment. -/
def emptyStores : Stores := ⟨Dict.create, [], fun _ => none, none, fun _ => none⟩

/-- A file that ends after the binding of `x`. -/
def tornFile : List UInt8 :=
  [0x41, 0x4c, 0x43, 0x56, 5, 0, 0, 0, 0x4c, 0xfe, 2, 0, 7, 0, 0, 0, 0, 0, 0, 0,
    1, 0, 0, 0, 0, 0, 0, 0, 0x78]

end Alcove.Restore
