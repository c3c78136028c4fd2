import Alcove.Bgsave.Machine

/-!
# The saved file is one whole dump

**Main result:** `db_is_one_dump`. In every run in which a save opens the temporary file only while no
other save has it open or has yet to rename it, the file at `alcove_db_path` is at every moment
absent or one whole dump. Otherwise it can become a mix of two (`saves_mix`): `SAVE` does not look
for a child that is writing, and both write through the same name.

A process is at a `Stage` from the opening of the file to the end of the save.
-/

namespace Alcove.Bgsave

open Lib

/-! ## The stages of a save -/

/-- A thread or a child. -/
inductive Proc
  | reactor (r : ℕ)
  | child (pid : ℕ)
  deriving DecidableEq

/-- What a save that has opened the temporary file has yet to do. -/
inductive Stage
  | writing (i off : ℕ) (rest : Bytes)
  /-- the write failed, and the descriptor is still open -/
  | failing (i : ℕ)
  /-- all is written, and the file is to be renamed -/
  | complete
  deriving DecidableEq

def Dump.stage : Dump → Option Stage
  | write i off rest => some (.writing i off rest)
  | failed i _ _ => some (.failing i)
  | flushed | ret 0 => some .complete
  | fopen | unlink | ret _ => none

def Reactor.stage : Reactor → Option Stage
  | saving _ d => d.stage
  | renameTmp | reaped _ true | commit _ => some .complete
  | _ => none

def Kid.stage : Kid → Option Stage
  | running _ d => d.stage
  | exited _ 0 => some .complete
  | _ => none

/-- The stage of the save that a process is in the middle of. -/
def State.stage (s : State) : Proc → Option Stage
  | .reactor r => (s.reactors r).stage
  | .child pid => (s.kids pid).bind Kid.stage

/-- The step opens the temporary file. -/
def Label.opens : Label → Bool
  | dump _ (.fopen _) | child _ (.fopen _) => true
  | _ => false

/-- The temporary file is opened only while no other save has it open or has yet to rename it. -/
def NoOtherSave (s : State) (l : Label) : Prop := l.opens = true → ∀ x, s.stage x = none

/-- The saved file is absent, or one dump that some save was to write. -/
def State.OneDump (s : State) : Prop := ∀ i, s.disk.db = some i → s.disk.data i ∈ s.observed

/-! ## What a step does -/

section Steps

variable {s s' : State} {r pid : ℕ} {x : Proc}

/-- Only the stage of one process changes. -/
def Moves (s s' : State) (x : Proc) : Prop := ∀ y, y ≠ x → s'.stage y = s.stage y

/-- What a step does to the files and to the stages. -/
inductive Effect (s s' : State) : Prop
  | quiet (hdisk : s'.disk = s.disk) (hobs : s'.observed = s.observed)
      (hstage : ∀ x st, s'.stage x = some st → s.stage x = some st)
  | unlink (hdisk : s'.disk = s.disk.unlink) (hobs : s'.observed = s.observed)
      (hstage : ∀ x st, s'.stage x = some st → s.stage x = some st)
  | opens (x : Proc) (ticket : ℕ) (image : Bytes) (halone : ∀ y, s.stage y = none)
      (hdisk : s'.disk = (s.disk.fopen ticket).1) (hobs : s'.observed = image :: s.observed)
      (hmoves : Moves s s' x) (hx : s'.stage x = some (.writing (s.disk.fopen ticket).2 0 image))
  | write (x : Proc) (ticket i off : ℕ) (bs rest : Bytes)
      (hx : s.stage x = some (.writing i off (bs ++ rest)))
      (hdisk : s'.disk = s.disk.write ticket i off bs) (hobs : s'.observed = s.observed)
      (hmoves : Moves s s' x) (hx' : s'.stage x = some (.writing i (off + bs.length) rest))
  | writeFailing (x : Proc) (ticket i off : ℕ) (bs : Bytes) (hx : s.stage x = some (.failing i))
      (hdisk : s'.disk = s.disk.write ticket i off bs) (hobs : s'.observed = s.observed)
      (hmoves : Moves s s' x) (hx' : s'.stage x = some (.failing i))
  | completes (x : Proc) (i off : ℕ) (hx : s.stage x = some (.writing i off []))
      (hdisk : s'.disk = s.disk) (hobs : s'.observed = s.observed) (hmoves : Moves s s' x)
      (hx' : s'.stage x = some .complete)
  | fails (x : Proc) (i off : ℕ) (rest : Bytes) (hx : s.stage x = some (.writing i off rest))
      (hdisk : s'.disk = s.disk) (hobs : s'.observed = s.observed) (hmoves : Moves s s' x)
      (hx' : s'.stage x = some (.failing i))
  | hands (x y : Proc) (hx : s.stage x = some .complete) (hdisk : s'.disk = s.disk)
      (hobs : s'.observed = s.observed) (hx' : s'.stage x = none)
      (hy' : s'.stage y = some .complete) (hrest : ∀ z, z ≠ x → z ≠ y → s'.stage z = s.stage z)
  | renames (x : Proc) (hx : s.stage x = some .complete) (hdisk : s'.disk = s.disk.rename)
      (hobs : s'.observed = s.observed) (hmoves : Moves s s' x) (hx' : s'.stage x = none)

theorem stage_goto (p : Reactor) : (s.goto r p).stage (.reactor r) = p.stage := by
  rw [State.stage, State.goto_self]

theorem Moves.goto (hreactors : s'.reactors = s.reactors) (hkids : s'.kids = s.kids) (p : Reactor) :
    Moves s (s'.goto r p) (.reactor r) := by
  rintro (r' | pid) hne
  · have hr : r' ≠ r := by rintro rfl; exact hne rfl
    rw [State.stage, State.stage, State.goto_of_ne _ _ hr, hreactors]
  · rw [State.stage, State.stage, State.goto, hkids]

theorem stage_kid {k : Option Kid} (hkids : s'.kids = Function.update s.kids pid k) :
    s'.stage (.child pid) = k.bind Kid.stage := by
  rw [State.stage, hkids, Function.update_self]

theorem Moves.kid {k : Option Kid} (hreactors : s'.reactors = s.reactors)
    (hkids : s'.kids = Function.update s.kids pid k) : Moves s s' (.child pid) := by
  rintro (r | pid') hne
  · rw [State.stage, State.stage, hreactors]
  · have hpid : pid' ≠ pid := by rintro rfl; exact hne rfl
    rw [State.stage, State.stage, hkids, Function.update_of_ne hpid]

/-- No stage is new when the one that changes is over. -/
theorem Moves.quiet (hmoves : Moves s s' x) (hx : ∀ st, s'.stage x = some st → s.stage x = some st)
    (y : Proc) (st : Stage) (hy : s'.stage y = some st) : s.stage y = some st := by
  by_cases hyx : y = x
  · subst hyx
    exact hx st hy
  · rw [← hmoves y hyx, hy]

/-- A process that is not in the middle of a save stays so. -/
theorem Effect.of_none (hdisk : s'.disk = s.disk) (hobs : s'.observed = s.observed)
    (hmoves : Moves s s' x) (hx : s'.stage x = none) : Effect s s' :=
  .quiet hdisk hobs (hmoves.quiet fun st hst => by rw [hx] at hst; cases hst)

/-- The steps of a dump, whose process is at its stage. -/
theorem effect_dump {t : ℕ} {d d' : Dump} {a : Act} {disk : Disk}
    (hd : d.step s.disk t a = some (disk, d')) (hx : s.stage x = d.stage)
    (halone : ∀ image, a = .fopen image → ∀ y, s.stage y = none) (hdisk : s'.disk = disk)
    (hobs : s'.observed = (s.observe a).observed) (hmoves : Moves s s' x)
    (hx' : s'.stage x = d'.stage) : Effect s s' := by
  subst hdisk
  cases d with
  | fopen =>
    cases a with
    | fopen image =>
      obtain ⟨hdisk, rfl⟩ := Prod.mk.inj (Option.some.inj hd)
      exact .opens x t image (halone image rfl) hdisk.symm hobs hmoves hx'
    | fopenFails =>
      obtain ⟨hdisk, rfl⟩ := Prod.mk.inj (Option.some.inj hd)
      exact .of_none hdisk.symm hobs hmoves hx'
    | _ => cases hd
  | write i off rest =>
    cases a with
    | write n =>
      simp only [Dump.step] at hd
      split at hd
      · rename_i hn
        obtain ⟨hdisk, rfl⟩ := Prod.mk.inj (Option.some.inj hd)
        have hlen : (rest.take n).length = n := by rw [List.length_take, Nat.min_eq_left hn.2]
        refine .write x t i off (rest.take n) (rest.drop n) ?_ hdisk.symm hobs hmoves ?_
        · rw [List.take_append_drop]
          exact hx
        · rw [hlen]
          exact hx'
      · cases hd
    | flush =>
      simp only [Dump.step] at hd
      split at hd
      · rename_i hrest
        obtain ⟨hdisk, rfl⟩ := Prod.mk.inj (Option.some.inj hd)
        rw [hrest] at hx
        exact .completes x i off hx hdisk.symm hobs hmoves hx'
      · cases hd
    | fail =>
      obtain ⟨hdisk, rfl⟩ := Prod.mk.inj (Option.some.inj hd)
      exact .fails x i off rest hx hdisk.symm hobs hmoves hx'
    | _ => cases hd
  | flushed =>
    cases a with
    | fclose =>
      obtain ⟨hdisk, rfl⟩ := Prod.mk.inj (Option.some.inj hd)
      refine .quiet hdisk.symm hobs (hmoves.quiet fun st hst => ?_)
      rw [hx, ← hst, hx']
      rfl
    | _ => cases hd
  | failed i off rest =>
    cases a with
    | write n =>
      simp only [Dump.step] at hd
      split at hd
      · obtain ⟨hdisk, rfl⟩ := Prod.mk.inj (Option.some.inj hd)
        exact .writeFailing x t i off (rest.take n) hx hdisk.symm hobs hmoves hx'
      · cases hd
    | fclose =>
      obtain ⟨hdisk, rfl⟩ := Prod.mk.inj (Option.some.inj hd)
      exact .of_none hdisk.symm hobs hmoves hx'
    | _ => cases hd
  | unlink =>
    cases a with
    | unlink =>
      obtain ⟨hdisk, rfl⟩ := Prod.mk.inj (Option.some.inj hd)
      refine .unlink hdisk.symm hobs (hmoves.quiet fun st hst => ?_)
      rw [hx'] at hst
      cases hst
    | _ => cases hd
  | ret _ => cases a <;> cases hd

/-- A reactor and a child change together, and a save ends or none begins. -/
theorem quiet_both {p : ℕ} {q : Reactor} {k : Option Kid}
    (hr : s'.reactors = Function.update s.reactors r q)
    (hk : s'.kids = Function.update s.kids p k) (hq : q.stage = none) (hknone : k.bind Kid.stage = none)
    (y : Proc) (st : Stage) (hy : s'.stage y = some st) : s.stage y = some st := by
  cases y with
  | reactor r' =>
    rw [State.stage, hr] at hy
    by_cases hne : r' = r
    · rw [hne, Function.update_self, hq] at hy
      cases hy
    · rwa [Function.update_of_ne hne] at hy
  | child pid =>
    rw [State.stage, hk] at hy
    by_cases hne : pid = p
    · rw [hne, Function.update_self, hknone] at hy
      cases hy
    · rwa [Function.update_of_ne hne] at hy

/-- A child is waited for: its file is in the hands of the reactor. -/
theorem effect_reap {p t : ℕ} {ok : Bool} (hr : s'.reactors = Function.update s.reactors r (.reaped t ok))
    (hk : s'.kids = Function.update s.kids p none) (hdisk : s'.disk = s.disk)
    (hobs : s'.observed = s.observed) (hok : ok = true → s.stage (.child p) = some .complete) :
    Effect s s' := by
  cases ok with
  | false => exact .quiet hdisk hobs (quiet_both hr hk rfl rfl)
  | true =>
    refine .hands (.child p) (.reactor r) (hok rfl) hdisk hobs ?_ ?_ fun z hzp hzr => ?_
    · rw [State.stage, hk, Function.update_self, Option.bind_none]
    · rw [State.stage, hr, Function.update_self]
      rfl
    · cases z with
      | reactor r' =>
        rw [State.stage, State.stage, hr, Function.update_of_ne fun h => hzr (congrArg _ h)]
      | child p' =>
        rw [State.stage, State.stage, hk, Function.update_of_ne fun h => hzp (congrArg _ h)]

theorem effect_next (hstep : s.next r = some s') : Effect s s' := by
  have hquiet : ∀ {s₁ : State} (p : Reactor), s₁.disk = s.disk → s₁.observed = s.observed →
      s₁.reactors = s.reactors → s₁.kids = s.kids → p.stage = none → Effect s (s₁.goto r p) :=
    fun p h1 h2 h3 h4 h5 => .of_none h1 h2 (.goto h3 h4 p) ((stage_goto p).trans h5)
  rw [State.next] at hstep
  cases hr : s.reactors r with
  | giveUp | stashTmp _ | stashDst _ | publish _ | echild _ | freeTmp | freeDst | clear =>
    rw [hr] at hstep
    cases hstep
    exact hquiet _ rfl rfl rfl rfl rfl
  | waitpid p =>
    simp only [hr] at hstep
    split at hstep <;> cases hstep
    · exact hquiet _ rfl rfl rfl rfl rfl
    · rename_i t code hkid
      refine effect_reap rfl rfl rfl rfl fun hcode => ?_
      rw [State.stage, hkid, of_decide_eq_true hcode]
      rfl
    · exact effect_reap rfl rfl rfl rfl nofun
    · exact hquiet _ rfl rfl rfl rfl rfl
  | reaped t ok =>
    simp only [hr] at hstep
    split at hstep
    · rename_i hok
      cases hstep
      refine .quiet rfl rfl ((Moves.goto rfl rfl _).quiet fun st hst => ?_)
      rw [stage_goto] at hst
      obtain ⟨rfl, -⟩ : ok = true ∧ _ := by simpa [and_assoc] using hok
      rw [State.stage, hr, ← hst]
      rfl
    · split at hstep <;> cases hstep <;> exact hquiet _ rfl rfl rfl rfl rfl
  | rollback t =>
    simp only [hr] at hstep
    cases hstep
    have hnone : ∀ {s₁ : State}, (s₁.goto r .freeTmp).stage (.reactor r) = none := stage_goto _
    by_cases htmp : s.tmp = true
    · rw [if_pos htmp]
      exact .unlink rfl rfl ((Moves.goto rfl rfl _).quiet fun st hst => by
        rw [hnone] at hst
        cases hst)
    · rw [if_neg htmp]
      exact hquiet _ rfl rfl rfl rfl rfl
  | saving t d =>
    cases d with
    | ret code =>
      cases code with
      | zero =>
        rw [hr] at hstep
        cases hstep
        refine .quiet rfl rfl ((Moves.goto rfl rfl _).quiet fun st hst => ?_)
        rw [stage_goto] at hst
        rw [State.stage, hr, ← hst]
        rfl
      | succ code =>
        rw [hr] at hstep
        cases hstep
        exact hquiet _ rfl rfl rfl rfl rfl
    | _ =>
      rw [hr] at hstep
      cases hstep
  | _ =>
    rw [hr] at hstep
    cases hstep

/-- **What a step does** to the files and to the stages of the saves. -/
theorem effect_step {l : Label} (halone : NoOtherSave s l) (hstep : s.step l = some s') :
    Effect s s' := by
  have hsame : Effect s s := .quiet rfl rfl fun _ _ h => h
  have hquiet : ∀ {s₁ : State} {r : ℕ} (p : Reactor), s₁.disk = s.disk →
      s₁.observed = s.observed → s₁.reactors = s.reactors → s₁.kids = s.kids → p.stage = none →
      Effect s (s₁.goto r p) :=
    fun p h1 h2 h3 h4 h5 => .of_none h1 h2 (.goto h3 h4 p) ((stage_goto p).trans h5)
  cases l with
  | bgsave r =>
    simp only [State.step] at hstep
    split at hstep
    · cases hstep
      split
      · exact hquiet _ rfl rfl rfl rfl rfl
      · exact hsame
    · cases hstep
  | fork r pid =>
    simp only [State.step] at hstep
    split at hstep
    · cases hstep
      -- a new child has not opened the file
      exact .quiet rfl rfl (quiet_both rfl rfl rfl rfl)
    · cases hstep
  | forkFails r =>
    simp only [State.step] at hstep
    split at hstep <;> cases hstep
    exact hquiet _ rfl rfl rfl rfl rfl
  | poll r =>
    simp only [State.step] at hstep
    split at hstep
    · cases hstep
      split
      · exact hsame
      · exact hquiet _ rfl rfl rfl rfl rfl
    · cases hstep
  | next r => exact effect_next hstep
  | rename r fails =>
    simp only [State.step] at hstep
    split at hstep
    · rename_i t hr
      have hx : s.stage (.reactor r) = some .complete := by rw [State.stage, hr]; rfl
      split at hstep <;> cases hstep
      · exact hquiet _ rfl rfl rfl rfl rfl
      · exact .renames (.reactor r) hx rfl rfl (.goto rfl rfl _) (stage_goto _)
    · rename_i hr
      have hx : s.stage (.reactor r) = some .complete := by rw [State.stage, hr]; rfl
      split at hstep <;> cases hstep
      · exact hquiet _ rfl rfl rfl rfl rfl
      · exact .renames (.reactor r) hx rfl rfl (.goto rfl rfl _) (stage_goto _)
    · cases hstep
  | save r =>
    simp only [State.step] at hstep
    split at hstep <;> cases hstep
    exact hquiet _ rfl rfl rfl rfl rfl
  | dump r a =>
    simp only [State.step] at hstep
    split at hstep
    · rename_i t d hr
      obtain ⟨⟨disk, d'⟩, hd, rfl⟩ := Option.map_eq_some_iff.mp hstep
      refine effect_dump (x := .reactor r) hd (by rw [State.stage, hr]; rfl) ?_ rfl rfl ?_
        (stage_goto _)
      · rintro image rfl
        exact halone rfl
      · exact .goto (by cases a <;> rfl) (by cases a <;> rfl) _
    · cases hstep
  | child pid a =>
    simp only [State.step] at hstep
    split at hstep
    · rename_i t d hk
      obtain ⟨⟨disk, d'⟩, hd, hs'⟩ := Option.map_eq_some_iff.mp hstep
      have hkids : s'.kids = Function.update s.kids pid (some (.running t d')) := by rw [← hs']
      have hreactors : s'.reactors = s.reactors := by rw [← hs']; cases a <;> rfl
      refine effect_dump (x := .child pid) hd (by rw [State.stage, hk]; rfl) ?_ (by rw [← hs'])
        (by rw [← hs']) (.kid hreactors hkids) (stage_kid hkids)
      rintro image rfl
      exact halone rfl
    · cases hstep
  | exit pid =>
    simp only [State.step] at hstep
    split at hstep
    · rename_i t code hk
      have hs' := (Option.some.inj hstep).symm
      have hkids : s'.kids = Function.update s.kids pid (some (.exited t code)) := by rw [hs']
      have hmoves : Moves s s' (.child pid) := .kid (by rw [hs']) hkids
      refine .quiet (by rw [hs']) (by rw [hs']) (hmoves.quiet fun st hst => ?_)
      rw [stage_kid hkids] at hst
      rw [State.stage, hk, ← hst]
      cases code <;> rfl
    · cases hstep
  | kill pid =>
    simp only [State.step] at hstep
    split at hstep
    · rename_i t d hk
      have hs' := (Option.some.inj hstep).symm
      have hkids : s'.kids = Function.update s.kids pid (some (.killed t)) := by rw [hs']
      exact .of_none (by rw [hs']) (by rw [hs']) (.kid (by rw [hs']) hkids) (stage_kid hkids)
    · cases hstep

end Steps

/-! ## The invariant -/

/-- What holds of the files while a save is at a stage. -/
def StageOk (d : Disk) (observed : List Bytes) : Stage → Prop
  | .writing i off rest => d.data i ++ rest ∈ observed ∧ off = (d.data i).length ∧
      d.db ≠ some i ∧ i < d.next ∧ ∀ j, d.tmp = some j → j = i
  | .failing i => d.db ≠ some i ∧ i < d.next
  | .complete => ∀ i, d.tmp = some i → d.data i ∈ observed

structure Inv (s : State) : Prop where
  /-- there is one save at a time -/
  unique : ∀ x y, (s.stage x).isSome → (s.stage y).isSome → x = y
  stages : ∀ x st, s.stage x = some st → StageOk s.disk s.observed st
  oneDump : s.OneDump
  apart : ∀ i, s.disk.tmp = some i → s.disk.db ≠ some i
  tmpBefore : ∀ i, s.disk.tmp = some i → i < s.disk.next
  dbBefore : ∀ i, s.disk.db = some i → i < s.disk.next

section Inv

variable {s s' : State}

theorem inv_init (db tmp : Option Bytes) : Inv (State.init db tmp) where
  unique x y hx := by cases x <;> cases hx
  stages x st hx := by cases x <;> cases hx
  oneDump i hi := by
    cases db with
    | none => cases hi
    | some image =>
      obtain rfl : 0 = i := Option.some.inj hi
      exact List.mem_cons_self
  apart i hi hdb := by
    cases tmp with
    | none => cases hi
    | some image =>
      obtain rfl : 1 = i := Option.some.inj hi
      cases db <;> cases hdb
  tmpBefore i hi := by
    cases tmp with
    | none => cases hi
    | some image =>
      obtain rfl : 1 = i := Option.some.inj hi
      exact Nat.one_lt_two
  dbBefore i hi := by
    cases db with
    | none => cases hi
    | some image =>
      obtain rfl : 0 = i := Option.some.inj hi
      exact Nat.two_pos

theorem writeAt_end (d bs : Bytes) : writeAt d d.length bs = d ++ bs := by
  rw [writeAt, List.take_length, Nat.sub_self, List.replicate_zero, List.append_nil,
    List.drop_eq_nil_of_le (Nat.le_add_right _ _), List.append_nil]

/-- Only one process had a stage, so only one has. -/
theorem Inv.unique_of {x : Proc} (h : Inv s) (hx : (s.stage x).isSome) (hmoves : Moves s s' x)
    (y z : Proc) (hy : (s'.stage y).isSome) (hz : (s'.stage z).isSome) : y = z := by
  have honly : ∀ w, (s'.stage w).isSome → w = x := by
    intro w hw
    by_contra hne
    rw [hmoves w hne] at hw
    exact hne (h.unique w x hw hx)
  rw [honly y hy, honly z hz]

/-- The stage of the process that moves is the only one. -/
theorem Inv.stages_of {x : Proc} {st' : Stage} (h : Inv s) (hx : (s.stage x).isSome)
    (hmoves : Moves s s' x) (hx' : s'.stage x = some st') (hok : StageOk s'.disk s'.observed st')
    (y : Proc) (st : Stage) (hy : s'.stage y = some st) : StageOk s'.disk s'.observed st := by
  by_cases hyx : y = x
  · subst hyx
    rw [hx'] at hy
    cases hy
    exact hok
  · have hy' := hy
    rw [hmoves y hyx] at hy'
    exact absurd (h.unique y x (by rw [hy']; rfl) hx) hyx

/-- Fewer stages, over a disk that differs in `tmp` at most. -/
theorem Inv.mono (h : Inv s) (hobs : s'.observed = s.observed)
    (hstage : ∀ x st, s'.stage x = some st → s.stage x = some st)
    (hdisk : s'.disk = s.disk ∨ s'.disk = s.disk.unlink) : Inv s' := by
  have hdata : s'.disk.data = s.disk.data := by rcases hdisk with hd | hd <;> rw [hd]; rfl
  have hdb : s'.disk.db = s.disk.db := by rcases hdisk with hd | hd <;> rw [hd]; rfl
  have hnext : s'.disk.next = s.disk.next := by rcases hdisk with hd | hd <;> rw [hd]; rfl
  have htmp : ∀ i, s'.disk.tmp = some i → s.disk.tmp = some i := by
    intro i hi
    rcases hdisk with hd | hd
    · rwa [hd] at hi
    · rw [hd] at hi
      cases hi
  have hsome : ∀ x, (s'.stage x).isSome → (s.stage x).isSome := by
    intro x hx
    obtain ⟨st, hst⟩ := Option.isSome_iff_exists.mp hx
    rw [hstage x st hst]
    rfl
  refine ⟨fun x y hx hy => h.unique x y (hsome x hx) (hsome y hy), fun x st hx => ?_, ?_, ?_, ?_, ?_⟩
  · have hok := h.stages x st (hstage x st hx)
    cases st with
    | writing i off rest =>
      rw [StageOk, hdata, hdb, hnext, hobs]
      exact ⟨hok.1, hok.2.1, hok.2.2.1, hok.2.2.2.1, fun j hj => hok.2.2.2.2 j (htmp j hj)⟩
    | failing i =>
      rw [StageOk, hdb, hnext]
      exact hok
    | complete =>
      rw [StageOk, hdata, hobs]
      exact fun i hi => hok i (htmp i hi)
  · rw [State.OneDump, hdata, hdb, hobs]
    exact h.oneDump
  · rw [hdb]
    exact fun i hi => h.apart i (htmp i hi)
  · rw [hnext]
    exact fun i hi => h.tmpBefore i (htmp i hi)
  · rw [hnext, hdb]
    exact h.dbBefore

/-- The temporary file is opened, and no one else has it open. -/
theorem Inv.fopen {x : Proc} {ticket : ℕ} {image : Bytes} (h : Inv s)
    (halone : ∀ y, s.stage y = none) (hdisk : s'.disk = (s.disk.fopen ticket).1)
    (hobs : s'.observed = image :: s.observed) (hmoves : Moves s s' x)
    (hx : s'.stage x = some (.writing (s.disk.fopen ticket).2 0 image)) : Inv s' := by
  have hdb : s.disk.db ≠ some (s.disk.fopen ticket).2 := by
    cases htmp : s.disk.tmp with
    | some i =>
      rw [Disk.fopen, htmp]
      exact h.apart i htmp
    | none =>
      rw [Disk.fopen, htmp]
      exact fun hdb => Nat.lt_irrefl _ (h.dbBefore _ hdb)
  have hlt : (s.disk.fopen ticket).2 < s'.disk.next ∧ s.disk.next ≤ s'.disk.next := by
    rw [hdisk]
    cases htmp : s.disk.tmp with
    | some i => simpa [Disk.fopen, htmp] using h.tmpBefore i htmp
    | none => simp [Disk.fopen, htmp]
  have htmp' : s'.disk.tmp = some (s.disk.fopen ticket).2 := by rw [hdisk]; rfl
  have hdb' : s'.disk.db = s.disk.db := by rw [hdisk]; rfl
  have hdata : ∀ i, i ≠ (s.disk.fopen ticket).2 → s'.disk.data i = s.disk.data i := by
    intro i hi
    rw [hdisk]
    exact Function.update_of_ne hi ..
  have hempty : s'.disk.data (s.disk.fopen ticket).2 = [] := by
    rw [hdisk]
    exact Function.update_self ..
  have honly : ∀ y st, s'.stage y = some st → y = x := by
    intro y st hy
    by_contra hne
    rw [hmoves y hne, halone y] at hy
    cases hy
  refine ⟨fun y z hy hz => ?_, fun y st hy => ?_, fun i hi => ?_, fun i hi => ?_, fun i hi => ?_,
    fun i hi => ?_⟩
  · obtain ⟨st, hst⟩ := Option.isSome_iff_exists.mp hy
    obtain ⟨st', hst'⟩ := Option.isSome_iff_exists.mp hz
    rw [honly y st hst, honly z st' hst']
  · obtain rfl := honly y st hy
    rw [hx] at hy
    cases hy
    refine ⟨?_, by rw [hempty]; rfl, by rwa [hdb'], hlt.1, fun j hj => ?_⟩
    · rw [hempty, hobs]
      exact List.mem_cons_self
    · rw [htmp'] at hj
      exact (Option.some.inj hj).symm
  · rw [hdb'] at hi
    rw [hdata i fun he => hdb (he ▸ hi), hobs]
    exact List.mem_cons_of_mem _ (h.oneDump i hi)
  · rw [htmp'] at hi
    rw [hdb', ← Option.some.inj hi]
    exact hdb
  · rw [htmp'] at hi
    rw [← Option.some.inj hi]
    exact hlt.1
  · rw [hdb'] at hi
    exact Nat.lt_of_lt_of_le (h.dbBefore i hi) hlt.2

/-- A write to a file that is not the saved one. -/
theorem Inv.write {x : Proc} {ticket i off : ℕ} {bs : Bytes} {st' : Stage} (h : Inv s)
    (hx : (s.stage x).isSome) (hdb : s.disk.db ≠ some i)
    (hdisk : s'.disk = s.disk.write ticket i off bs) (hobs : s'.observed = s.observed)
    (hmoves : Moves s s' x) (hx' : s'.stage x = some st')
    (hok : StageOk s'.disk s'.observed st') : Inv s' := by
  refine ⟨h.unique_of hx hmoves, h.stages_of hx hmoves hx' hok, fun j hj => ?_, ?_, ?_, ?_⟩
  · have hj' : s.disk.db = some j := by rwa [hdisk] at hj
    have hne : j ≠ i := fun he => hdb (he ▸ hj')
    have hdata : s'.disk.data j = s.disk.data j := by
      rw [hdisk]
      exact Function.update_of_ne hne ..
    rw [hdata, hobs]
    exact h.oneDump j hj'
  · rw [hdisk]
    exact h.apart
  · rw [hdisk]
    exact h.tmpBefore
  · rw [hdisk]
    exact h.dbBefore

/-- The files stay as they are. -/
theorem Inv.still (h : Inv s) (hdisk : s'.disk = s.disk) (hobs : s'.observed = s.observed)
    (hunique : ∀ x y, (s'.stage x).isSome → (s'.stage y).isSome → x = y)
    (hstages : ∀ x st, s'.stage x = some st → StageOk s'.disk s'.observed st) : Inv s' := by
  refine ⟨hunique, hstages, ?_, ?_, ?_, ?_⟩
  · rw [State.OneDump, hdisk, hobs]
    exact h.oneDump
  · rw [hdisk]
    exact h.apart
  · rw [hdisk]
    exact h.tmpBefore
  · rw [hdisk]
    exact h.dbBefore

/-- A whole file takes the place of the saved one. -/
theorem Inv.rename {x : Proc} (h : Inv s) (hx : s.stage x = some .complete)
    (hdisk : s'.disk = s.disk.rename) (hobs : s'.observed = s.observed) (hmoves : Moves s s' x)
    (hx' : s'.stage x = none) : Inv s' := by
  have hok := h.stages x _ hx
  have hnone : ∀ y, s'.stage y = none := by
    intro y
    by_cases hyx : y = x
    · rw [hyx, hx']
    · rw [hmoves y hyx, Option.eq_none_iff_forall_ne_some]
      intro st hst
      exact hyx (h.unique y x (by rw [hst]; rfl) (by rw [hx]; rfl))
  have htmp : ∀ i, s'.disk.tmp ≠ some i := by
    rw [hdisk]
    rintro i ⟨⟩
  refine ⟨fun y z hy => ?_, fun y st hy => ?_, fun i hi => ?_, fun i hi => absurd hi (htmp i),
    fun i hi => absurd hi (htmp i), fun i hi => ?_⟩
  · rw [hnone] at hy
    cases hy
  · rw [hnone] at hy
    cases hy
  · rw [hdisk] at hi
    rw [hdisk, hobs]
    exact hok i hi
  · rw [hdisk] at hi ⊢
    exact h.tmpBefore i hi

/-- **Every step keeps the invariant**, when a save opens the file only alone. -/
theorem Inv.step (h : Inv s) {l : Label} (halone : NoOtherSave s l) (hstep : s.step l = some s') :
    Inv s' := by
  cases effect_step halone hstep with
  | quiet hdisk hobs hstage => exact h.mono hobs hstage (.inl hdisk)
  | unlink hdisk hobs hstage => exact h.mono hobs hstage (.inr hdisk)
  | opens x ticket image hnone hdisk hobs hmoves hx => exact h.fopen hnone hdisk hobs hmoves hx
  | write x ticket i off bs rest hx hdisk hobs hmoves hx' =>
    obtain ⟨hmem, hoff, hdb, hlt, htmp⟩ := h.stages x _ hx
    have hdata : s'.disk.data i = s.disk.data i ++ bs := by
      rw [hdisk, hoff]
      exact (Function.update_self ..).trans (writeAt_end _ _)
    refine h.write (by rw [hx]; rfl) hdb hdisk hobs hmoves hx' ⟨?_, ?_, ?_, ?_, ?_⟩
    · rw [hdata, hobs, List.append_assoc]
      exact hmem
    · rw [hdata, List.length_append, hoff]
    · rwa [hdisk]
    · rwa [hdisk]
    · rwa [hdisk]
  | writeFailing x ticket i off bs hx hdisk hobs hmoves hx' =>
    obtain ⟨hdb, hlt⟩ := h.stages x _ hx
    refine h.write (by rw [hx]; rfl) hdb hdisk hobs hmoves hx' ⟨?_, ?_⟩
    · rwa [hdisk]
    · rwa [hdisk]
  | completes x i off hx hdisk hobs hmoves hx' =>
    obtain ⟨hmem, -, -, -, htmp⟩ := h.stages x _ hx
    have hsome : (s.stage x).isSome := by rw [hx]; rfl
    refine h.still hdisk hobs (h.unique_of hsome hmoves) (h.stages_of hsome hmoves hx' ?_)
    rw [hdisk, hobs]
    intro j hj
    rw [htmp j hj]
    simpa using hmem
  | fails x i off rest hx hdisk hobs hmoves hx' =>
    obtain ⟨-, -, hdb, hlt, -⟩ := h.stages x _ hx
    have hsome : (s.stage x).isSome := by rw [hx]; rfl
    refine h.still hdisk hobs (h.unique_of hsome hmoves) (h.stages_of hsome hmoves hx' ?_)
    rw [hdisk]
    exact ⟨hdb, hlt⟩
  | hands x y hx hdisk hobs hx' hy' hrest =>
    have honly : ∀ z, (s'.stage z).isSome → z = y := by
      intro z hz
      by_contra hzy
      by_cases hzx : z = x
      · rw [hzx, hx'] at hz
        cases hz
      · rw [hrest z hzx hzy] at hz
        exact hzx (h.unique z x hz (by rw [hx]; rfl))
    refine h.still hdisk hobs (fun z w hz hw => by rw [honly z hz, honly w hw]) fun z st hz => ?_
    obtain rfl := honly z (by rw [hz]; rfl)
    rw [hy'] at hz
    cases hz
    rw [hdisk, hobs]
    exact h.stages x _ hx
  | renames x hx hdisk hobs hmoves hx' => exact h.rename hx hdisk hobs hmoves hx'

end Inv

/-! ## The saved file -/

/-- **The saved file is at every moment absent or one whole dump**, in every run in which a save
opens the temporary file only while no other save has it open or has yet to rename it. -/
theorem db_is_one_dump {db tmp : Option Bytes} {ls : List Label} {s : State}
    (h : Path State.step NoOtherSave (State.init db tmp) ls s) : s.OneDump :=
  (h.invariant (fun _ _ _ hs hok hstep => hs.step hok hstep) (inv_init db tmp)).oneDump

/-- Reactor 1 has forked a child, which has yet to open the file, when reactor 0 saves. -/
def forked : List Label := [.bgsave 1, .fork 1 100, .save 0]

/-- The rest of `SAVE`, while the child crashes. -/
def saved : List Label :=
  [.kill 100, .dump 0 (.write 2), .dump 0 .flush, .dump 0 .fclose, .next 0, .rename 0 false]

theorem db_is_one_dump_saved : ∃ s,
    run State.step (State.init (some [7]) none) (forked ++ .dump 0 (.fopen [1, 2]) :: saved) =
      some s ∧ s.disk.db = some 2 ∧ s.disk.data 2 = [1, 2] ∧ s.OneDump := by
  have hquiet : ∀ {ls s s'}, run (guarded State.step fun _ l => !l.opens) s ls = some s' →
      Path State.step NoOtherSave s ls s' := fun h =>
    (path_of_run_guarded h).mono fun s l hok hopens => by simp [hopens] at hok
  have halone : ∀ s, run State.step (State.init (some [7]) none) forked = some s →
      ∀ x, s.stage x = none := by
    rintro _ ⟨⟩ ((_ | _ | r) | pid)
    · rfl
    · rfl
    · rfl
    · by_cases hp : pid = 100
      · subst hp
        rfl
      · have hkid : (Function.update (fun _ => none) 100 (some (.running 0 .fopen)) :
            ℕ → Option Kid) pid = none := Function.update_of_ne hp ..
        exact congrArg (Option.bind · Kid.stage) hkid
  obtain ⟨s₁, s₂, s₃, h₁, h₂, h₃, hdb, hdata⟩ : ∃ s₁ s₂ s₃,
      run (guarded State.step fun _ l => !l.opens) (State.init (some [7]) none) forked = some s₁ ∧
        s₁.step (.dump 0 (.fopen [1, 2])) = some s₂ ∧
        run (guarded State.step fun _ l => !l.opens) s₂ saved = some s₃ ∧
        s₃.disk.db = some 2 ∧ s₃.disk.data 2 = [1, 2] :=
    ⟨_, _, _, rfl, rfl, rfl, rfl, rfl⟩
  have hpath := (hquiet h₁).append (.cons (fun _ => halone s₁ (hquiet h₁).run) h₂ (hquiet h₃))
  exact ⟨s₃, hpath.run, hdb, hdata, db_is_one_dump hpath⟩

/-- `BGSAVE` on reactor 0, whose child is writing when `SAVE` on reactor 1 writes and renames. -/
def overlapping : List Label :=
  [.bgsave 0, .fork 0 100, .child 100 (.fopen [1, 2]), .child 100 (.write 1),
    .save 1, .dump 1 (.fopen [3, 4]), .dump 1 (.write 2), .dump 1 .flush, .dump 1 .fclose, .next 1,
    .rename 1 false, .child 100 (.write 1)]

/-- **The saved file becomes a mix of two dumps**, when they overlap. -/
theorem saves_mix : ∃ s, run State.step (State.init none none) overlapping = some s ∧
    s.disk.db = some 2 ∧ s.disk.data 2 = [3, 2] ∧ s.observed = [[3, 4], [1, 2]] ∧ ¬ s.OneDump := by
  refine ⟨_, rfl, rfl, rfl, rfl, fun h => ?_⟩
  exact absurd (h 2 rfl) (by decide)

end Alcove.Bgsave
