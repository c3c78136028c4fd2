import Alcove.Resp.ListCommands
import Alcove.Resp.Parser

/-!
# The list commands and a sequence

A deque that is linked in both directions stands for the sequence of its values (`AlcList.Linked`).
Every command on it replies what the sequence says, and leaves such a deque, or no key, for the sequence
that is left (`ListHolds`).

**Main result:** `listSession_agrees`. A session of list commands on one key replies as a sequence of
byte strings does, and the deque that it leaves is linked in both directions. A push of a new key needs a
free slot, and a list that expires is gone (`listSession_limits`).
-/

namespace Alcove.Resp

open Lfkv Lib

/-! ## Indices -/

section Indices

variable {l : AlcList} {xs : List Bytes}

/-- The elements at some of the indices are a piece of the list. -/
theorem filterMap_range (xs : List Bytes) (a e : ℕ) :
    (((List.range xs.length).filter fun n : ℕ => a ≤ n ∧ n < e).filterMap fun n : ℕ => xs[n]?) =
      (xs.take e).drop a := by
  induction xs generalizing a e with
  | nil => simp
  | cons x xs ih =>
    have htail : ((List.range xs.length).filter fun n : ℕ => a ≤ n + 1 ∧ n + 1 < e) =
        (List.range xs.length).filter fun n : ℕ => a - 1 ≤ n ∧ n < e - 1 := by
      refine List.filter_congr fun n _ => ?_
      rw [decide_eq_decide]
      omega
    have hih := ih (a - 1) (e - 1)
    rw [← htail] at hih
    rw [List.length_cons, List.range_succ_eq_map, List.filter_cons, List.filter_map]
    cases e with
    | zero => simp
    | succ e => cases a <;> simpa [List.filterMap_map, Function.comp_def] using hih

theorem elementsBetween_eq (xs : List Bytes) (i j : ℤ) : elementsBetween xs i j =
    (xs.take (position xs j + 1).toNat).drop (position xs i).toNat := by
  rw [← filterMap_range, elementsBetween]
  congr 1
  refine List.filter_congr fun n _ => ?_
  rw [decide_eq_decide]
  omega

theorem respNormIndex_eq (xs : List Bytes) (i : ℤ) : respNormIndex i xs.length =
    if position xs i < 0 ∨ (xs.length : ℤ) ≤ position xs i then -1 else position xs i := rfl

/-- **`LINDEX` finds the element at the index**, from whichever end it walks. -/
theorem listAt_eq (h : l.Linked xs) (i : ℤ) :
    listAt l i = some (((elementAt xs i).map Reply.bulk).getD .nil) := by
  rw [listAt, h.len_eq, respNormIndex_eq]
  by_cases hout : position xs i < 0 ∨ (xs.length : ℤ) ≤ position xs i
  · have hnone : elementAt xs i = none := by
      rw [elementAt]
      split
      · rfl
      · exact List.getElem?_eq_none (by omega)
    rw [if_pos hout, hnone]
    rfl
  · have hlt : (position xs i).toNat < xs.length := by omega
    have hat : elementAt xs i = some xs[(position xs i).toNat] := by
      rw [elementAt, if_neg (by omega), List.getElem?_eq_getElem hlt]
    rw [if_neg hout, hat]
    dsimp only
    rw [if_neg (by omega)]
    split
    · obtain ⟨a, ha, hval⟩ := h.forward_at hlt
      rw [ha]
      simp [hval, List.getElem?_eq_getElem hlt]
    · obtain ⟨a, ha, hval⟩ := h.backward_at hlt
      have hsteps : ((xs.length : ℤ) - 1 - position xs i).toNat =
          xs.length - 1 - (position xs i).toNat := by omega
      rw [hsteps, ha]
      simp [hval, List.getElem?_eq_getElem hlt]

/-- **`LRANGE` reads the elements between the indices**, and counts them in its header. -/
theorem listRange_eq (h : l.Linked xs) (i j : ℤ) :
    listRange l i j = some (.array (elementsBetween xs i j).length (elementsBetween xs i j)) := by
  have hstart : (if i < 0 then i + (l.len : ℤ) else i) = position xs i := by
    rw [h.len_eq]
    rfl
  have hstop : (if j < 0 then j + (l.len : ℤ) else j) = position xs j := by
    rw [h.len_eq]
    rfl
  rw [listRange, hstart, hstop, h.len_eq, elementsBetween_eq]
  generalize position xs i = s
  generalize position xs j = t
  generalize hs : (if s < 0 then 0 else s) = s'
  generalize ht : (if (xs.length : ℤ) ≤ t then (xs.length : ℤ) - 1 else t) = t'
  have hs' : s'.toNat = s.toNat ∧ 0 ≤ s' := by split at hs <;> omega
  split
  · have hnil : (xs.take (t + 1).toNat).drop s.toNat = [] := by
      rw [List.drop_eq_nil_iff, List.length_take]
      split at ht <;> omega
    rw [hnil]
    rfl
  · obtain ⟨p, as, hp, hseg, hvals⟩ := h.walk (n := s'.toNat) (by omega)
    have hread : l.readVals (t' - s' + 1).toNat p =
        some ((xs.drop s'.toNat).take (t' - s' + 1).toNat) := by
      refine AlcList.readVals_seg hseg hvals ?_
      rw [List.length_drop]
      split at ht <;> omega
    have hpiece : (xs.take (t + 1).toNat).drop s.toNat =
        (xs.drop s'.toNat).take (t' - s' + 1).toNat := by
      rw [List.drop_take, hs'.1, List.take_eq_take_iff, List.length_drop]
      split at ht <;> omega
    have hcount : ((xs.drop s'.toNat).take (t' - s' + 1).toNat).length = (t' - s' + 1).toNat := by
      rw [List.length_take, List.length_drop]
      split at ht <;> omega
    rw [hpiece, hcount, hp]
    simp [hread]

end Indices

/-! ## Lists that are changed -/

section Lists

variable {l : AlcList} {xs ys : List Bytes} {v : Bytes}

theorem pushAll_linked (left : Bool) (vals : List Bytes) (h : l.Linked xs) :
    (pushAll left l vals).Linked (if left then vals.reverse ++ xs else xs ++ vals) := by
  induction vals generalizing l xs with
  | nil => cases left <;> simpa [pushAll] using h
  | cons v vals ih =>
    cases left with
    | true => simpa [pushAll] using ih (h.pushLeft v)
    | false => simpa [pushAll] using ih (h.pushRight v)

/-- What a pop leaves: the list of some values, or none where the value was the last one. -/
def Leaves (ys : List Bytes) (rest : Option AlcList) : Prop := rest.elim (ys = []) (·.Linked ys)

theorem popped_left (h : l.Linked (v :: ys)) :
    ∃ rest, popped true l = some (v, rest) ∧ Leaves ys rest := by
  obtain ⟨⟨as, hlinked, hvals⟩, hlen⟩ := h
  have hnodes := AlcList.length_cells_le hlinked.nodup hvals
  cases as with
  | nil => cases hvals
  | cons a as =>
    obtain ⟨hhead, r, hr, hrest⟩ := hlinked.forward
    obtain ⟨hv, hvals⟩ := List.cons.inj hvals
    by_cases hone : l.len = 1
    · refine ⟨none, by simp [popped, hhead, hv, hone], ?_⟩
      rw [hone, List.length_cons] at hlen
      exact List.length_eq_zero_iff.1 (by omega)
    · obtain ⟨l', hl', hcopy⟩ := AlcList.Linked.empty.copyFrom
        (fun a => !true && l.tail = some a) hrest hvals (Nat.le_of_succ_le hnodes)
      have hcells : as.length = ys.length := by simpa using congrArg List.length hvals
      have hall : (as.takeWhile fun a => !(!true && l.tail = some a)) = as :=
        List.takeWhile_eq_self_iff.2 fun _ _ => rfl
      rw [hall, hcells, List.take_length] at hcopy
      refine ⟨some l', ?_, hcopy⟩
      simp only [Bool.not_true, Bool.false_and] at hl'
      simp [popped, hhead, hv, hone, hr, hl']

theorem popped_right (h : l.Linked (ys ++ [v])) :
    ∃ rest, popped false l = some (v, rest) ∧ Leaves ys rest := by
  obtain ⟨⟨as, hlinked, hvals⟩, hlen⟩ := h
  have hnodes := AlcList.length_cells_le hlinked.nodup hvals
  have hcells : as.length = ys.length + 1 := by simpa using congrArg List.length hvals
  rcases List.eq_nil_or_concat as with rfl | ⟨as, t, rfl⟩
  · cases hcells
  rw [List.concat_eq_append] at hlinked hvals hcells hnodes
  have htail : l.tail = some t := by
    have hback := hlinked.backward.head_eq
    rwa [List.reverse_append] at hback
  have hv : l.val t = some v := by
    rw [List.map_append, List.map_append] at hvals
    exact List.singleton_inj.1 (List.append_inj_right' hvals rfl)
  by_cases hone : l.len = 1
  · refine ⟨none, by simp [popped, htail, hv, hone], ?_⟩
    rw [hone, List.length_append, List.length_singleton] at hlen
    exact List.length_eq_zero_iff.1 (by omega)
  · obtain ⟨l', hl', hcopy⟩ := AlcList.Linked.empty.copyFrom
      (fun a => !false && l.tail = some a) hlinked.forward hvals hnodes
    -- the walk stops at the tail, which is met once
    have hstop : ((as ++ [t]).takeWhile fun a => !(!false && l.tail = some a)) = as := by
      rw [List.takeWhile_append_of_pos fun a ha => ?_]
      · simp [htail]
      · have hne : t ≠ a := fun hta =>
          (List.nodup_append.1 hlinked.nodup).2.2 a ha t (List.mem_singleton_self t) hta.symm
        simp [htail, hne]
    have hlen' : as.length = ys.length := by simpa using hcells
    rw [hstop, hlen', List.nil_append, List.take_left] at hcopy
    refine ⟨some l', ?_, hcopy⟩
    simp only [htail, Bool.not_false, Bool.true_and, Option.some.injEq] at hl'
    simp [popped, htail, hv, hone, hl']

end Lists

/-! ## One command -/

/-- The key holds nothing, or a list that is linked in both directions and does not expire at these
times. -/
inductive ListHolds (clock : Set ℤ) (m : KeyMap ListStored) (key : Bytes) : List Bytes → Prop
  | nothing (h : m.find key = none) : ListHolds clock m key []
  | list {l : AlcList} {x : ℤ} {xs : List Bytes} (h : m.find key = some (.list l, x))
      (hlasts : Lasting clock x) (hl : l.Linked xs) : ListHolds clock m key xs

/-- The reply is that of the sequence, and the table holds what is left of it. -/
def ListAnswered (clock : Set ℤ) (key : Bytes) (answer : Reply × List Bytes) (kv : Lfkv ListStored)
    (r : Option Reply) : Prop :=
  r = some answer.1 ∧ ∃ m, Tracks kv m ∧ ListHolds clock m key answer.2

section Command

variable {clock : Set ℤ} {kv : Lfkv ListStored} {m : KeyMap ListStored} {key : Bytes} {xs args : List Bytes}

/-- A command that looks at the list. -/
theorem lookAtList_runs (h : Tracks kv m) (hkey : key.length ≤ respMaxBulk)
    (hm : ListHolds clock m key xs) {missing r : Reply} {k : AlcList → Option Reply}
    (hmissing : xs = [] → missing = r) (hlist : ∀ l, l.Linked xs → k l = some r) :
    Serves HasFree clock (ListAnswered clock key (r, xs)) (lookAtList key missing k) kv := by
  have hshort := short_of_bulk hkey
  cases hm with
  | nothing hnone =>
    refine Serves.getNone h hshort hnone fun kv' h' => ?_
    exact ⟨congrArg some (hmissing rfl), m, h', .nothing hnone⟩
  | list hsome hlasts hl =>
    refine Serves.getSome h hshort hsome hlasts fun kv' h' => ?_
    exact ⟨hlist _ hl, m, h', .list hsome hlasts hl⟩

/-- A command that is refused leaves the list as it is. -/
theorem listAnswered_refused (h : Tracks kv m) (hm : ListHolds clock m key xs) (r : Reply) :
    Serves HasFree clock (ListAnswered clock key (r, xs)) (.ret (some r)) kv := ⟨rfl, m, h, hm⟩

theorem push_runs (h : Tracks kv m) (hkey : key.length ≤ respMaxBulk) (hm : ListHolds clock m key xs)
    (left : Bool) {ys : List Bytes} (hys : ys = if left then args.reverse ++ xs else xs ++ args) :
    Serves HasFree clock (ListAnswered clock key (if args.length < 1 then (wrongArgs, xs) else (.int ys.length, ys)))
      (cmdLpushRpush key args left) kv := by
  have hshort := short_of_bulk hkey
  rw [cmdLpushRpush]
  by_cases hargs : args.length < 1
  · rw [if_pos hargs, if_pos hargs]
    exact listAnswered_refused h hm wrongArgs
  rw [if_neg hargs, if_neg hargs, pushLoop]
  cases hm with
  | nothing hnone =>
    have hpushed := pushAll_linked left args AlcList.Linked.empty
    rw [← hys] at hpushed
    refine Serves.getNone h hshort hnone fun kv' h' => ?_
    refine Serves.setNx h' hshort hnone fun kv'' h'' => ?_
    rw [if_pos rfl]
    exact ⟨by rw [hpushed.len_eq], _, h'', .list (KeyMap.find_update m key _) lasting_zero hpushed⟩
  | list hsome hlasts hl =>
    obtain ⟨fresh, hfresh, hclone⟩ := hl.clone
    have hpushed := pushAll_linked left args hclone
    rw [← hys] at hpushed
    refine Serves.getSome h hshort hsome hlasts fun kv' h' => ?_
    simp only [Ret.value, hfresh]
    refine Serves.cas h' hshort hsome hlasts fun kv'' h'' => ?_
    rw [if_pos rfl]
    exact ⟨by rw [hpushed.len_eq], _, h'', .list (KeyMap.find_update m key _) hlasts hpushed⟩

/-- A pop of the value that is at its end. -/
theorem popLoop_runs (h : Tracks kv m) (hkey : key.length ≤ respMaxBulk) {l : AlcList} {x : ℤ}
    (hsome : m.find key = some (.list l, x)) (hlasts : Lasting clock x) {left : Bool} {v : Bytes}
    {ys : List Bytes} {rest : Option AlcList} (hlen : l.len ≠ 0)
    (hpop : popped left l = some (v, rest)) (hleaves : Leaves ys rest) (n : ℕ) :
    Serves HasFree clock (ListAnswered clock key (.bulk v, ys)) (popLoop key left (n + 1)) kv := by
  have hshort := short_of_bulk hkey
  rw [popLoop]
  refine Serves.getSome h hshort hsome hlasts fun kv' h' => ?_
  simp only [Ret.value, if_neg hlen, hpop]
  refine Serves.cas h' hshort hsome hlasts fun kv'' h'' => ?_
  rw [if_pos rfl]
  refine ⟨rfl, _, h'', ?_⟩
  cases rest with
  | none =>
    obtain rfl : ys = [] := hleaves
    exact .nothing (KeyMap.find_update m key _)
  | some l' => exact .list (KeyMap.find_update m key _) hlasts hleaves

/-- A pop from nothing. -/
theorem popLoop_empty (h : Tracks kv m) (hkey : key.length ≤ respMaxBulk)
    (hm : ListHolds clock m key []) (left : Bool) (n : ℕ) :
    Serves HasFree clock (ListAnswered clock key (.nil, [])) (popLoop key left (n + 1)) kv := by
  have hshort := short_of_bulk hkey
  rw [popLoop]
  cases hm with
  | nothing hnone =>
    refine Serves.getNone h hshort hnone fun kv' h' => ?_
    exact ⟨rfl, m, h', .nothing hnone⟩
  | @list l x xs hsome hlasts hl =>
    have hlen : l.len = 0 := hl.len_eq
    refine Serves.getSome h hshort hsome hlasts fun kv' h' => ?_
    simp only [Ret.value, if_pos hlen]
    exact ⟨rfl, m, h', .list hsome hlasts hl⟩

theorem lpop_runs (h : Tracks kv m) (hkey : key.length ≤ respMaxBulk) (hm : ListHolds clock m key xs)
    (n : ℕ) : Serves HasFree clock (ListAnswered clock key ((xs.head?.map Reply.bulk).getD .nil, xs.tail))
      (popLoop key true (n + 1)) kv := by
  cases xs with
  | nil => exact popLoop_empty h hkey hm true n
  | cons v ys =>
    cases hm with
    | @list l x xs hsome hlasts hl =>
      obtain ⟨rest, hpop, hleaves⟩ := popped_left hl
      have hlen : l.len ≠ 0 := by simp [hl.len_eq]
      exact popLoop_runs h hkey hsome hlasts hlen hpop hleaves n

theorem rpop_runs (h : Tracks kv m) (hkey : key.length ≤ respMaxBulk) (hm : ListHolds clock m key xs)
    (n : ℕ) : Serves HasFree clock (ListAnswered clock key ((xs.getLast?.map Reply.bulk).getD .nil, xs.dropLast))
      (popLoop key false (n + 1)) kv := by
  rcases List.eq_nil_or_concat xs with rfl | ⟨ys, v, rfl⟩
  · exact popLoop_empty h hkey hm false n
  · rw [List.concat_eq_append] at hm ⊢
    rw [List.getLast?_concat, List.dropLast_concat]
    generalize hzs : ys ++ [v] = zs at hm
    cases hm with
    | nothing hnone => cases List.append_ne_nil_of_right_ne_nil ys (List.cons_ne_nil v []) hzs
    | @list l x xs hsome hlasts hl =>
      rw [← hzs] at hl
      obtain ⟨rest, hpop, hleaves⟩ := popped_right hl
      have hlen : l.len ≠ 0 := by simp [hl.len_eq]
      exact popLoop_runs h hkey hsome hlasts hlen hpop hleaves n

theorem listCmd_runs (h : Tracks kv m) (hkey : key.length ≤ respMaxBulk)
    (hm : ListHolds clock m key xs) (cmd : LCommand) :
    Serves HasFree clock (ListAnswered clock key (listExec xs args cmd)) (cmd.prog key args) kv := by
  cases cmd with
  | lpush => exact push_runs h hkey hm true rfl
  | rpush => exact push_runs h hkey hm false rfl
  | lpop =>
    match args with
    | [] => exact lpop_runs h hkey hm 1000
    | _ :: _ => exact listAnswered_refused h hm wrongArgs
  | rpop =>
    match args with
    | [] => exact rpop_runs h hkey hm 1000
    | _ :: _ => exact listAnswered_refused h hm wrongArgs
  | llen =>
    match args with
    | [] =>
      refine lookAtList_runs h hkey hm (fun hnil => by rw [hnil]; rfl) fun l hl => ?_
      rw [hl.len_eq]
      rfl
    | _ :: _ => exact listAnswered_refused h hm wrongArgs
  | lindex =>
    match args with
    | [i] =>
      simp only [LCommand.prog, cmdLindex, listExec]
      cases respArgToLl i with
      | none => exact listAnswered_refused h hm notInteger
      | some idx =>
        refine lookAtList_runs h hkey hm (fun hnil => ?_) fun l hl => listAt_eq hl idx
        rw [hnil]
        simp [elementAt]
    | [] | _ :: _ :: _ => exact listAnswered_refused h hm wrongArgs
  | lrange =>
    match args with
    | [i, j] =>
      simp only [LCommand.prog, cmdLrange, listExec]
      cases respArgToLl i with
      | none => exact listAnswered_refused h hm notInteger
      | some start =>
        cases respArgToLl j with
        | none => exact listAnswered_refused h hm notInteger
        | some stop =>
          refine lookAtList_runs h hkey hm (fun hnil => ?_) fun l hl => listRange_eq hl start stop
          rw [hnil]
          rfl
    | [] | [_] | _ :: _ :: _ :: _ => exact listAnswered_refused h hm wrongArgs

end Command

/-! ## A session -/

/-- **The replies of a session are those of a sequence**, and the list that it leaves is linked in both
directions. -/
theorem listSession_agrees {clock : Set ℤ} {kv : Lfkv ListStored} {m : KeyMap ListStored} {key : Bytes}
    {xs : List Bytes} (h : Tracks kv m) (hkey : key.length ≤ respMaxBulk)
    (hm : ListHolds clock m key xs) (cmds : List (LCommand × List Bytes)) :
    Serves HasFree clock (fun kv' replies => replies = (listRun xs cmds).1.map some ∧
      ∃ m', Tracks kv' m' ∧ ListHolds clock m' key (listRun xs cmds).2) (listSession key cmds) kv := by
  induction cmds generalizing kv m xs with
  | nil => exact ⟨rfl, m, h, hm⟩
  | cons c cmds ih =>
    obtain ⟨cmd, args⟩ := c
    refine Serves.bind ((listCmd_runs h hkey hm cmd).mono ?_)
    rintro kv' r ⟨rfl, m', h', hm'⟩
    refine Serves.bind ((ih h' hm').mono ?_)
    rintro kv'' replies ⟨rfl, hrest⟩
    exact ⟨rfl, hrest⟩

/-- Two values are pushed and one is taken from the other end on a new table. -/
theorem listSession_agrees_rpush : Serves HasFree Set.univ
    (fun kv' replies => replies = [some (.int 2), some (.bulk [97]), some (.array 1 [[98]])] ∧
      ∃ m', Tracks kv' m' ∧ ListHolds Set.univ m' [107] [[98]])
    (listSession [107] [(.rpush, [[97], [98]]), (.lpop, []), (.lrange, [[48], [45, 49]])])
    (lfkvNew ListStored 4 (by decide)) := by
  have hkey : ([107] : Bytes).length ≤ respMaxBulk := by decide
  exact listSession_agrees ⟨abs_lfkvNew 4 (by decide), counted_lfkvNew 4 (by decide)⟩ hkey
    (.nothing rfl) [(.rpush, [[97], [98]]), (.lpop, []), (.lrange, [[48], [45, 49]])]

/-! ## Where a session is not that of a sequence -/

/-- A call that runs alone. -/
def ranAlone (c : Call ListStored) (now : ℤ) (addrs : List ℕ) (kv : Lfkv ListStored) :
    Lfkv ListStored × Pc ListStored :=
  addrs.foldl (soloStep c now) (kv, c.start kv true)

/-- The table that it leaves stands for the map that the call makes. -/
theorem tracks_ranAlone (c : Call ListStored) (now : ℤ) (addrs : List ℕ) {kv kv' : Lfkv ListStored}
    {m : KeyMap ListStored} {r : Ret ListStored} (h : Tracks kv m) (hfree : HasFree kv) (hshort : c.Short) (hkeyed : c.Keyed)
    (hrun : ranAlone c now addrs kv = (kv', .ret r)) :
    Tracks kv' (m.update c.key (onPair now c (m.find c.key)).1) :=
  (returned_of_ends (ends_keyed h (fun _ => hfree) hshort hkeyed) addrs hrun).1

/-- A table of one slot, which the key `b` has taken. -/
def takenTable : Lfkv ListStored :=
  (ranAlone (.set [98] .other) 0 [0, 0, 0] (lfkvNew ListStored 0 (by decide))).1

/-- `RPUSH a v` -/
def onePush : List (LCommand × List Bytes) := [(.rpush, [[118]])]

/-- No round of the push finds a slot. -/
theorem pushLoop_taken {n : ℕ} {Q : Lfkv ListStored → List (Option Reply) → Prop}
    {f : Option Reply → Prog ListStored (List (Option Reply))}
    (h : Serves (fun _ => True) Set.univ Q ((pushLoop [97] [[118]] false n).bind f) takenTable) :
    Serves (fun _ => True) Set.univ Q (f (some tooManyRetries)) takenTable := by
  induction n with
  | zero => exact h
  | succ n ih =>
    have hget := returned_of_ends (h (fun _ => trivial) 0 trivial) [0, 0, 0] rfl
    have hset := returned_of_ends (hget (fun _ => trivial) 0 trivial) [0, 0, 0, 0, 0, 0] rfl
    exact ih hset

/-- The list of `a` is `v`, until time 1. -/
def expiringTable : Lfkv ListStored :=
  (ranAlone (.setExpiry [97] 1) 0 [0, 0, 0, 0, 0, 0]
    (ranAlone (.set [97] (.list (AlcList.empty.pushRight [118]))) 0 [0, 0, 0]
      (lfkvNew ListStored 2 (by decide))).1).1

/-- `LLEN a`, twice -/
def twoLens : List (LCommand × List Bytes) := [(.llen, []), (.llen, [])]

/-- A push of a new key is refused where every slot is taken, and a list that expires between two
commands is not there for the second one. -/
theorem listSession_limits :
    (∃ m, Tracks takenTable m ∧ ListHolds Set.univ m [97] [] ∧
      ¬ Serves (fun _ => True) Set.univ (fun _ replies => replies = (listRun [] onePush).1.map some)
        (listSession [97] onePush) takenTable) ∧
    ∃ m l, Tracks expiringTable m ∧ m.find [97] = some (.list l, 1) ∧ l.Linked [[118]] ∧
      ¬ Serves (fun _ => True) {0, 2} (fun _ replies => replies = (listRun [[118]] twoLens).1.map some)
        (listSession [97] twoLens) expiringTable := by
  have hnew (n : ℕ) (hn : n < 64) : Tracks (lfkvNew ListStored n hn) KeyMap.empty :=
    ⟨abs_lfkvNew n hn, counted_lfkvNew n hn⟩
  constructor
  · have htaken := tracks_ranAlone (.set [98] .other) 0 [0, 0, 0] (hnew 0 (by decide))
      ⟨0, by decide, rfl⟩ (by decide) trivial rfl
    refine ⟨_, htaken, .nothing rfl, fun h => ?_⟩
    have hrefused := pushLoop_taken h
    cases hrefused
  · have hset := tracks_ranAlone (.set [97] (.list (AlcList.empty.pushRight [118]))) 0 [0, 0, 0]
      (hnew 2 (by decide)) ⟨0, by decide, rfl⟩ (by decide) trivial rfl
    have hexpiring := tracks_ranAlone (.setExpiry [97] 1) 0 [0, 0, 0, 0, 0, 0] hset
      ⟨0, by decide, rfl⟩ (by decide) trivial rfl
    refine ⟨_, _, hexpiring, rfl, AlcList.Linked.empty.pushRight [118], fun h => ?_⟩
    have hfirst := returned_of_ends (h (fun _ => trivial) 0 (by simp)) [0, 0, 0] rfl
    have hsecond := returned_of_ends (hfirst (fun _ => trivial) 2 (by simp)) [0, 0, 0, 0, 0] rfl
    cases hsecond

end Alcove.Resp
