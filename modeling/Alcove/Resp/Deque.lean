import Alcove.Lib.Linked
import Alcove.Resp.Hash

/-!
# Deques

The doubly linked list of `deque.h`, with its nodes, its two ends and its length. A deque of the
keyspace is not changed once it is stored: a command copies it and changes the copy.

**Main results:** `Linked.pushRight`, `Linked.pushLeft`. A push keeps both directions of the list and its
length in step (`Linked`).
-/

namespace Alcove.Resp

open Lib

/-! ## The list -/

/-- `alc_listnode_t`, with the bytes of its blob -/
structure ListNode where
  val : Bytes
  prev : Option ℕ
  next : Option ℕ
  deriving DecidableEq

/-- `alc_list_t`, with its nodes by address -/
structure AlcList where
  nodes : List ListNode
  head : Option ℕ
  tail : Option ℕ
  len : ℕ
  deriving DecidableEq

namespace AlcList

/-- `make_list_exp` -/
def empty : AlcList := ⟨[], none, none, 0⟩

variable (l : AlcList)

/-- `nd->next` -/
def next (a : ℕ) : Option (Option ℕ) := l.nodes[a]?.map ListNode.next

/-- `nd->prev` -/
def prev (a : ℕ) : Option (Option ℕ) := l.nodes[a]?.map ListNode.prev

/-- The bytes of `nd->val`. -/
def val (a : ℕ) : Option Bytes := l.nodes[a]?.map ListNode.val

/-- `alc_list_push_right` -/
def pushRight (v : Bytes) : AlcList :=
  let n := l.nodes.length
  let nodes := l.nodes ++ [⟨v, l.tail, none⟩]
  match l.tail with
  | some t =>
    { l with nodes := nodes.modify t fun nd => { nd with next := some n }
             tail := some n
             len := l.len + 1 }
  | none => { nodes := nodes, head := some n, tail := some n, len := l.len + 1 }

/-- `alc_list_push_left` -/
def pushLeft (v : Bytes) : AlcList :=
  let n := l.nodes.length
  let nodes := l.nodes ++ [⟨v, none, l.head⟩]
  match l.head with
  | some h =>
    { l with nodes := nodes.modify h fun nd => { nd with prev := some n }
             head := some n
             len := l.len + 1 }
  | none => { nodes := nodes, head := some n, tail := some n, len := l.len + 1 }

/-- `for (; nd && !stop; nd = nd->next)`, with a push of each value: a walk that takes more steps than
there are nodes has met one twice, and goes on for ever. -/
def copyFrom (src : AlcList) (stop : ℕ → Bool) : ℕ → Option ℕ → AlcList → Option AlcList
  | _, none, dst => some dst
  | 0, some _, _ => none
  | fuel + 1, some a, dst =>
    if stop a then some dst
    else do
      let v ← src.val a
      let next ← src.next a
      copyFrom src stop fuel next (dst.pushRight v)

/-- `resp_list_clone` -/
def respListClone (src : AlcList) : Option AlcList :=
  src.copyFrom (fun _ => false) src.nodes.length src.head empty

/-- The values of so many nodes. -/
def readVals : ℕ → Option ℕ → Option (List Bytes)
  | 0, _ => some []
  | n + 1, p => do
    let a ← p
    let v ← l.val a
    let next ← l.next a
    let rest ← readVals n next
    return v :: rest

/-! ## Both directions -/

/-- **The list is of some values**: the nodes that are met from the head and those that are met from the
tail are the same in mirrored order, they hold the values, and `len` counts them. -/
structure Linked (xs : List Bytes) : Prop where
  cells : ∃ as, DLinked l.next l.prev l.head l.tail as ∧ as.map l.val = xs.map some
  len_eq : l.len = xs.length

variable {l : AlcList} {xs : List Bytes} {v : Bytes} {a : ℕ}

theorem Linked.empty : empty.Linked [] where
  cells := ⟨[], DLinked.nil, rfl⟩
  len_eq := rfl

theorem lt_of_val {x : Bytes} (h : l.val a = some x) : a < l.nodes.length := by
  obtain ⟨nd, hnd, -⟩ := Option.map_eq_some_iff.1 h
  exact (List.getElem?_eq_some_iff.1 hnd).1

/-- The cells are nodes of the list. -/
theorem lt_of_cells {as : List ℕ} (h : as.map l.val = xs.map some) (ha : a ∈ as) :
    a < l.nodes.length := by
  have hmem : l.val a ∈ xs.map some := h ▸ List.mem_map_of_mem ha
  obtain ⟨x, -, hx⟩ := List.mem_map.1 hmem
  exact lt_of_val hx.symm

/-! ### A push at the end -/

theorem val_pushRight (ha : a < l.nodes.length) : (l.pushRight v).val a = l.val a := by
  unfold AlcList.pushRight AlcList.val
  cases l.tail with
  | none => rw [List.getElem?_append_left ha]
  | some t =>
    rw [List.getElem?_modify, List.getElem?_append_left ha]
    cases l.nodes[a]? with
    | none => rfl
    | some nd => by_cases h : t = a <;> simp [h]

theorem prev_pushRight (ha : a < l.nodes.length) : (l.pushRight v).prev a = l.prev a := by
  unfold AlcList.pushRight AlcList.prev
  cases l.tail with
  | none => rw [List.getElem?_append_left ha]
  | some t =>
    rw [List.getElem?_modify, List.getElem?_append_left ha]
    cases l.nodes[a]? with
    | none => rfl
    | some nd => by_cases h : t = a <;> simp [h]

theorem next_pushRight (ha : a < l.nodes.length) (hne : l.tail ≠ some a) :
    (l.pushRight v).next a = l.next a := by
  unfold AlcList.pushRight AlcList.next
  cases ht : l.tail with
  | none => rw [List.getElem?_append_left ha]
  | some t =>
    have hta : t ≠ a := fun h => hne (h ▸ ht)
    rw [List.getElem?_modify, List.getElem?_append_left ha]
    cases l.nodes[a]? with
    | none => rfl
    | some nd => simp [hta]

theorem next_pushRight_tail (ha : a < l.nodes.length) (ht : l.tail = some a) :
    (l.pushRight v).next a = some (some l.nodes.length) := by
  unfold AlcList.pushRight AlcList.next
  simp only [ht, List.getElem?_modify, List.getElem?_append_left ha, List.getElem?_eq_getElem ha]
  simp

/-- The new node. -/
theorem new_pushRight (ht : ∀ t, l.tail = some t → t < l.nodes.length) :
    (l.pushRight v).val l.nodes.length = some v ∧
      (l.pushRight v).prev l.nodes.length = some l.tail ∧
        (l.pushRight v).next l.nodes.length = some none := by
  unfold AlcList.pushRight AlcList.val AlcList.prev AlcList.next
  cases htail : l.tail with
  | none => simp
  | some t =>
    have hne : t ≠ l.nodes.length := (ht t htail).ne
    simp [hne]

/-- **A push at the end**. -/
theorem Linked.pushRight (h : l.Linked xs) (v : Bytes) : (l.pushRight v).Linked (xs ++ [v]) := by
  obtain ⟨⟨as, hlinked, hvals⟩, hlen⟩ := h
  have hlt {a : ℕ} (ha : a ∈ as) := lt_of_cells hvals ha
  have htail : ∀ t, l.tail = some t → t ∈ as := fun t ht => by
    have hback := hlinked.backward.head_eq.symm.trans ht
    exact List.mem_reverse.1 (List.mem_of_head? hback)
  obtain ⟨hval, hprev, hnext⟩ := new_pushRight (v := v) fun t ht => hlt (htail t ht)
  have hpush := hlinked.push (fun hn => (hlt hn).ne rfl) hnext hprev
    (fun t ht => next_pushRight_tail (hlt (htail t ht)) ht)
    (fun a ha hne => next_pushRight (hlt ha) hne) fun a ha => prev_pushRight (hlt ha)
  refine ⟨⟨as ++ [l.nodes.length], ?_, ?_⟩, ?_⟩
  · have hhead : (l.pushRight v).head = l.head.or (some l.nodes.length) := by
      unfold AlcList.pushRight
      cases ht : l.tail with
      | none =>
        have hnil : as = [] := by
          have hempty := hlinked.backward.head_eq
          rw [ht] at hempty
          exact List.reverse_eq_nil_iff.1 (List.head?_eq_none_iff.1 hempty.symm)
        rw [hlinked.forward.head_eq, hnil]
        rfl
      | some t =>
        rw [hlinked.forward.head_eq]
        cases has : as with
        | nil =>
          have hmem := htail t ht
          rw [has] at hmem
          cases hmem
        | cons a as => rfl
    have htail' : (l.pushRight v).tail = some l.nodes.length := by
      unfold AlcList.pushRight
      cases l.tail <;> rfl
    rw [hhead, htail']
    exact hpush
  · rw [List.map_append, List.map_append, ← hvals, List.map_singleton, hval]
    congr 1
    exact List.map_congr_left fun a ha => val_pushRight (hlt ha)
  · have hlen' : (l.pushRight v).len = l.len + 1 := by
      unfold AlcList.pushRight
      cases l.tail <;> rfl
    rw [hlen', hlen, List.length_append]
    rfl

/-! ### The list the other way round -/

/-- A node with its pointers exchanged. -/
def flipNode (nd : ListNode) : ListNode := ⟨nd.val, nd.next, nd.prev⟩

/-- The list with the pointers of every node exchanged, and its ends. -/
def flip (l : AlcList) : AlcList where
  nodes := l.nodes.map flipNode
  head := l.tail
  tail := l.head
  len := l.len

theorem next_flip (l : AlcList) : l.flip.next = l.prev := by
  funext a
  rw [AlcList.next, flip, List.getElem?_map, Option.map_map]
  rfl

theorem prev_flip (l : AlcList) : l.flip.prev = l.next := by
  funext a
  rw [AlcList.prev, flip, List.getElem?_map, Option.map_map]
  rfl

theorem val_flip (l : AlcList) : l.flip.val = l.val := by
  funext a
  rw [AlcList.val, flip, List.getElem?_map, Option.map_map]
  rfl

theorem Linked.flip (h : l.Linked xs) : l.flip.Linked xs.reverse := by
  obtain ⟨⟨as, hlinked, hvals⟩, hlen⟩ := h
  refine ⟨⟨as.reverse, ?_, ?_⟩, hlen.trans List.length_reverse.symm⟩
  · rw [next_flip, prev_flip]
    exact hlinked.symm
  · rw [val_flip, List.map_reverse, List.map_reverse, hvals]

theorem map_modify {α β : Type} {f : α → β} {g : α → α} {g' : β → β} (h : ∀ a, f (g a) = g' (f a))
    (xs : List α) (i : ℕ) : (xs.modify i g).map f = (xs.map f).modify i g' := by
  refine List.ext_getElem? fun j => ?_
  rw [List.getElem?_map, List.getElem?_modify, List.getElem?_modify, List.getElem?_map]
  cases xs[j]? with
  | none => rfl
  | some a => by_cases hij : i = j <;> simp [hij, h]

/-- A push at the front is one at the end of the flipped list. -/
theorem pushLeft_eq (l : AlcList) (v : Bytes) : l.pushLeft v = (l.flip.pushRight v).flip := by
  have hflip (nodes : List ListNode) : (nodes.map flipNode).map flipNode = nodes := by
    rw [List.map_map]
    exact List.map_id nodes
  have hmodify (nodes : List ListNode) (n i : ℕ) :
      (nodes.modify i fun nd => { nd with next := some n }).map flipNode =
        (nodes.map flipNode).modify i fun nd => { nd with prev := some n } := by
    apply map_modify
    exact fun _ => rfl
  unfold AlcList.pushLeft AlcList.pushRight AlcList.flip
  cases hhead : l.head with
  | none => simp only [List.map_append, hflip, List.length_map]; rfl
  | some h => simp only [hmodify, List.map_append, hflip, List.length_map]; rfl

/-- **A push at the front.** -/
theorem Linked.pushLeft (h : l.Linked xs) (v : Bytes) : (l.pushLeft v).Linked (v :: xs) := by
  have hpush := (h.flip.pushRight v).flip
  rw [List.reverse_append, List.reverse_reverse] at hpush
  rw [pushLeft_eq]
  exact hpush

/-! ## Walks -/

/-- A copy has the values up to the node at which it stops. -/
theorem Linked.copyFrom {dst : AlcList} {ys vs : List Bytes} {as : List ℕ} {p : Option ℕ} {fuel : ℕ}
    (hdst : dst.Linked ys) (stop : ℕ → Bool) (hseg : Seg l.next p as none)
    (hvals : as.map l.val = vs.map some) (hfuel : as.length ≤ fuel) :
    ∃ dst', l.copyFrom stop fuel p dst = some dst' ∧
      dst'.Linked (ys ++ vs.take (as.takeWhile fun a => !stop a).length) := by
  induction as generalizing p fuel dst ys vs with
  | nil =>
    obtain rfl : p = none := hseg
    refine ⟨dst, by cases fuel <;> rfl, ?_⟩
    simpa using hdst
  | cons a as ih =>
    obtain ⟨rfl, r, hr, hrest⟩ := hseg
    cases fuel with
    | zero => cases hfuel
    | succ fuel =>
      cases vs with
      | nil => cases hvals
      | cons v vs =>
        obtain ⟨hv, hvals⟩ := List.cons.inj hvals
        rw [AlcList.copyFrom]
        cases hstop : stop a with
        | true =>
          refine ⟨dst, if_pos rfl, ?_⟩
          simpa [hstop] using hdst
        | false =>
          obtain ⟨dst', hdst', hlinked⟩ := ih (hdst.pushRight v) hrest hvals
            (Nat.le_of_succ_le_succ hfuel)
          refine ⟨dst', ?_, ?_⟩
          · rw [if_neg Bool.false_ne_true, hv, hr]
            exact hdst'
          · simpa [hstop] using hlinked

theorem length_cells_le {as : List ℕ} (hnodup : as.Nodup) (hvals : as.map l.val = xs.map some) :
    as.length ≤ l.nodes.length := by
  have hsub : as.Subperm (List.range l.nodes.length) :=
    hnodup.subperm fun a ha => List.mem_range.2 (lt_of_cells hvals ha)
  simpa using hsub.length_le

/-- **A clone has the same values.** -/
theorem Linked.clone (h : l.Linked xs) : ∃ l', l.respListClone = some l' ∧ l'.Linked xs := by
  obtain ⟨⟨as, hlinked, hvals⟩, -⟩ := h
  obtain ⟨l', hl', hcopy⟩ := Linked.empty.copyFrom (fun _ => false) hlinked.forward hvals
    (length_cells_le hlinked.nodup hvals)
  refine ⟨l', hl', ?_⟩
  have hlen : as.length = xs.length := by simpa using congrArg List.length hvals
  have hall : (as.takeWhile fun _ => !false) = as := List.takeWhile_eq_self_iff.2 fun _ _ => rfl
  rw [hall, hlen, List.take_length] at hcopy
  exact hcopy

/-- Some steps from the head. -/
theorem Linked.walk (h : l.Linked xs) {n : ℕ} (hn : n ≤ xs.length) : ∃ p as,
    advance l.next n l.head = some p ∧ Seg l.next p as none ∧ as.map l.val = (xs.drop n).map some := by
  obtain ⟨⟨as, hlinked, hvals⟩, -⟩ := h
  have hlen : as.length = xs.length := by simpa using congrArg List.length hvals
  obtain ⟨p, hp, hseg⟩ := hlinked.forward.advance (n := n) (by omega)
  exact ⟨p, as.drop n, hp, hseg, by rw [List.map_drop, hvals, List.map_drop]⟩

/-- **The node at an index, from the head.** -/
theorem Linked.forward_at (h : l.Linked xs) {n : ℕ} (hn : n < xs.length) :
    ∃ a, advance l.next n l.head = some (some a) ∧ l.val a = xs[n]? := by
  obtain ⟨p, as, hp, hseg, hvals⟩ := h.walk hn.le
  rw [List.drop_eq_getElem_cons hn] at hvals
  cases as with
  | nil => cases hvals
  | cons a as =>
    obtain ⟨rfl, -⟩ := hseg
    exact ⟨a, hp, (List.cons.inj hvals).1.trans (List.getElem?_eq_getElem hn).symm⟩

/-- **The node at an index, from the tail.** -/
theorem Linked.backward_at (h : l.Linked xs) {n : ℕ} (hn : n < xs.length) :
    ∃ a, advance l.prev (xs.length - 1 - n) l.tail = some (some a) ∧ l.val a = xs[n]? := by
  have hlt : xs.length - 1 - n < xs.reverse.length := by
    rw [List.length_reverse]
    omega
  obtain ⟨a, ha, hval⟩ := h.flip.forward_at hlt
  rw [next_flip] at ha
  rw [val_flip, List.getElem?_reverse (by omega),
    show xs.length - 1 - (xs.length - 1 - n) = n by omega] at hval
  exact ⟨a, ha, hval⟩

/-- The values of a segment. -/
theorem readVals_seg {p : Option ℕ} {as : List ℕ} {vs : List Bytes} (hseg : Seg l.next p as none)
    (hvals : as.map l.val = vs.map some) {n : ℕ} (hn : n ≤ vs.length) :
    l.readVals n p = some (vs.take n) := by
  induction n generalizing p as vs with
  | zero => rfl
  | succ n ih =>
    cases vs with
    | nil => cases hn
    | cons v vs =>
      cases as with
      | nil => cases hvals
      | cons a as =>
        obtain ⟨rfl, r, hr, hrest⟩ := hseg
        obtain ⟨hv, hvals⟩ := List.cons.inj hvals
        have hih := ih hrest hvals (Nat.le_of_succ_le_succ hn)
        simp [AlcList.readVals, hv, hr, hih]

end AlcList

end Alcove.Resp
