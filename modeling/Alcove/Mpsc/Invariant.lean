import Mathlib.Data.List.ReduceOption
import Alcove.Lib.GappedChain
import Alcove.Mpsc.Machine

/-!
# The queue: the invariant

The nodes from `tail` to `head` form a list whose links may be in flight (`GappedChain`). The nodes
returned so far, followed by the list without the stub, are the nodes exchanged into `head`, in
order (`Inv.fifo`); every step keeps this (`Inv.step`).
-/

namespace Alcove.Mpsc

open Lib

variable {s s' : State} {l : List Ptr} {t n : ℕ}

/-- The node in the hands of a producer. -/
def Producer.node : Producer → Option ℕ
  | .idle => none
  | .clear n | .exchange n | .link _ n => some n

/-- The node that a producer has not put into the queue yet. -/
def Producer.pending : Producer → Option ℕ
  | .clear n | .exchange n => some n
  | _ => none

/-- The link from `a` to `b` is still to be stored. -/
def Linking (producers : ℕ → Producer) (consumer : Consumer) (a b : Ptr) : Prop :=
  (∃ t n, producers t = .link a n ∧ b = .node n) ∨ consumer = .stubLink a ∧ b = .stub

/-- What the consumer relies on. -/
def Consumer.Ok (s : State) (l : List Ptr) : Consumer → Prop
  | .idle | .loadNext => True
  | .skipNext | .loadHead | .stubLink _ | .lastNext => s.tail ≠ .stub
  | .stubClear => s.tail ≠ .stub ∧ .stub ∉ l
  | .stubExchange => s.tail ≠ .stub ∧ .stub ∉ l ∧ s.next .stub = none

/-- The nodes of the list. -/
def users (l : List Ptr) : List Ptr := l.filter (· ≠ .stub)

/-- What holds of one producer. -/
structure Producer.Ok (next : Ptr → Option Ptr) (busy : ℕ → Bool) (l : List Ptr) (p : Producer) :
    Prop where
  busy : ∀ n, p.node = some n → busy n = true
  outside : ∀ n, p.pending = some n → .node n ∉ l
  cleared : ∀ n, p = .exchange n → next (.node n) = none

/-- The list `l` of the queue, with what has gone into it and come out. -/
structure Inv (s : State) (l : List Ptr) : Prop where
  chain : GappedChain s.next (Linking s.producers s.consumer) s.tail s.head l
  producers : ∀ t, (s.producers t).Ok s.next s.busy l
  distinct : ∀ t t' n, (s.producers t).node = some n → (s.producers t').node = some n → t = t'
  listed : ∀ n, .node n ∈ l → s.busy n = true
  consumer : s.consumer.Ok s l
  fifo : s.exchanges.map (fun e => Ptr.node e.2) = s.returned.reduceOption ++ users l
  order : ∀ t, (s.exchanges.filter fun e => e.1 = t).map Prod.snd ++
    (s.producers t).pending.toList = s.calls t

theorem inv_init : Inv State.init [.stub] where
  chain := by
    refine GappedChain.singleton rfl ?_
    rintro a b (⟨t, n, h, -⟩ | ⟨h, -⟩) <;> cases h
  producers := by
    intro t
    constructor <;> intro n h <;> cases h
  distinct := by
    intro t t' n h
    cases h
  listed := by
    intro n h
    cases List.mem_singleton.mp h
  consumer := trivial
  fifo := rfl
  order := fun _ => rfl

theorem forall_producers {P : ℕ → Producer → Prop} {p : Producer} (hp : P t p)
    (h : ∀ t' ≠ t, P t' (s.producers t')) (t' : ℕ) :
    P t' (Function.update s.producers t p t') := by
  by_cases heq : t' = t
  · subst heq
    rw [Function.update_self]
    exact hp
  · rw [Function.update_of_ne heq]
    exact h t' heq

theorem Consumer.Ok.congr {c : Consumer} (h : c.Ok s l) (htail : s'.tail = s.tail)
    (hstub : .stub ∉ l → s.next .stub = none → s'.next .stub = none) : c.Ok s' l := by
  cases c with
  | idle | loadNext => trivial
  | skipNext | loadHead | stubLink _ | lastNext | stubClear => simpa only [Ok, htail] using h
  | stubExchange =>
    obtain ⟨ht, hl, hn⟩ := h
    exact ⟨htail ▸ ht, hl, hstub hl hn⟩

/-- A producer that has no link to store moves on. -/
theorem linking_update {producers : ℕ → Producer} {c : Consumer} {p : Producer}
    (hold : ∀ a n, producers t ≠ .link a n) (a b : Ptr) :
    Linking (Function.update producers t p) c a b ↔
      Linking producers c a b ∨ ∃ n, p = .link a n ∧ b = .node n := by
  unfold Linking
  rw [or_right_comm]
  refine or_congr_left ⟨?_, ?_⟩
  · rintro ⟨t', n, hlink, hb⟩
    by_cases heq : t' = t
    · subst heq
      rw [Function.update_self] at hlink
      exact .inr ⟨n, hlink, hb⟩
    · rw [Function.update_of_ne heq] at hlink
      exact .inl ⟨t', n, hlink, hb⟩
  · rintro (⟨t', n, hlink, hb⟩ | ⟨n, hlink, hb⟩)
    · have heq : t' ≠ t := by
        rintro rfl
        exact hold a n hlink
      exact ⟨t', n, by rw [Function.update_of_ne heq, hlink], hb⟩
    · exact ⟨t, n, by rw [Function.update_self, hlink], hb⟩

namespace Inv

/-! ## The producers -/

theorem distinct_update (h : Inv s l) {p : Producer}
    (hp : ∀ n, p.node = some n → ∀ t' ≠ t, (s.producers t').node ≠ some n) (t₁ t₂ n : ℕ)
    (h₁ : (Function.update s.producers t p t₁).node = some n)
    (h₂ : (Function.update s.producers t p t₂).node = some n) : t₁ = t₂ := by
  by_cases he₁ : t₁ = t <;> by_cases he₂ : t₂ = t
  · omega
  · rw [he₁, Function.update_self] at h₁
    rw [Function.update_of_ne he₂] at h₂
    exact absurd h₂ (hp n h₁ t₂ he₂)
  · rw [he₂, Function.update_self] at h₂
    rw [Function.update_of_ne he₁] at h₁
    exact absurd h₁ (hp n h₂ t₁ he₁)
  · rw [Function.update_of_ne he₁] at h₁
    rw [Function.update_of_ne he₂] at h₂
    exact h.distinct t₁ t₂ n h₁ h₂

/-- A producer that keeps its node. -/
theorem distinct_keep (h : Inv s l) {p : Producer}
    (hp : ∀ n, p.node = some n → (s.producers t).node = some n) (t₁ t₂ n : ℕ)
    (h₁ : (Function.update s.producers t p t₁).node = some n)
    (h₂ : (Function.update s.producers t p t₂).node = some n) : t₁ = t₂ :=
  h.distinct_update (fun m hm t' hne hm' => hne (h.distinct t' t m hm' (hp m hm))) t₁ t₂ n h₁ h₂

/-- The call of `mpsc_enqueue`. -/
theorem enqueue (h : Inv s l) (hidle : s.producers t = .idle) (hfree : s.busy n = false) :
    Inv { s with
      producers := Function.update s.producers t (.clear n)
      busy := Function.update s.busy n true
      calls := Function.update s.calls t (s.calls t ++ [n]) } l := by
  have hbusy : ∀ m, s.busy m = true → Function.update s.busy n true m = true := by
    intro m hm
    rw [Function.update_apply]
    split
    · rfl
    · exact hm
  have hnew : ∀ t' ≠ t, (s.producers t').node ≠ some n := by
    intro t' _ hn
    rw [(h.producers t').busy n hn] at hfree
    cases hfree
  have hout : .node n ∉ l := by
    intro hl
    rw [h.listed n hl] at hfree
    cases hfree
  refine ⟨h.chain.congr fun a b => ?_, ?_, h.distinct_update ?_, fun m hm => hbusy m (h.listed m hm),
    h.consumer.congr rfl fun _ hn => hn, h.fifo, fun t' => ?_⟩
  · rw [linking_update (by simp [hidle])]
    simp
  · refine forall_producers (P := fun _ p => p.Ok s.next (Function.update s.busy n true) l) ?_
      fun t' _ => ⟨fun m hm => hbusy m ((h.producers t').busy m hm), (h.producers t').outside,
        (h.producers t').cleared⟩
    refine ⟨fun m hm => ?_, fun m hm => ?_, fun m hm => ?_⟩
    · obtain rfl := Option.some.inj hm
      exact Function.update_self _ _ _
    · obtain rfl := Option.some.inj hm
      exact hout
    · cases hm
  · intro m hm
    obtain rfl := Option.some.inj hm
    exact hnew
  · show _ ++ (Function.update s.producers t (.clear n) t').pending.toList =
      Function.update s.calls t (s.calls t ++ [n]) t'
    have horder := h.order t'
    by_cases heq : t' = t
    · subst heq
      rw [hidle] at horder
      rw [Function.update_self, Function.update_self, ← horder]
      simp [Producer.pending]
    · rw [Function.update_of_ne heq, Function.update_of_ne heq]
      exact horder

/-- The store of `NULL` into the node. -/
theorem clear (h : Inv s l) (hp : s.producers t = .clear n) :
    Inv { s with
      next := Function.update s.next (.node n) none
      producers := Function.update s.producers t (.exchange n) } l := by
  have hout : .node n ∉ l := (h.producers t).outside n (by rw [hp]; rfl)
  refine ⟨(h.chain.clear hout).congr fun a b => ?_, ?_, h.distinct_keep ?_, h.listed,
    h.consumer.congr rfl fun _ hn => ?_, h.fifo, fun t' => ?_⟩
  · rw [linking_update (by simp [hp])]
    simp
  · refine forall_producers
      (P := fun _ p => p.Ok (Function.update s.next (.node n) none) s.busy l) ?_ fun t' _ => ?_
    · refine ⟨fun m hm => ?_, fun m hm => ?_, fun m hm => ?_⟩
      · exact (h.producers t).busy m (by rw [hp]; exact hm)
      · obtain rfl := Option.some.inj hm
        exact hout
      · obtain rfl := Producer.exchange.inj hm
        exact Function.update_self _ _ _
    · refine ⟨(h.producers t').busy, (h.producers t').outside, fun m hm => ?_⟩
      rw [Function.update_apply]
      split
      · rfl
      · exact (h.producers t').cleared m hm
  · intro m hm
    rw [hp]
    exact hm
  · show Function.update s.next (.node n) none .stub = none
    rw [Function.update_of_ne (by simp)]
    exact hn
  · have horder := h.order t'
    show _ ++ (Function.update s.producers t (.exchange n) t').pending.toList = _
    by_cases heq : t' = t
    · subst heq
      rw [hp] at horder
      rw [Function.update_self]
      exact horder
    · rw [Function.update_of_ne heq]
      exact horder

/-- The exchange of `head`: the node is in the queue. -/
theorem exchange (h : Inv s l) (hp : s.producers t = .exchange n) :
    Inv { s with
      head := .node n
      producers := Function.update s.producers t (.link s.head n)
      exchanges := s.exchanges ++ [(t, n)] } (l ++ [.node n]) := by
  have hout : .node n ∉ l := (h.producers t).outside n (by rw [hp]; rfl)
  have hnode : (s.producers t).node = some n := by rw [hp]; rfl
  refine ⟨h.chain.append hout ((h.producers t).cleared n hp) fun a b => ?_, ?_, h.distinct_keep ?_,
    fun m hm => ?_, ?_, ?_, fun t' => ?_⟩
  · rw [linking_update (by simp [hp])]
    refine or_congr_right ⟨?_, ?_⟩
    · rintro ⟨m, hm, hb⟩
      obtain ⟨rfl, rfl⟩ := Producer.link.inj hm
      exact ⟨rfl, hb⟩
    · rintro ⟨rfl, hb⟩
      exact ⟨n, rfl, hb⟩
  · refine forall_producers (P := fun _ p => p.Ok s.next s.busy (l ++ [.node n])) ?_
      fun t' hne => ?_
    · refine ⟨fun m hm => ?_, fun m hm => ?_, fun m hm => ?_⟩
      · exact (h.producers t).busy m (hnode.trans hm)
      · cases hm
      · cases hm
    · refine ⟨(h.producers t').busy, fun m hm hl => ?_, (h.producers t').cleared⟩
      rcases List.mem_append.mp hl with hl | hl
      · exact (h.producers t').outside m hm hl
      · obtain rfl := Ptr.node.inj (List.mem_singleton.mp hl)
        refine hne (h.distinct t' t m ?_ hnode)
        cases hq : s.producers t' <;> rw [hq] at hm <;> first | exact hm | cases hm
  · intro m hm
    exact hnode.trans hm
  · rcases List.mem_append.mp hm with hm | hm
    · exact h.listed m hm
    · obtain rfl := Ptr.node.inj (List.mem_singleton.mp hm)
      exact (h.producers t).busy m hnode
  · have hconsumer := h.consumer
    show s.consumer.Ok _ _
    cases hc : s.consumer with
    | idle | loadNext => trivial
    | skipNext | loadHead | stubLink _ | lastNext =>
      rw [hc] at hconsumer
      exact hconsumer
    | stubClear | stubExchange =>
      rw [hc] at hconsumer
      simpa [Consumer.Ok] using hconsumer
  · show (s.exchanges ++ [(t, n)]).map (fun e => Ptr.node e.2) = _
    rw [List.map_append, h.fifo, List.append_assoc]
    simp [users]
  · have horder := h.order t'
    show ((s.exchanges ++ [(t, n)]).filter _).map Prod.snd ++
      (Function.update s.producers t (.link s.head n) t').pending.toList = _
    by_cases heq : t' = t
    · subst heq
      rw [hp] at horder
      rw [Function.update_self, ← horder]
      simp [Producer.pending]
    · rw [Function.update_of_ne heq, ← horder]
      simp [Ne.symm heq]

/-- Once a producer has stored its link, no link from the same element is pending. -/
theorem linking_idle (h : Inv s l) {prev : Ptr} (hp : s.producers t = .link prev n) (a b : Ptr) :
    Linking (Function.update s.producers t .idle) s.consumer a b ↔
      Linking s.producers s.consumer a b ∧ a ≠ prev := by
  have hadj := (h.chain.gap prev _ (.inl ⟨t, n, hp, rfl⟩)).1
  constructor
  · intro hab
    have hold : Linking s.producers s.consumer a b := by
      rcases hab with ⟨t', m, hm, hb⟩ | hab
      · by_cases heq : t' = t
        · subst heq
          rw [Function.update_self] at hm
          cases hm
        · rw [Function.update_of_ne heq] at hm
          exact .inl ⟨t', m, hm, hb⟩
      · exact .inr hab
    refine ⟨hold, ?_⟩
    rintro rfl
    have hsame := Adjacent.unique_right h.chain.nodup (h.chain.gap a b hold).1 hadj
    rcases hab with ⟨t', m, hm, hb⟩ | ⟨-, hb⟩
    · obtain rfl := Ptr.node.inj (hb.symm.trans hsame)
      have heq : t' ≠ t := by
        rintro rfl
        rw [Function.update_self] at hm
        cases hm
      rw [Function.update_of_ne heq] at hm
      exact heq (h.distinct t' t m (by rw [hm]; rfl) (by rw [hp]; rfl))
    · cases hb.symm.trans hsame
  · rintro ⟨⟨t', m, hm, hb⟩ | hab, hne⟩
    · refine .inl ⟨t', m, ?_, hb⟩
      rw [Function.update_of_ne, hm]
      rintro rfl
      exact hne (Producer.link.inj (hm.symm.trans hp)).1
    · exact .inr hab

/-- The store of the link. -/
theorem link (h : Inv s l) {prev : Ptr} (hp : s.producers t = .link prev n) :
    Inv { s with
      next := Function.update s.next prev (some (.node n))
      producers := Function.update s.producers t .idle } l := by
  have hlinking : Linking s.producers s.consumer prev (.node n) := .inl ⟨t, n, hp, rfl⟩
  have hadj := (h.chain.gap prev _ hlinking).1
  refine ⟨h.chain.store hlinking fun a b => ?_, ?_, h.distinct_keep ?_, h.listed,
    h.consumer.congr rfl fun hl hn => ?_, h.fifo, fun t' => ?_⟩
  · exact h.linking_idle hp a b
  · refine forall_producers
      (P := fun _ p => p.Ok (Function.update s.next prev (some (.node n))) s.busy l) ?_
      fun t' _ => ?_
    · constructor <;> intro m hm <;> cases hm
    · refine ⟨(h.producers t').busy, (h.producers t').outside, fun m hm => ?_⟩
      rw [Function.update_of_ne]
      · exact (h.producers t').cleared m hm
      · rintro rfl
        exact (h.producers t').outside m (by rw [hm]; rfl) hadj.mem_left
  · intro m hm
    cases hm
  · show Function.update s.next prev (some (.node n)) .stub = none
    rw [Function.update_of_ne]
    · exact hn
    · rintro rfl
      exact hl hadj.mem_left
  · have horder := h.order t'
    show _ ++ (Function.update s.producers t .idle t').pending.toList = _
    by_cases heq : t' = t
    · subst heq
      rw [hp] at horder
      rw [Function.update_self]
      exact horder
    · rw [Function.update_of_ne heq]
      exact horder

/-! ## The consumer -/

theorem linking_consumer {producers : ℕ → Producer} {c c' : Consumer}
    (hc : ∀ a, c ≠ .stubLink a) (hc' : ∀ a, c' ≠ .stubLink a) (a b : Ptr) :
    Linking producers c' a b ↔ Linking producers c a b :=
  or_congr_right ⟨fun h => absurd h.1 (hc' a), fun h => absurd h.1 (hc a)⟩

/-- The consumer moves on. -/
theorem move (h : Inv s l) {c : Consumer} (hold : ∀ a, s.consumer ≠ .stubLink a)
    (hnew : ∀ a, c ≠ .stubLink a) (hok : c.Ok s l) : Inv { s with consumer := c } l where
  chain := h.chain.congr (linking_consumer hold hnew)
  producers := h.producers
  distinct := h.distinct
  listed := h.listed
  consumer := hok.congr rfl fun _ hn => hn
  fifo := h.fifo
  order := h.order

theorem returnNull (h : Inv s l) (hold : ∀ a, s.consumer ≠ .stubLink a) : Inv s.returnNull l where
  chain := h.chain.congr (linking_consumer hold (by simp [State.returnNull]))
  producers := h.producers
  distinct := h.distinct
  listed := h.listed
  consumer := trivial
  fifo := by
    show s.exchanges.map _ = (s.returned ++ [none]).reduceOption ++ _
    rw [List.reduceOption_append, h.fifo]
    simp
  order := h.order

theorem eq_cons (h : Inv s l) : l = s.tail :: l.tail := by
  have hhead := h.chain.head
  cases l with
  | nil => cases hhead
  | cons x l =>
    obtain rfl := Option.some.inj hhead
    rfl

/-- The stub is left behind. -/
theorem skip (h : Inv s l) {x : Ptr} (hold : ∀ a, s.consumer ≠ .stubLink a)
    (htail : s.tail = .stub) (hnext : s.next s.tail = some x) :
    Inv { s with tail := x, consumer := .skipNext } l.tail where
  chain := (h.chain.advance hnext).congr (linking_consumer hold (by simp))
  producers t := ⟨(h.producers t).busy,
    fun n hn hl => (h.producers t).outside n hn (List.mem_of_mem_tail hl), (h.producers t).cleared⟩
  distinct := h.distinct
  listed n hn := h.listed n (List.mem_of_mem_tail hn)
  consumer := by
    show x ≠ .stub
    rw [← htail]
    exact (h.chain.adjacent_of_next hnext).ne_head h.chain.head h.chain.nodup
  fifo := by
    show _ = s.returned.reduceOption ++ users l.tail
    rw [h.fifo, h.eq_cons, htail]
    simp [users]
  order := h.order

/-- The node at `tail` is returned. -/
theorem returnTail (h : Inv s l) {x : Ptr} (hold : ∀ a, s.consumer ≠ .stubLink a)
    (htail : s.tail ≠ .stub) (hnext : s.next s.tail = some x) : Inv (s.returnTail x) l.tail := by
  obtain ⟨n, hn⟩ : ∃ n, s.tail = .node n := by
    cases hs : s.tail with
    | stub => exact absurd hs htail
    | node n => exact ⟨n, rfl⟩
  have hbusy : (s.returnTail x).busy = Function.update s.busy n false := by
    simp only [State.returnTail, hn]
  -- no producer is at work on the node
  have hno : ∀ t, (s.producers t).node ≠ some n := by
    intro t hnode
    cases hp : s.producers t with
    | idle =>
      rw [hp] at hnode
      cases hnode
    | clear m | exchange m =>
      rw [hp] at hnode
      obtain rfl := Option.some.inj hnode
      refine (h.producers t).outside m (by rw [hp]; rfl) ?_
      rw [← hn]
      exact h.chain.first_mem
    | link a m =>
      rw [hp] at hnode
      obtain rfl := Option.some.inj hnode
      have hadj := (h.chain.gap a (.node m) (.inl ⟨t, m, hp, rfl⟩)).1
      exact hadj.ne_head h.chain.head h.chain.nodup hn.symm
  have hcons := h.eq_cons
  have hnodup := h.chain.nodup
  rw [hcons, List.nodup_cons, hn] at hnodup
  refine ⟨(h.chain.advance hnext).congr (linking_consumer hold (by simp [State.returnTail])),
    fun t => ⟨fun m hm => ?_, fun m hm hl => ?_, (h.producers t).cleared⟩, h.distinct,
    fun m hm => ?_, trivial, ?_, h.order⟩
  · rw [hbusy, Function.update_of_ne]
    · exact (h.producers t).busy m hm
    · rintro rfl
      exact hno t hm
  · exact (h.producers t).outside m hm (List.mem_of_mem_tail hl)
  · rw [hbusy, Function.update_of_ne]
    · exact h.listed m (List.mem_of_mem_tail hm)
    · rintro rfl
      exact hnodup.1 hm
  · show s.exchanges.map _ = (s.returned ++ [some s.tail]).reduceOption ++ users l.tail
    rw [List.reduceOption_append, h.fifo, hcons, hn]
    simp [users]

theorem stubClear (h : Inv s l) (hc : s.consumer = .stubClear) :
    Inv { s with next := Function.update s.next .stub none, consumer := .stubExchange } l := by
  obtain ⟨htail, hout⟩ : s.tail ≠ .stub ∧ .stub ∉ l := by
    have hok := h.consumer
    rw [hc] at hok
    exact hok
  refine ⟨(h.chain.clear hout).congr (linking_consumer (by simp [hc]) (by simp)), fun t => ?_,
    h.distinct, h.listed, ⟨htail, hout, ?_⟩, h.fifo, h.order⟩
  · refine ⟨(h.producers t).busy, (h.producers t).outside, fun m hm => ?_⟩
    show Function.update s.next .stub none (.node m) = none
    rw [Function.update_of_ne (by simp)]
    exact (h.producers t).cleared m hm
  · show Function.update s.next .stub none .stub = none
    exact Function.update_self _ _ _

theorem stubExchange (h : Inv s l) (hc : s.consumer = .stubExchange) :
    Inv { s with head := .stub, consumer := .stubLink s.head } (l ++ [.stub]) := by
  obtain ⟨htail, hout, hnone⟩ : s.tail ≠ .stub ∧ .stub ∉ l ∧ s.next .stub = none := by
    have hok := h.consumer
    rw [hc] at hok
    exact hok
  refine ⟨h.chain.append hout hnone fun a b => ?_, fun t => ?_, h.distinct, fun n hn => ?_, htail,
    ?_, h.order⟩
  · unfold Linking
    simp only [hc, Consumer.stubLink.injEq, reduceCtorEq, false_and, or_false]
    rw [eq_comm]
  · refine ⟨(h.producers t).busy, fun m hm hl => ?_, (h.producers t).cleared⟩
    rcases List.mem_append.mp hl with hl | hl
    · exact (h.producers t).outside m hm hl
    · cases List.mem_singleton.mp hl
  · rcases List.mem_append.mp hn with hn | hn
    · exact h.listed n hn
    · cases List.mem_singleton.mp hn
  · show _ = s.returned.reduceOption ++ users (l ++ [.stub])
    rw [h.fifo]
    simp [users]

theorem stubLink (h : Inv s l) {prev : Ptr} (hc : s.consumer = .stubLink prev) :
    Inv { s with
      next := Function.update s.next prev (some .stub), consumer := .lastNext } l := by
  have hlinking : Linking s.producers s.consumer prev .stub := .inr ⟨hc, rfl⟩
  have hadj := (h.chain.gap prev _ hlinking).1
  have htail : s.tail ≠ .stub := by
    have hok := h.consumer
    rw [hc] at hok
    exact hok
  refine ⟨h.chain.store hlinking fun a b => ?_, fun t => ?_, h.distinct, h.listed, htail, h.fifo,
    h.order⟩
  · constructor
    · rintro (⟨t, n, hp, rfl⟩ | ⟨hno, -⟩)
      · refine ⟨.inl ⟨t, n, hp, rfl⟩, ?_⟩
        rintro rfl
        have hnode := (h.chain.gap a _ (.inl ⟨t, n, hp, rfl⟩)).1
        cases Adjacent.unique_right h.chain.nodup hnode hadj
      · cases hno
    · rintro ⟨hp | ⟨ha, -⟩, hne⟩
      · exact .inl hp
      · exact absurd (Consumer.stubLink.inj (ha.symm.trans hc)) hne
  · refine ⟨(h.producers t).busy, (h.producers t).outside, fun m hm => ?_⟩
    show Function.update s.next prev (some .stub) (.node m) = none
    rw [Function.update_of_ne]
    · exact (h.producers t).cleared m hm
    · rintro rfl
      exact (h.producers t).outside m (by rw [show s.producers t = _ from hm]; rfl) hadj.mem_left

/-- A step of the consumer. -/
theorem consume (h : Inv s l) (hs : s.consume = some s') : ∃ l', Inv s' l' := by
  have hok := h.consumer
  unfold State.consume at hs
  cases hc : s.consumer with
  | idle =>
    rw [hc] at hs
    cases hs
  | loadNext =>
    simp only [hc] at hs
    split at hs
    next htail =>
      split at hs
      next =>
        obtain rfl := Option.some.inj hs
        exact ⟨l, h.returnNull (by simp [hc])⟩
      next x hx =>
        obtain rfl := Option.some.inj hs
        exact ⟨_, h.skip (by simp [hc]) htail hx⟩
    next htail =>
      split at hs
      next =>
        obtain rfl := Option.some.inj hs
        exact ⟨l, h.move (by simp [hc]) (by simp) htail⟩
      next x hx =>
        obtain rfl := Option.some.inj hs
        exact ⟨_, h.returnTail (by simp [hc]) htail hx⟩
  | skipNext =>
    rw [hc] at hok
    simp only [hc] at hs
    split at hs
    next =>
      obtain rfl := Option.some.inj hs
      exact ⟨l, h.move (by simp [hc]) (by simp) hok⟩
    next x hx =>
      obtain rfl := Option.some.inj hs
      exact ⟨_, h.returnTail (by simp [hc]) hok hx⟩
  | loadHead =>
    rw [hc] at hok
    simp only [hc] at hs
    split at hs
    next =>
      obtain rfl := Option.some.inj hs
      exact ⟨l, h.returnNull (by simp [hc])⟩
    next heq =>
      obtain rfl := Option.some.inj hs
      -- the list is the tail alone
      have heq' : s.tail = s.head := not_not.mp heq
      have hchain := h.chain
      rw [← heq'] at hchain
      refine ⟨l, h.move (by simp [hc]) (by simp) ⟨hok, ?_⟩⟩
      rw [hchain.eq_singleton, List.mem_singleton]
      exact fun hstub => hok hstub.symm
  | stubClear =>
    simp only [hc] at hs
    obtain rfl := Option.some.inj hs
    exact ⟨l, h.stubClear hc⟩
  | stubExchange =>
    simp only [hc] at hs
    obtain rfl := Option.some.inj hs
    exact ⟨_, h.stubExchange hc⟩
  | stubLink prev =>
    simp only [hc] at hs
    obtain rfl := Option.some.inj hs
    exact ⟨l, h.stubLink hc⟩
  | lastNext =>
    rw [hc] at hok
    simp only [hc] at hs
    split at hs
    next =>
      obtain rfl := Option.some.inj hs
      exact ⟨l, h.returnNull (by simp [hc])⟩
    next x hx =>
      obtain rfl := Option.some.inj hs
      exact ⟨_, h.returnTail (by simp [hc]) hok hx⟩

/-- A step of a producer. -/
theorem produce (h : Inv s l) (hs : s.produce t = some s') : ∃ l', Inv s' l' := by
  unfold State.produce at hs
  cases hp : s.producers t with
  | idle =>
    rw [hp] at hs
    cases hs
  | clear n =>
    simp only [hp] at hs
    obtain rfl := Option.some.inj hs
    exact ⟨l, h.clear hp⟩
  | exchange n =>
    simp only [hp] at hs
    obtain rfl := Option.some.inj hs
    exact ⟨_, h.exchange hp⟩
  | link prev n =>
    simp only [hp] at hs
    obtain rfl := Option.some.inj hs
    exact ⟨l, h.link hp⟩

/-- **Every step keeps the invariant.** -/
theorem step (h : Inv s l) {lab : Label} (hs : s.step lab = some s') : ∃ l', Inv s' l' := by
  cases lab with
  | enqueue t n =>
    simp only [State.step] at hs
    split at hs
    next hfree =>
      obtain rfl := Option.some.inj hs
      exact ⟨l, h.enqueue hfree.1 hfree.2⟩
    next => cases hs
  | produce t => exact h.produce hs
  | dequeue =>
    simp only [State.step] at hs
    split at hs
    next hidle =>
      obtain rfl := Option.some.inj hs
      exact ⟨l, h.move (by simp [hidle]) (by simp) trivial⟩
    next => cases hs
  | consume => exact h.consume hs

end Inv

end Alcove.Mpsc
