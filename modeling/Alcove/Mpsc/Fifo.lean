import Alcove.Mpsc.Invariant

/-!
# The queue is first in, first out

What `mpsc_dequeue` has returned is what the producers have exchanged into `head`, in order, and
once the producers are done a consumer that keeps calling `mpsc_dequeue` gets the nodes that are
left and then `NULL` for ever (`dequeue_fifo`).
-/

namespace Alcove.Mpsc

open Lib

variable {s s' : State} {l : List Ptr}

/-! ## A consumer by itself -/

/-- What the consumer has learnt, when no producer is at work. -/
def Consumer.Settled (s : State) : Consumer → Prop
  | .idle | .loadNext | .skipNext => True
  | .loadHead => s.next s.tail = none
  | .stubClear | .stubExchange => s.tail = s.head
  | .stubLink prev => prev = s.tail
  | .lastNext => s.next s.tail ≠ none

/-- No producer is at work, and the consumer's call has started since. -/
structure Quiet (s : State) (l : List Ptr) : Prop where
  inv : Inv s l
  producers : ∀ t, s.producers t = .idle
  settled : s.consumer.Settled s

/-- An upper bound on the steps that are left in the call of `mpsc_dequeue`. -/
def Consumer.todo : Consumer → ℕ
  | .idle => 0
  | .loadNext => 7
  | .skipNext => 6
  | .loadHead => 5
  | .stubClear => 4
  | .stubExchange => 3
  | .stubLink _ => 2
  | .lastNext => 1

/-- The consumer never waits, and its call ends. -/
theorem consume_todo (h : s.consumer ≠ .idle) :
    ∃ s', s.step .consume = some s' ∧ s'.consumer.todo < s.consumer.todo := by
  show ∃ s', s.consume = some s' ∧ _
  unfold State.consume
  cases hc : s.consumer with
  | idle => exact absurd hc h
  | loadNext =>
    dsimp only
    split <;> split <;>
      exact ⟨_, rfl, by simp [Consumer.todo, State.returnNull, State.returnTail]⟩
  | skipNext | lastNext | loadHead =>
    dsimp only
    split <;> exact ⟨_, rfl, by simp [Consumer.todo, State.returnNull, State.returnTail]⟩
  | stubClear | stubExchange | stubLink prev => exact ⟨_, rfl, by simp [Consumer.todo]⟩

namespace Quiet

theorem not_linking (h : Quiet s l) (hc : ∀ a, s.consumer ≠ .stubLink a) (a b : Ptr) :
    ¬ Linking s.producers s.consumer a b := by
  rintro (⟨t, n, hp, -⟩ | ⟨hstub, -⟩)
  · rw [h.producers t] at hp
    cases hp
  · exact hc a hstub

/-- Without a link in flight, a `tail` that is linked to nothing is the `head`. -/
theorem tail_eq_head (h : Quiet s l) (hc : ∀ a, s.consumer ≠ .stubLink a)
    (hnext : s.next s.tail = none) : s.tail = s.head :=
  (h.inv.chain.next_none hnext).resolve_right fun ⟨x, hx⟩ => h.not_linking hc s.tail x hx

theorem users_of_tail (h : Quiet s l) (htail : s.tail ≠ .stub) :
    (users l).head? = some s.tail := by
  rw [h.inv.eq_cons]
  simp [users, htail]

/-- The call returns the first node of the list, if there is one. -/
def Answers (s s' : State) (l : List Ptr) : Prop :=
  s'.consumer ≠ .idle ∧ s'.returned = s.returned ∨
    s'.consumer = .idle ∧ s'.returned = s.returned ++ [(users l).head?]

theorem answers_tail (h : Quiet s l) (htail : s.tail ≠ .stub) (x : Ptr) :
    Answers s (s.returnTail x) l :=
  .inr ⟨rfl, by rw [h.users_of_tail htail]; rfl⟩

/-- **A step of a consumer by itself.** -/
theorem consume (h : Quiet s l) (hs : s.consume = some s') :
    s'.producers = s.producers ∧ s'.exchanges = s.exchanges ∧ s'.consumer.Settled s' ∧
      Answers s s' l := by
  have hok := h.inv.consumer
  have hsettled := h.settled
  unfold State.consume at hs
  cases hc : s.consumer with
  | idle =>
    rw [hc] at hs
    cases hs
  | loadNext =>
    simp only [hc] at hs
    split at hs
    next htail =>
      split at hs
      next hnext =>
        obtain rfl := Option.some.inj hs
        -- the stub is alone in the list
        have heq := h.tail_eq_head (by simp [hc]) hnext
        have hchain := h.inv.chain
        rw [← heq] at hchain
        refine ⟨rfl, rfl, trivial, .inr ⟨rfl, ?_⟩⟩
        rw [hchain.eq_singleton, htail]
        rfl
      next x hx =>
        obtain rfl := Option.some.inj hs
        exact ⟨rfl, rfl, trivial, .inl ⟨by simp, rfl⟩⟩
    next htail =>
      split at hs
      next hnext =>
        obtain rfl := Option.some.inj hs
        exact ⟨rfl, rfl, hnext, .inl ⟨by simp, rfl⟩⟩
      next x hx =>
        obtain rfl := Option.some.inj hs
        exact ⟨rfl, rfl, trivial, h.answers_tail htail x⟩
  | skipNext =>
    rw [hc] at hok
    simp only [hc] at hs
    split at hs
    next hnext =>
      obtain rfl := Option.some.inj hs
      exact ⟨rfl, rfl, hnext, .inl ⟨by simp, rfl⟩⟩
    next x hx =>
      obtain rfl := Option.some.inj hs
      exact ⟨rfl, rfl, trivial, h.answers_tail hok x⟩
  | loadHead =>
    rw [hc] at hsettled
    have heq := h.tail_eq_head (by simp [hc]) hsettled
    simp only [hc] at hs
    rw [if_neg (not_not.mpr heq)] at hs
    obtain rfl := Option.some.inj hs
    exact ⟨rfl, rfl, heq, .inl ⟨by simp, rfl⟩⟩
  | stubClear =>
    rw [hc] at hsettled
    simp only [hc] at hs
    obtain rfl := Option.some.inj hs
    exact ⟨rfl, rfl, hsettled, .inl ⟨by simp, rfl⟩⟩
  | stubExchange =>
    rw [hc] at hsettled
    simp only [hc] at hs
    obtain rfl := Option.some.inj hs
    exact ⟨rfl, rfl, hsettled.symm, .inl ⟨by simp, rfl⟩⟩
  | stubLink prev =>
    rw [hc] at hsettled
    simp only [hc] at hs
    obtain rfl := Option.some.inj hs
    refine ⟨rfl, rfl, ?_, .inl ⟨by simp, rfl⟩⟩
    show Function.update s.next prev (some .stub) s.tail ≠ none
    rw [show prev = s.tail from hsettled, Function.update_self]
    simp
  | lastNext =>
    rw [hc] at hok hsettled
    simp only [hc] at hs
    split at hs
    next hnext => exact absurd hnext hsettled
    next x hx =>
      obtain rfl := Option.some.inj hs
      exact ⟨rfl, rfl, trivial, h.answers_tail hok x⟩

/-- A step of the consumer leads to a quiet state; the list that is left follows from the nodes
returned. -/
theorem step (h : Quiet s l) (hs : s.consume = some s') :
    ∃ l', Quiet s' l' ∧
      (s'.consumer ≠ .idle ∧ s'.returned = s.returned ∧ users l' = users l ∨
        s'.consumer = .idle ∧ s'.returned = s.returned ++ [(users l).head?] ∧
          users l' = (users l).tail) := by
  obtain ⟨l', hinv⟩ := h.inv.consume hs
  obtain ⟨hproducers, hexchanges, hsettled, hanswers⟩ := h.consume hs
  refine ⟨l', ⟨hinv, by rw [hproducers]; exact h.producers, hsettled⟩, ?_⟩
  have hfifo := hinv.fifo
  rw [hexchanges, h.inv.fifo] at hfifo
  rcases hanswers with ⟨hidle, hret⟩ | ⟨hidle, hret⟩
  · rw [hret] at hfifo
    exact .inl ⟨hidle, hret, (List.append_cancel_left hfifo).symm⟩
  · refine .inr ⟨hidle, hret, ?_⟩
    rw [hret, List.reduceOption_append, List.append_assoc] at hfifo
    have hrest := List.append_cancel_left hfifo
    cases hu : users l with
    | nil =>
      rw [hu] at hrest
      exact hrest.symm
    | cons x xs =>
      rw [hu] at hrest
      exact (List.cons.inj hrest).2.symm

end Quiet

/-- A step of the consumer. -/
def consumerStep (_ : State) (lab : Label) : Prop := lab = .dequeue ∨ lab = .consume

/-- **The calls of a consumer by itself return the nodes that are left, and then `NULL`.** -/
theorem Quiet.run {labs : List Label} (h : Quiet s l) (hidle : s.consumer = .idle)
    (hp : Path State.step consumerStep s labs s') (hend : s'.consumer = .idle) :
    s'.returned = s.returned ++
      (List.range (labs.count .dequeue)).map fun i => (users l)[i]? := by
  have hgo : ∀ {s₀ labs s₁}, Path State.step consumerStep s₀ labs s₁ → ∀ l₀, Quiet s₀ l₀ →
      s₁.consumer = .idle → s₁.returned = s₀.returned ++
        (List.range (labs.count .dequeue + if s₀.consumer = .idle then 0 else 1)).map
          fun i => (users l₀)[i]? := by
    intro s₀ labs s₁ hp
    induction hp with
    | nil s =>
      intro l₀ _ hend
      simp [hend]
    | @cons s₀ s₁ s₂ lab labs hok hstep rest ih =>
      intro l₀ hq hend
      rcases hok with rfl | rfl
      · -- the call starts
        simp only [State.step] at hstep
        split at hstep
        next hidle =>
          obtain rfl := Option.some.inj hstep
          have hinv := hq.inv.move (c := .loadNext) (by simp [hidle]) (by simp) trivial
          rw [ih l₀ ⟨hinv, hq.producers, trivial⟩ hend]
          simp [hidle]
        next => cases hstep
      · have hbusy : s₀.consumer ≠ .idle := by
          intro hc
          have : s₀.consume = some s₁ := hstep
          simp [State.consume, hc] at this
        obtain ⟨l₁, hq₁, ⟨hc, hret, hu⟩ | ⟨hc, hret, hu⟩⟩ := hq.step hstep
        · rw [ih l₁ hq₁ hend, hret, hu]
          simp [hc, hbusy]
        · -- the call ends with the first node of the list
          rw [ih l₁ hq₁ hend, hret, hu, if_pos hc, if_neg hbusy, List.append_assoc,
            List.range_succ_eq_map]
          simp [List.head?_eq_getElem?, List.getElem?_tail]
  have := hgo hp l h hend
  rwa [if_pos hidle] at this

/-! ## Every run -/

/-- **The queue is first in, first out.** The nodes returned so far are the first `k` that were
exchanged into `head`, and the exchanges of one producer are in the order of its calls. Once no
producer is at work and no call of `mpsc_dequeue` is, the next calls return the other nodes one
after the other, and then `NULL`. A call of `mpsc_dequeue` never waits and ends. -/
theorem dequeue_fifo {labs : List Label} (hp : Path State.step anyStep State.init labs s) :
    ∃ k, s.returned.reduceOption = (s.exchanges.take k).map (fun e => Ptr.node e.2) ∧
      some .stub ∉ s.returned ∧
      (∀ t, ((s.exchanges.take k).filter fun e => e.1 = t).map Prod.snd <+: s.calls t) ∧
      ((∀ t, s.producers t = .idle) → s.consumer = .idle →
        (∀ t, (s.exchanges.filter fun e => e.1 = t).map Prod.snd = s.calls t) ∧
        ∀ labs' s', Path State.step consumerStep s labs' s' → s'.consumer = .idle →
          s'.returned = s.returned ++ (List.range (labs'.count .dequeue)).map
            fun i => ((s.exchanges.drop k)[i]?).map fun e => Ptr.node e.2) ∧
      (s.consumer ≠ .idle →
        ∃ s', s.step .consume = some s' ∧ s'.consumer.todo < s.consumer.todo) := by
  obtain ⟨l, h⟩ : ∃ l, Inv s l :=
    hp.invariant (I := fun s => ∃ l, Inv s l) (fun _ _ _ ⟨_, hi⟩ _ hs => hi.step hs) ⟨_, inv_init⟩
  have htake : s.returned.reduceOption =
      (s.exchanges.take s.returned.reduceOption.length).map (fun e => Ptr.node e.2) := by
    rw [List.map_take, h.fifo, List.take_left]
  have hdrop : users l =
      (s.exchanges.drop s.returned.reduceOption.length).map (fun e => Ptr.node e.2) := by
    rw [List.map_drop, h.fifo, List.drop_left]
  refine ⟨s.returned.reduceOption.length, htake, fun hstub => ?_, fun t => ?_,
    fun hproducers hidle => ⟨fun t => ?_, fun labs' s' hp' hend => ?_⟩, consume_todo⟩
  · have hmem : Ptr.stub ∈ s.returned.reduceOption := List.reduceOption_mem_iff.mpr hstub
    rw [htake] at hmem
    obtain ⟨e, -, he⟩ := List.mem_map.mp hmem
    cases he
  · rw [← h.order t]
    refine List.IsPrefix.trans ?_ (List.prefix_append _ _)
    exact ((List.take_prefix _ _).filter _).map _
  · have horder := h.order t
    rw [hproducers t] at horder
    simpa [Producer.pending] using horder
  · rw [Quiet.run ⟨h, hproducers, by rw [hidle]; trivial⟩ hidle hp' hend, hdrop]
    simp

/-- Two producers, the first of which has exchanged `head` and stores its link late; the consumer
takes one node. -/
theorem dequeue_fifo_two :
    ∃ labs s, run State.step State.init labs = some s ∧ s.returned = [some (.node 7)] ∧
      ∃ k, s.returned.reduceOption = (s.exchanges.take k).map (fun e => Ptr.node e.2) ∧
        ∀ labs' s', Path State.step consumerStep s labs' s' → s'.consumer = .idle →
          s'.returned = s.returned ++ (List.range (labs'.count .dequeue)).map
            fun i => ((s.exchanges.drop k)[i]?).map fun e => Ptr.node e.2 := by
  obtain ⟨s, hrun, hret, hproducers, hidle⟩ : ∃ s, run State.step State.init
      [.enqueue 0 7, .enqueue 1 5, .produce 0, .produce 1, .produce 0, .produce 1, .produce 1,
        .produce 0, .dequeue, .consume, .consume] = some s ∧
      s.returned = [some (.node 7)] ∧ (∀ t, s.producers t = .idle) ∧ s.consumer = .idle := by
    refine ⟨_, rfl, rfl, fun t => ?_, rfl⟩
    simp only [Function.update_apply, State.returnTail, State.init]
    split_ifs <;> rfl
  obtain ⟨k, hk, -, -, hquiet, -⟩ := dequeue_fifo (path_of_run hrun)
  exact ⟨_, s, hrun, hret, k, hk, (hquiet hproducers hidle).2⟩

end Alcove.Mpsc
