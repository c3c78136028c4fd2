import Alcove.Resp.Parser

/-!
# Reads and frames

`resp_process_input` on the live window of the read buffer, and the read side of
`resp_client_handle_events`, which makes room and appends what was read. However the bytes arrive,
the frames dispatched are those of the whole stream (`frames_of_reads`).
-/

namespace Alcove.Resp

open Lib

variable {grow : ℕ → Bool}

/-! ## The window -/

/-- What `resp_process_input` makes of a window: the frames dispatched, what is left of the window,
and whether it ended with `ERR Protocol error`. -/
structure Input where
  dispatched : List (List Bytes)
  window : Bytes
  failed : Bool
  deriving DecidableEq

/-- The loop of `resp_process_input`; a frame is not empty, so that it runs at most once for each
byte of the window. -/
def processLoop (grow : ℕ → Bool) : ℕ → Bytes → Input
  | 0, window => ⟨[], window, false⟩
  | fuel + 1, window =>
    match respParse grow window with
    | .more => ⟨[], window, false⟩
    | .reject => ⟨[], window, true⟩
    | .done argv rest =>
      let input := processLoop grow fuel rest
      { input with dispatched := argv :: input.dispatched }

/-- `resp_process_input` -/
def processInput (grow : ℕ → Bool) (window : Bytes) : Input :=
  processLoop grow (window.length + 1) window

attribute [local simp] processLoop

theorem processLoop_fuel {n m : ℕ} {window : Bytes} (hn : window.length < n)
    (hm : window.length < m) : processLoop grow n window = processLoop grow m window := by
  induction n generalizing m window with
  | zero => omega
  | succ n ih =>
    cases m with
    | zero => omega
    | succ m =>
      simp only [processLoop]
      cases hparse : respParse grow window with
      | more => rfl
      | reject => rfl
      | done argv rest =>
        have hlt := (consumes_respParse grow).lt hparse
        have hrest : processLoop grow n rest = processLoop grow m rest := ih (by omega) (by omega)
        simp only [hrest]

theorem processInput_more {window : Bytes} (h : respParse grow window = .more) :
    processInput grow window = ⟨[], window, false⟩ := by
  simp [processInput, h]

theorem processInput_reject {window : Bytes} (h : respParse grow window = .reject) :
    processInput grow window = ⟨[], window, true⟩ := by
  simp [processInput, h]

/-- The loop goes on behind a frame. -/
theorem processInput_done {window rest : Bytes} {argv : List Bytes}
    (h : respParse grow window = .done argv rest) :
    processInput grow window =
      { processInput grow rest with
        dispatched := argv :: (processInput grow rest).dispatched } := by
  have hlt := (consumes_respParse grow).lt h
  have hfuel : processLoop grow window.length rest = processLoop grow (rest.length + 1) rest :=
    processLoop_fuel hlt (Nat.lt_succ_self _)
  simp only [processInput, processLoop, h, hfuel]

/-- Induction over the frames of a window. -/
@[elab_as_elim]
theorem window_induction (grow : ℕ → Bool) {motive : Bytes → Prop}
    (more : ∀ w, respParse grow w = .more → motive w)
    (reject : ∀ w, respParse grow w = .reject → motive w)
    (done : ∀ w argv rest, respParse grow w = .done argv rest → motive rest → motive w)
    (window : Bytes) : motive window := by
  induction hlen : window.length using Nat.strong_induction_on generalizing window with
  | _ n ih =>
    cases hparse : respParse grow window with
    | more => exact more window hparse
    | reject => exact reject window hparse
    | done argv rest =>
      have hlt := (consumes_respParse grow).lt hparse
      exact done window argv rest hparse (ih rest.length (hlen ▸ hlt) rest rfl)

theorem processInput_suffix (window : Bytes) : (processInput grow window).window <:+ window := by
  induction window using window_induction grow with
  | more w h =>
    rw [processInput_more h]
  | reject w h =>
    rw [processInput_reject h]
  | done w argv rest h ih =>
    rw [processInput_done h]
    exact ih.trans ((incremental_respParse grow).suffix h)

/-- What is left of the window cannot be processed. -/
theorem processInput_window (grow : ℕ → Bool) (window : Bytes) :
    processInput grow (processInput grow window).window =
      ⟨[], (processInput grow window).window, (processInput grow window).failed⟩ := by
  induction window using window_induction grow with
  | more w h =>
    rw [processInput_more h]
    exact processInput_more h
  | reject w h =>
    rw [processInput_reject h]
    exact processInput_reject h
  | done w argv rest h ih =>
    rw [processInput_done h]
    exact ih

/-- **More bytes only add frames**, and none after a protocol error. -/
theorem processInput_append (grow : ℕ → Bool) (window ext : Bytes) :
    processInput grow (window ++ ext) =
      let input := processInput grow ((processInput grow window).window ++ ext)
      { input with dispatched := (processInput grow window).dispatched ++ input.dispatched } := by
  induction window using window_induction grow with
  | more w h =>
    rw [processInput_more h]
    rfl
  | reject w h =>
    rw [processInput_reject h]
    rfl
  | done w argv rest h ih =>
    rw [processInput_done h, processInput_done ((incremental_respParse grow).done h ext), ih]
    rfl

/-- A window that was rejected stays rejected. -/
theorem processInput_failed {window : Bytes} (h : (processInput grow window).failed = true)
    (ext : Bytes) :
    processInput grow (window ++ ext) =
      { processInput grow window with window := (processInput grow window).window ++ ext } := by
  have hreject : ∀ w : Bytes, processInput grow w = ⟨[], w, true⟩ →
      processInput grow (w ++ ext) = ⟨[], w ++ ext, true⟩ := by
    intro w hw
    cases hparse : respParse grow w with
    | more =>
      rw [processInput_more hparse] at hw
      cases hw
    | reject => exact processInput_reject ((incremental_respParse grow).reject hparse ext)
    | done argv rest =>
      rw [processInput_done hparse] at hw
      cases congrArg Input.dispatched hw
  have hwindow := processInput_window grow window
  rw [h] at hwindow
  rw [processInput_append, hreject _ hwindow]
  simp only [h, List.append_nil]

/-! ## The client -/

/-- `RESP_RBUF_INIT` -/
def respRbufInit : ℕ := 4096

/-- `RESP_RBUF_MAX` -/
def respRbufMax : ℕ := 16 * 1024 * 1024

/-- The read side of `resp_client_t`: `rbuf` holds the first `rlen` bytes of the buffer, and the
window starts at `rhead`. `dispatched` and `errors` record what `resp_process_input` has done. -/
structure RespClient where
  rbuf : Bytes
  rhead : ℕ
  rcap : ℕ
  dispatched : List (List Bytes)
  errors : ℕ
  head_le : rhead ≤ rbuf.length
  len_le : rbuf.length ≤ rcap
  cap_le : rcap ≤ respRbufMax

namespace RespClient

/-- `resp_client_new` -/
def new : RespClient where
  rbuf := []
  rhead := 0
  rcap := respRbufInit
  dispatched := []
  errors := 0
  head_le := Nat.le_refl 0
  len_le := Nat.zero_le _
  cap_le := by decide

/-- The live bytes. -/
def window (c : RespClient) : Bytes := c.rbuf.drop c.rhead

/-- The live bytes are moved to the front of the buffer, when it is nearly full. -/
def slide (c : RespClient) : RespClient :=
  if c.rcap < c.rbuf.length + 4096 ∧ 0 < c.rhead then
    { c with
      rbuf := c.window
      rhead := 0
      head_le := Nat.zero_le _
      len_le := (List.drop_suffix _ _).length_le.trans c.len_le }
  else c

/-- The buffer is doubled, when it is nearly full; the client is dropped when it may not grow, or
when there is no memory (`mem n`: there is for `n` bytes). -/
def growBuf (mem : ℕ → Bool) (c : RespClient) : Option RespClient :=
  if c.rcap < c.rbuf.length + 4096 then
    if respRbufMax ≤ c.rcap then none
    else if mem (min (c.rcap * 2) respRbufMax) then
      some { c with
        rcap := min (c.rcap * 2) respRbufMax
        len_le := by
          have h₁ := c.len_le
          have h₂ := c.cap_le
          omega
        cap_le := Nat.min_le_right _ _ }
    else none
  else some c

/-- `resp_process_input` -/
def process (grow : ℕ → Bool) (c : RespClient) : RespClient :=
  let input := processInput grow c.window
  if input.window = [] ∧ input.failed = false then
    { c with
      rbuf := []
      rhead := 0
      dispatched := c.dispatched ++ input.dispatched
      head_le := Nat.le_refl 0
      len_le := Nat.zero_le _ }
  else
    { c with
      rhead := c.rbuf.length - input.window.length
      dispatched := c.dispatched ++ input.dispatched
      errors := c.errors + if input.failed then 1 else 0
      head_le := Nat.sub_le _ _ }

/-- `resp_client_handle_events` on a readable socket, when `read` returns `chunk`: 1 byte or more,
and no more than there is room for. `none` when the client is dropped. -/
def read (grow mem : ℕ → Bool) (c : RespClient) (chunk : Bytes) : Option RespClient :=
  (c.slide.growBuf mem).bind fun c =>
    if h : chunk ≠ [] ∧ chunk.length ≤ c.rcap - c.rbuf.length then
      some (process grow { c with
        rbuf := c.rbuf ++ chunk
        head_le := by
          have h₁ := c.head_le
          rw [List.length_append]
          omega
        len_le := by
          have h₁ := c.len_le
          rw [List.length_append]
          omega })
    else none

/-- The reads of a connection. -/
def reads (grow mem : ℕ → Bool) (c : RespClient) (chunks : List Bytes) : Option RespClient :=
  chunks.foldlM (read grow mem) c

@[simp] theorem window_slide (c : RespClient) : c.slide.window = c.window := by
  unfold slide
  split <;> rfl

@[simp] theorem dispatched_slide (c : RespClient) : c.slide.dispatched = c.dispatched := by
  unfold slide
  split <;> rfl

@[simp] theorem errors_slide (c : RespClient) : c.slide.errors = c.errors := by
  unfold slide
  split <;> rfl

/-- Making room changes neither the window nor the record. -/
theorem growBuf_eq {mem : ℕ → Bool} {c c' : RespClient} (h : c.growBuf mem = some c') :
    c'.window = c.window ∧ c'.dispatched = c.dispatched ∧ c'.errors = c.errors := by
  unfold growBuf at h
  split at h
  · split at h
    · cases h
    · split at h
      · obtain rfl := Option.some.inj h
        exact ⟨rfl, rfl, rfl⟩
      · cases h
  · obtain rfl := Option.some.inj h
    exact ⟨rfl, rfl, rfl⟩

theorem process_eq (grow : ℕ → Bool) (c : RespClient) :
    (c.process grow).window = (processInput grow c.window).window ∧
      (c.process grow).dispatched = c.dispatched ++ (processInput grow c.window).dispatched ∧
      (0 < (c.process grow).errors ↔
        0 < c.errors ∨ (processInput grow c.window).failed = true) := by
  unfold process
  dsimp only
  split
  next h => exact ⟨h.1.symm, rfl, by simp [h.2]⟩
  next h =>
    refine ⟨?_, rfl, ?_⟩
    · -- the window is the end of the buffer
      have hsuffix : (processInput grow c.window).window <:+ c.rbuf :=
        (processInput_suffix c.window).trans (List.drop_suffix c.rhead c.rbuf)
      exact (List.suffix_iff_eq_drop.mp hsuffix).symm
    · cases (processInput grow c.window).failed <;> simp

/-- What a read does, when the client is not dropped. -/
theorem read_eq {mem : ℕ → Bool} {c c' : RespClient} {chunk : Bytes}
    (h : c.read grow mem chunk = some c') :
    c'.window = (processInput grow (c.window ++ chunk)).window ∧
      c'.dispatched = c.dispatched ++ (processInput grow (c.window ++ chunk)).dispatched ∧
      (0 < c'.errors ↔ 0 < c.errors ∨ (processInput grow (c.window ++ chunk)).failed = true) := by
  obtain ⟨c₁, hgrow, h⟩ := Option.bind_eq_some_iff.mp h
  obtain ⟨hwindow, hdispatched, herrors⟩ := growBuf_eq hgrow
  rw [window_slide] at hwindow
  rw [dispatched_slide] at hdispatched
  rw [errors_slide] at herrors
  split at h
  next =>
    obtain rfl := Option.some.inj h
    have happend : (c₁.rbuf ++ chunk).drop c₁.rhead = c.window ++ chunk := by
      rw [List.drop_append_of_le_length c₁.head_le, ← hwindow]
      rfl
    rw [← happend, ← hdispatched, ← herrors]
    exact process_eq grow _
  next => cases h

end RespClient

/-! ## Any way of cutting the stream -/

/-- The client has done what `resp_process_input` does with the whole stream. -/
structure Follows (grow : ℕ → Bool) (c : RespClient) (stream : Bytes) : Prop where
  dispatched : c.dispatched = (processInput grow stream).dispatched
  window : c.window = (processInput grow stream).window
  failed : 0 < c.errors ↔ (processInput grow stream).failed = true

theorem follows_new : Follows grow RespClient.new [] where
  dispatched := rfl
  window := rfl
  failed := by
    show 0 < 0 ↔ false = true
    simp

/-- **A read keeps up with the stream.** -/
theorem Follows.read {mem : ℕ → Bool} {c c' : RespClient} {stream chunk : Bytes}
    (h : Follows grow c stream) (hread : c.read grow mem chunk = some c') :
    Follows grow c' (stream ++ chunk) := by
  obtain ⟨hwindow, hdispatched, herrors⟩ := RespClient.read_eq hread
  rw [h.window] at hwindow hdispatched herrors
  have happend := processInput_append grow stream chunk
  refine ⟨?_, ?_, ?_⟩
  · rw [hdispatched, h.dispatched, happend]
  · rw [hwindow, happend]
  · rw [herrors, h.failed, happend]
    constructor
    · rintro (hfailed | hfailed)
      · -- once rejected, always rejected
        have hrest := processInput_window grow stream
        have hstays : (processInput grow (processInput grow stream).window).failed = true := by
          rw [hrest]
          exact hfailed
        rw [processInput_failed hstays]
        exact hstays
      · exact hfailed
    · exact .inr

theorem Follows.reads {mem : ℕ → Bool} {c c' : RespClient} {stream : Bytes} {chunks : List Bytes}
    (h : Follows grow c stream) (hreads : c.reads grow mem chunks = some c') :
    Follows grow c' (stream ++ chunks.flatten) := by
  induction chunks generalizing c stream with
  | nil =>
    obtain rfl := Option.some.inj hreads
    rw [List.flatten_nil, List.append_nil]
    exact h
  | cons chunk chunks ih =>
    rw [RespClient.reads, List.foldlM_cons] at hreads
    obtain ⟨c₁, hread, hrest⟩ := Option.bind_eq_some_iff.mp hreads
    rw [List.flatten_cons, ← List.append_assoc]
    exact ih (h.read hread) hrest

/-- **The frames do not depend on how the stream was cut.** A strict prefix of a frame is not
enough, what follows a frame does not matter, and a buffer that was rejected stays rejected; so
the frames dispatched by a connection that is not dropped, and whether it comes to a protocol
error, are those of the whole stream in one buffer. -/
theorem frames_of_reads (grow mem : ℕ → Bool) :
    (∀ buf n, (respParseOne grow buf).1 = (n : ℕ) → 0 < n →
      n ≤ buf.length ∧ (∀ k < n, (respParseOne grow (buf.take k)).1 = 0) ∧
        ∀ ext, respParseOne grow (buf.take n ++ ext) = respParseOne grow buf) ∧
    (∀ buf ext, (respParseOne grow buf).1 < 0 → (respParseOne grow (buf ++ ext)).1 < 0) ∧
    ∀ chunks c, RespClient.new.reads grow mem chunks = some c →
      c.dispatched = (processInput grow chunks.flatten).dispatched ∧
        (0 < c.errors ↔ (processInput grow chunks.flatten).failed = true) := by
  have hinc := incremental_respParse grow
  refine ⟨fun buf n hn hpos => ?_, fun buf ext hneg => ?_, fun chunks c hreads => ?_⟩
  · cases hparse : respParse grow buf with
    | more =>
      simp only [respParseOne, hparse] at hn
      omega
    | reject =>
      simp only [respParseOne, hparse] at hn
      omega
    | done argv rest =>
      obtain ⟨used, rfl⟩ := hinc.suffix hparse
      simp only [respParseOne, hparse, List.length_append] at hn
      obtain rfl : used.length = n := by omega
      refine ⟨by rw [List.length_append]; omega, fun k hk => ?_, fun ext => ?_⟩
      · have hsplit : used.take k ++ used.drop k = used := List.take_append_drop k used
        have hmore : respParse grow (used.take k) = .more := by
          have hall : respParse grow (used.take k ++ used.drop k ++ rest) = .done argv rest := by
            rw [hsplit]
            exact hparse
          refine hinc.more_of_prefix hall fun hnil => ?_
          have := List.drop_eq_nil_iff.mp hnil
          omega
        rw [List.take_append_of_le_length (by omega)]
        simp only [respParseOne, hmore]
      · rw [List.take_left' rfl]
        simp only [respParseOne, hparse, hinc.done_append hparse ext, List.length_append]
        simp
  · cases hparse : respParse grow buf with
    | more => simp [respParseOne, hparse] at hneg
    | reject => simp [respParseOne, hinc.reject hparse ext]
    | done argv rest =>
      simp only [respParseOne, hparse] at hneg
      omega
  · have h := follows_new.reads hreads
    rw [List.nil_append] at h
    exact ⟨h.dispatched, h.failed⟩

set_option maxRecDepth 20000 in
/-- `*1`, `PING` and the start of a second frame, cut in three. -/
theorem frames_of_reads_ping :
    ∃ c, RespClient.new.reads (fun _ => true) (fun _ => true)
        [[42, 49, 13], [10, 36, 52, 13, 10, 80], [73, 78, 71, 13, 10, 42]] = some c ∧
      c.dispatched = [[[80, 73, 78, 71]]] ∧
      c.dispatched = (processInput (fun _ => true)
        [42, 49, 13, 10, 36, 52, 13, 10, 80, 73, 78, 71, 13, 10, 42]).dispatched := by
  obtain ⟨c, hreads, hdispatched⟩ : ∃ c, RespClient.new.reads (fun _ => true) (fun _ => true)
      [[42, 49, 13], [10, 36, 52, 13, 10, 80], [73, 78, 71, 13, 10, 42]] = some c ∧
        c.dispatched = [[[80, 73, 78, 71]]] := ⟨_, rfl, rfl⟩
  exact ⟨c, hreads, hdispatched, ((frames_of_reads _ _).2.2 _ c hreads).1⟩

end Alcove.Resp
