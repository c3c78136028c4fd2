import Alcove.Lib.Transition
import Mathlib.Tactic.Linarith

/-!
# The window of a vector

A vector has `cap` cells and keeps its elements in the cells from `start` to `stop`. `vec-push!` makes room
behind the window (`growBack`: slide to the left, or enlarge), `vec-unshift!` before it (`growFront`: always
enlarge). All operations here are on the window alone; the cells are in `Alcove.Vector.Cells`.

**Main result:** `capacity_bounded`. While the window has at most `L` elements, and `vec-unshift!` enlarges
a vector only if the elements fill a fixed fraction of it, the capacity has a bound.
-/

namespace Alcove.Vector

/-- `vec_win`, and the capacity of the storage. -/
structure Window where
  cap : ℕ
  start : ℕ
  stop : ℕ
  deriving DecidableEq

/-- `vec_alloc_storage` takes capacities below this one. -/
def capLimit : ℕ := 2 ^ 31

/-- What `vec_grow_back` and `vec_grow_front` enlarge a capacity to. -/
def grown (cap : ℕ) : ℕ := if cap < 4 then 8 else cap + cap / 2

namespace Window

variable (w : Window)

/-- `vec_len` -/
def len : ℕ := w.stop - w.start

/-- The window lies in the storage. -/
structure Ok : Prop where
  start_le : w.start ≤ w.stop
  stop_le : w.stop ≤ w.cap
  cap_lt : w.cap < capLimit

instance : Decidable w.Ok :=
  decidable_of_iff (w.start ≤ w.stop ∧ w.stop ≤ w.cap ∧ w.cap < capLimit)
    ⟨fun ⟨h1, h2, h3⟩ => ⟨h1, h2, h3⟩, fun ⟨h1, h2, h3⟩ => ⟨h1, h2, h3⟩⟩

/-- `vec_slide_left` -/
def slideLeft : Window := { w with start := 0, stop := w.len }

/-- `vec_realloc` -/
def realloc (newCap frontPad : ℕ) : Option Window :=
  if newCap < w.len + frontPad then none else some ⟨newCap, frontPad, frontPad + w.len⟩

/-- `vec_grow_back` -/
def growBack : Option Window :=
  if 0 < w.start ∧ w.cap / 4 ≤ w.start then some w.slideLeft
  else if capLimit ≤ grown w.cap then none
  else w.realloc (grown w.cap) 0

/-- `vec_grow_front` -/
def growFront : Option Window :=
  if capLimit ≤ grown w.cap then none else w.realloc (grown w.cap) ((grown w.cap - w.len) / 2)

/-- What `vec-push!` does before it stores: room for one element behind the window. -/
def roomBack : Option Window := if w.stop = w.cap then w.growBack else some w

/-- What `vec-unshift!` does before it stores: room for one element before the window. -/
def roomFront : Option Window := if w.start = 0 then w.growFront else some w

/-- The window with one cell more behind it. -/
def extendBack : Window := { w with stop := w.stop + 1 }

/-- The window with one cell more before it. -/
def extendFront : Window := { w with start := w.start - 1 }

/-- `vec_win.end--` -/
def dropBack : Window := { w with stop := w.stop - 1 }

/-- `vec_win.start++` -/
def dropFront : Window := { w with start := w.start + 1 }

end Window

/-- The operations at the two ends. -/
inductive EndOp
  | push
  | pop
  | unshift
  | shift
  deriving DecidableEq

namespace Window

/-- An operation on the window; `none` is the error that the vector cannot grow. An empty vector has nothing
to remove. -/
def step (w : Window) : EndOp → Option Window
  | .push => w.roomBack.map extendBack
  | .pop => some (if w.len = 0 then w else w.dropBack)
  | .unshift => w.roomFront.map extendFront
  | .shift => some (if w.len = 0 then w else w.dropFront)

/-! ## Room -/

variable {w w' : Window}

theorem realloc_eq_some {newCap frontPad : ℕ} :
    w.realloc newCap frontPad = some w' ↔
      w.len + frontPad ≤ newCap ∧ w' = ⟨newCap, frontPad, frontPad + w.len⟩ := by
  unfold realloc
  split_ifs with h
  · exact iff_of_false nofun fun hw => by omega
  · rw [Option.some_inj, eq_comm, and_iff_right (not_lt.mp h)]

theorem lt_grown (cap : ℕ) : cap < grown cap := by
  unfold grown
  split_ifs <;> omega

theorem grown_le (cap : ℕ) : grown cap ≤ 8 + 2 * cap := by
  unfold grown
  split_ifs <;> omega

theorem two_le_grown_sub (cap : ℕ) : cap + 2 ≤ grown cap := by
  unfold grown
  split_ifs <;> omega

/-- What `vec_grow_back` does with a window at the end of the storage. -/
theorem growBack_eq_some (hw : w.Ok) :
    w.growBack = some w' ↔
      (0 < w.start ∧ w.cap / 4 ≤ w.start ∧ w' = ⟨w.cap, 0, w.len⟩) ∨
      (¬ (0 < w.start ∧ w.cap / 4 ≤ w.start) ∧ grown w.cap < capLimit ∧ w' = ⟨grown w.cap, 0, w.len⟩) := by
  have hlt := lt_grown w.cap
  obtain ⟨h1, h2, -⟩ := hw
  unfold growBack
  split_ifs with hslide hlimit
  · rw [Option.some_inj, eq_comm, slideLeft]
    tauto
  · exact iff_of_false nofun fun h => by omega
  · rw [realloc_eq_some, zero_add, and_iff_right (by unfold len; omega)]
    have := not_le.mp hlimit
    tauto

/-- What `vec_grow_front` does. -/
theorem growFront_eq_some (hw : w.Ok) :
    w.growFront = some w' ↔
      grown w.cap < capLimit ∧
        w' = ⟨grown w.cap, (grown w.cap - w.len) / 2, (grown w.cap - w.len) / 2 + w.len⟩ := by
  have hlt := lt_grown w.cap
  obtain ⟨h1, h2, -⟩ := hw
  unfold growFront
  split_ifs with hlimit
  · exact iff_of_false nofun fun h => by omega
  · rw [realloc_eq_some, and_iff_right (by unfold len; omega), and_iff_right (not_le.mp hlimit)]

/-- `vec_grow_back` makes room behind the window, `vec_grow_front` before it. -/
theorem Ok.roomBack (hw : w.Ok) (h : w.roomBack = some w') :
    w'.Ok ∧ w'.len = w.len ∧ w'.stop < w'.cap := by
  have hgrown := two_le_grown_sub w.cap
  have ⟨h1, h2, h3⟩ := hw
  unfold Window.roomBack at h
  split_ifs at h with hstop
  · obtain ⟨hpos, -, rfl⟩ | ⟨-, hlt, rfl⟩ := (growBack_eq_some hw).mp h
    · exact ⟨⟨Nat.zero_le _, by simp only [len]; omega, h3⟩, rfl, by simp only [len]; omega⟩
    · exact ⟨⟨Nat.zero_le _, by simp only [len]; omega, hlt⟩, rfl, by simp only [len]; omega⟩
  · obtain rfl := Option.some.inj h
    exact ⟨hw, rfl, by omega⟩

theorem Ok.roomFront (hw : w.Ok) (h : w.roomFront = some w') :
    w'.Ok ∧ w'.len = w.len ∧ 0 < w'.start := by
  have hgrown := two_le_grown_sub w.cap
  have ⟨h1, h2, h3⟩ := hw
  unfold Window.roomFront at h
  split_ifs at h with hstart
  · obtain ⟨hlt, rfl⟩ := (growFront_eq_some hw).mp h
    have hlen : w.len + 2 ≤ grown w.cap := by
      unfold len
      omega
    refine ⟨⟨Nat.le_add_right _ _, ?_, hlt⟩, Nat.add_sub_cancel_left _ _, ?_⟩
    · show _ + w.len ≤ grown w.cap
      omega
    · show 0 < _ / 2
      omega
  · obtain rfl := Option.some.inj h
    exact ⟨hw, rfl, by omega⟩

/-! ## Steps -/

theorem Ok.step (hw : w.Ok) {op : EndOp} (h : w.step op = some w') : w'.Ok := by
  cases op with
  | push =>
    obtain ⟨v, hv, rfl⟩ := Option.map_eq_some_iff.mp h
    obtain ⟨⟨h1, h2, h3⟩, -, hroom⟩ := hw.roomBack hv
    exact ⟨h1.trans (Nat.le_succ _), hroom, h3⟩
  | pop =>
    obtain ⟨h1, h2, h3⟩ := hw
    obtain rfl := Option.some.inj h
    split_ifs with hlen
    · exact ⟨h1, h2, h3⟩
    · unfold len at hlen
      exact ⟨by simp only [dropBack]; omega, (Nat.sub_le _ _).trans h2, h3⟩
  | unshift =>
    obtain ⟨v, hv, rfl⟩ := Option.map_eq_some_iff.mp h
    obtain ⟨⟨h1, h2, h3⟩, -, hroom⟩ := hw.roomFront hv
    exact ⟨(Nat.sub_le _ _).trans h1, h2, h3⟩
  | shift =>
    obtain ⟨h1, h2, h3⟩ := hw
    obtain rfl := Option.some.inj h
    split_ifs with hlen
    · exact ⟨h1, h2, h3⟩
    · unfold len at hlen
      exact ⟨by simp only [dropFront]; omega, h2, h3⟩

/-- The window has at most `L` elements, and where `op` enlarges the vector for the front the elements fill
one part in `K` of it. -/
def Used (K L : ℕ) (w : Window) (op : EndOp) : Prop :=
  w.len ≤ L ∧ (op = .unshift → w.start = 0 → w.cap ≤ K * (w.len + 1))

instance (K L : ℕ) (w : Window) (op : EndOp) : Decidable (Used K L w op) :=
  inferInstanceAs (Decidable (_ ∧ (_ → _ → _)))

/-- A bound for the capacity. -/
def capBound (K L cap : ℕ) : ℕ := max cap (8 + 2 * L + 2 * K * (L + 1))

variable {K L : ℕ}

/-- A vector that is enlarged for the back is filled up to a fourth. -/
theorem grown_le_of_back (hw : w.Ok) (hlen : w.len ≤ L) (hstop : w.stop = w.cap)
    (hslide : ¬ (0 < w.start ∧ w.cap / 4 ≤ w.start)) : grown w.cap ≤ 8 + 2 * L := by
  obtain ⟨h1, h2, -⟩ := hw
  unfold len at hlen
  unfold grown
  split_ifs <;> omega

theorem grown_le_of_front (hlen : w.len ≤ L) (hcap : w.cap ≤ K * (w.len + 1)) :
    grown w.cap ≤ 8 + 2 * K * (L + 1) := by
  have hmul : K * (w.len + 1) ≤ K * (L + 1) := Nat.mul_le_mul_left K (by omega)
  calc grown w.cap ≤ 8 + 2 * w.cap := grown_le w.cap
    _ ≤ 8 + 2 * (K * (L + 1)) := by omega
    _ = 8 + 2 * K * (L + 1) := by rw [Nat.mul_assoc]

/-- An enlarged capacity is below the bound. -/
theorem step_cap_le (hw : w.Ok) {op : EndOp} (hused : w.Used K L op) (h : w.step op = some w') :
    w'.cap ≤ capBound K L w.cap := by
  unfold capBound
  obtain ⟨hlen, hfront⟩ := hused
  cases op with
  | push =>
    obtain ⟨v, hv, rfl⟩ := Option.map_eq_some_iff.mp h
    unfold roomBack at hv
    split_ifs at hv with hstop
    · obtain ⟨-, -, rfl⟩ | ⟨hslide, -, rfl⟩ := (growBack_eq_some hw).mp hv
      · exact le_max_left _ _
      · have := grown_le_of_back hw hlen hstop hslide
        exact le_max_of_le_right (by simp only [extendBack]; omega)
    · obtain rfl := Option.some.inj hv
      exact le_max_left _ _
  | pop =>
    obtain rfl := Option.some.inj h
    split_ifs <;> exact le_max_left _ _
  | unshift =>
    obtain ⟨v, hv, rfl⟩ := Option.map_eq_some_iff.mp h
    unfold roomFront at hv
    split_ifs at hv with hstart
    · obtain ⟨-, rfl⟩ := (growFront_eq_some hw).mp hv
      have := grown_le_of_front hlen (hfront rfl hstart)
      exact le_max_of_le_right (by simp only [extendFront]; omega)
    · obtain rfl := Option.some.inj hv
      exact le_max_left _ _
  | shift =>
    obtain rfl := Option.some.inj h
    split_ifs <;> exact le_max_left _ _

/-- A vector with a bound below the limit can grow. -/
theorem step_ne_none (hw : w.Ok) {op : EndOp} (hused : w.Used K L op)
    (hbound : capBound K L w.cap < capLimit) : w.step op ≠ none := by
  obtain ⟨hlen, hfront⟩ := hused
  have hbig : 8 + 2 * L + 2 * K * (L + 1) < capLimit := (le_max_right _ _).trans_lt hbound
  cases op with
  | push =>
    rw [step, ne_eq, Option.map_eq_none_iff, ← ne_eq, Option.ne_none_iff_exists']
    unfold roomBack
    split_ifs with hstop
    · by_cases hslide : 0 < w.start ∧ w.cap / 4 ≤ w.start
      · exact ⟨_, (growBack_eq_some hw).mpr (.inl ⟨hslide.1, hslide.2, rfl⟩)⟩
      · have := grown_le_of_back hw hlen hstop hslide
        exact ⟨_, (growBack_eq_some hw).mpr (.inr ⟨hslide, by omega, rfl⟩)⟩
    · exact ⟨w, rfl⟩
  | unshift =>
    rw [step, ne_eq, Option.map_eq_none_iff, ← ne_eq, Option.ne_none_iff_exists']
    unfold roomFront
    split_ifs with hstart
    · have := grown_le_of_front hlen (hfront rfl hstart)
      exact ⟨_, (growFront_eq_some hw).mpr ⟨by omega, rfl⟩⟩
    · exact ⟨w, rfl⟩
  | pop | shift => exact Option.some_ne_none _

theorem capBound_idem (K L cap : ℕ) : capBound K L (capBound K L cap) = capBound K L cap := by
  unfold capBound
  omega

theorem capBound_mono (K L : ℕ) {cap cap' : ℕ} (h : cap ≤ cap') : capBound K L cap ≤ capBound K L cap' :=
  max_le_max_right _ h

/-- **A bound for the capacity.** While the window has at most `L` elements and `vec-unshift!` enlarges only
vectors that are filled to one part in `K`, the capacity is at most `capBound K L` of the first one; where
that is below the limit no operation fails to grow. -/
theorem capacity_bounded {ops : List EndOp} (hw : w.Ok) (h : Lib.Path step (Used K L) w ops w') :
    w'.cap ≤ capBound K L w.cap ∧
      (capBound K L w.cap < capLimit → ∀ op, w'.Used K L op → w'.step op ≠ none) := by
  have hinv : w'.Ok ∧ w'.cap ≤ capBound K L w.cap := by
    refine h.invariant (I := fun v => v.Ok ∧ v.cap ≤ capBound K L w.cap) ?_ ⟨hw, le_max_left _ _⟩
    rintro v op v' ⟨hok, hcap⟩ hused hstep
    refine ⟨hok.step hstep, ?_⟩
    calc v'.cap ≤ capBound K L v.cap := step_cap_le hok hused hstep
      _ ≤ capBound K L (capBound K L w.cap) := capBound_mono K L hcap
      _ = capBound K L w.cap := capBound_idem K L w.cap
  refine ⟨hinv.2, fun hbound op hused => step_ne_none hinv.1 hused ?_⟩
  calc capBound K L w'.cap ≤ capBound K L (capBound K L w.cap) := capBound_mono K L hinv.2
    _ = capBound K L w.cap := capBound_idem K L w.cap
    _ < capLimit := hbound

/-- `vec-unshift!` and `vec-pop!` on a vector without cells. -/
theorem capacity_bounded_queue :
    (⟨8, 3, 3⟩ : Window).cap ≤ capBound 1 1 0 ∧
      (capBound 1 1 0 < capLimit → ∀ op, (⟨8, 3, 3⟩ : Window).Used 1 1 op → step ⟨8, 3, 3⟩ op ≠ none) := by
  have h : Lib.Path step (Used 1 1) ⟨0, 0, 0⟩ [.unshift, .pop] ⟨8, 3, 3⟩ :=
    .cons (by decide) rfl (.cons (by decide) rfl (.nil _))
  exact capacity_bounded (by decide) h

/-! ## A queue that moves to the front -/

/-- At most one element. -/
def Single (w : Window) (_ : EndOp) : Prop := w.len ≤ 1

/-- An element that is put before an empty window and taken from its end moves it to the front. -/
theorem path_unshift_pop {cap start stop : ℕ} (h : w.step .unshift = some ⟨cap, start, start + 1⟩)
    (hlen : w.len ≤ 1) (hstart : stop = start) :
    Lib.Path step Single w [.unshift, .pop] ⟨cap, start, stop⟩ := by
  subst hstart
  refine .cons hlen h (.cons ?_ ?_ (.nil _))
  · simp [Single, len]
  · simp [step, len, dropBack]

/-- The run of an empty vector to the front of its storage. -/
theorem path_to_front (cap start : ℕ) :
    ∃ ops, Lib.Path step Single ⟨cap, start, start⟩ ops ⟨cap, 0, 0⟩ := by
  induction start with
  | zero => exact ⟨[], .nil _⟩
  | succ start ih =>
    obtain ⟨ops, h⟩ := ih
    exact ⟨_, (path_unshift_pop rfl (by simp [len]) rfl).append h⟩

/-- The run that enlarges an empty vector at the front of its storage. -/
theorem path_grown {cap : ℕ} (h : grown cap < capLimit) :
    ∃ ops, Lib.Path step Single ⟨cap, 0, 0⟩ ops ⟨grown cap, 0, 0⟩ := by
  have hpos : grown cap / 2 - 1 + 1 = grown cap / 2 := by
    have := two_le_grown_sub cap
    omega
  have hstep : step ⟨cap, 0, 0⟩ .unshift = some ⟨grown cap, grown cap / 2 - 1, grown cap / 2 - 1 + 1⟩ := by
    have hle : grown cap / 2 ≤ grown cap := Nat.div_le_self _ _
    simp [step, roomFront, growFront, realloc, extendFront, len, not_le.mpr h, not_lt.mpr hle, hpos]
  obtain ⟨ops, hops⟩ := path_to_front (grown cap) (grown cap / 2 - 1)
  exact ⟨_, (path_unshift_pop hstep (by simp [len]) rfl).append hops⟩

theorem path_fails (room : ℕ) {cap : ℕ} (h : capLimit ≤ cap + room) :
    ∃ ops w, Lib.Path step Single ⟨cap, 0, 0⟩ ops w ∧ w.len ≤ 1 ∧ w.step .unshift = none := by
  induction room generalizing cap with
  | zero =>
    have hlimit : capLimit ≤ grown cap := (show capLimit ≤ cap from h).trans (lt_grown cap).le
    exact ⟨[], _, .nil _, by simp [len], by simp [step, roomFront, growFront, hlimit]⟩
  | succ room ih =>
    by_cases hlimit : capLimit ≤ grown cap
    · exact ⟨[], _, .nil _, by simp [len], by simp [step, roomFront, growFront, hlimit]⟩
    · have := lt_grown cap
      obtain ⟨ops, hops⟩ := path_grown (not_le.mp hlimit)
      obtain ⟨ops', w, hrest, hw⟩ := ih (show capLimit ≤ grown cap + room by omega)
      exact ⟨ops ++ ops', w, hops.append hrest, hw⟩

/-- A queue with at most one element fails to grow. -/
theorem unshift_pop_fails :
    ∃ ops w, Lib.Path step Single ⟨0, 0, 0⟩ ops w ∧ w.len ≤ 1 ∧ w.step .unshift = none :=
  path_fails capLimit (by simp)

end Window

end Alcove.Vector
