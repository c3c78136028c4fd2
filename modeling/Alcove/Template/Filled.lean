import Alcove.Template.Expand

/-!
# What a template expands to

`qq_expand` against the filled template. The expansion of a clean template evaluates to the filled
template. A nested quasiquote comes back with the expansion of its body in the place of the body, which is
the filled body for no template at all: a template that fills to the form that it expands to would contain
a smaller one with the same fault (`not_fills_of_below`).

**Main result:** `expansion_fills`. The expansion evaluates to the filled template if and only if the
template is clean.
-/

namespace Alcove.Template

open Params

variable {σ : Type} (rest : Exp → σ → Exp × σ)

/-! ## Pairs -/

theorem named_eq {s : String} {e : Exp} (h : named s e = true) : e = sym s := by
  cases e <;> simp_all [named, symbolText, sym]

theorem isTruePair_of_ne {car cdr : Exp} (h : car ≠ .null) : isTruePair (.pair car cdr) = true := by
  cases car <;> simp_all [isTruePair, Exp.isNull]

theorem isTruePair_of_named {s : String} {car cdr : Exp} (h : named s car = true) :
    isTruePair (.pair car cdr) = true :=
  isTruePair_of_ne (by rw [named_eq h]; simp [sym])

theorem marked {s : String} {car cdr : Exp} (h : named s car = true) :
    ¬ (!isTruePair (.pair car cdr)) = true := by
  simp [isTruePair_of_named h]

theorem isError_eq {e : Exp} (h : isError e = true) : e = .foreign .error := by
  unfold isError at h
  split at h
  · rfl
  · cases h

theorem istrue_of_isTruePair {e : Exp} (h : isTruePair e = true) : istrue e = true := by
  cases e <;> simp_all [isTruePair, istrue]

/-- A list that `qq_expand` makes a `cons` of. -/
structure Plain (car cdr : Exp) : Prop where
  true_pair : isTruePair (.pair car cdr) = true
  unquote : named "unquote" car = false
  quasiquote : named "quasiquote" car = false
  splice : isSplice car = false

/-! ## The expansion by cases -/

section Expand

variable {car cdr : Exp} {d : ℕ}

theorem qqExpand_atom {e : Exp} (h : isTruePair e = false) : qqExpand e d = form1 "quote" e := by
  cases e with
  | pair car cdr =>
    have hne : (!isTruePair (.pair car cdr)) = true := by rw [h]; rfl
    exact (qqExpand_pair car cdr d).trans (if_pos hne)
  | _ => rfl

theorem qqExpand_unquote_zero (h : named "unquote" car = true) :
    qqExpand (.pair car cdr) 0 = cadr (.pair car cdr) := by
  rw [qqExpand_pair, if_neg (marked h), if_pos h, if_pos rfl]

theorem qqExpand_unquote_succ (h : named "unquote" car = true) :
    qqExpand (.pair car cdr) (d + 1) =
      form1 "quote" (form1 "unquote" (qqExpand (cadr (.pair car cdr)) d)) := by
  rw [qqExpand_pair, if_neg (marked h), if_pos h, if_neg (Nat.succ_ne_zero d), Nat.add_sub_cancel]

theorem qqExpand_quasiquote (h : named "quasiquote" car = true) :
    qqExpand (.pair car cdr) d =
      form1 "quote" (form1 "quasiquote" (qqExpand (cadr (.pair car cdr)) (d + 1))) := by
  have hu : named "unquote" car = false := by rw [named_eq h]; decide
  rw [qqExpand_pair, if_neg (marked h), if_neg (by simp [hu]), if_pos h]

theorem not_named_of_isSplice {s : String} (h : isSplice car = true) : named s car = false := by
  cases car <;> simp_all [isSplice, named, symbolText]

theorem ne_null_of_isSplice (h : isSplice car = true) : car ≠ .null := by
  rintro rfl
  simp [isSplice] at h

theorem qqExpand_splice (h : isSplice car = true) :
    qqExpand (.pair car cdr) d =
      qqMakeList2 "append" (cadr car) (if istrue cdr then qqExpand cdr d else .nil) := by
  rw [qqExpand_pair]
  simp [isTruePair_of_ne (ne_null_of_isSplice h), not_named_of_isSplice h, h]

theorem qqExpand_cons (h : Plain car cdr) :
    qqExpand (.pair car cdr) d = qqMakeList2 "cons" (qqExpand car d)
      (if istrue cdr then qqExpand cdr d else form1 "quote" .nil) := by
  rw [qqExpand_pair]
  simp [h.true_pair, h.unquote, h.quasiquote, h.splice]

end Expand

/-! ## The filled template by cases -/

section Fill

variable {car cdr : Exp} {d : ℕ} {s : σ}

theorem fill_atom {e : Exp} (h : isTruePair e = false) : fill rest e d s = some (e, s) := by
  cases e with
  | pair car cdr =>
    have hne : (!isTruePair (.pair car cdr)) = true := by rw [h]; rfl
    exact (fill_pair rest car cdr d s).trans (if_pos hne)
  | _ => rfl

theorem fill_unquote_zero (h : named "unquote" car = true) :
    fill rest (.pair car cdr) 0 s =
      if isError (evaluate rest (cadr (.pair car cdr)) s).1 then none
      else some (evaluate rest (cadr (.pair car cdr)) s) := by
  rw [fill_pair, if_neg (marked h), if_pos h]

theorem fill_unquote_succ (h : named "unquote" car = true) :
    fill rest (.pair car cdr) (d + 1) s =
      (fill rest cdr d s).map fun r => (conscmd car r.1, r.2) := by
  rw [fill_pair, if_neg (marked h), if_pos h]

theorem fill_quasiquote (h : named "quasiquote" car = true) :
    fill rest (.pair car cdr) d s =
      (fill rest cdr (d + 1) s).map fun r => (conscmd car r.1, r.2) := by
  have hu : named "unquote" car = false := by rw [named_eq h]; decide
  rw [fill_pair, if_neg (marked h), if_neg (by simp [hu]), if_pos h]

theorem fill_splice_zero (h : isSplice car = true) :
    fill rest (.pair car cdr) 0 s =
      (items (evaluate rest (cadr car) s).1).bind fun xs =>
        (fill rest cdr 0 (evaluate rest (cadr car) s).2).map fun r => (spliced xs r.1, r.2) := by
  rw [fill_pair]
  simp [isTruePair_of_ne (ne_null_of_isSplice h), not_named_of_isSplice h, h]

theorem fill_splice_succ {head args : Exp} (h : isSplice (.pair head args) = true) :
    fill rest (.pair (.pair head args) cdr) (d + 1) s =
      (fill rest args d s).bind fun a =>
        (fill rest cdr (d + 1) a.2).map fun r => (conscmd (conscmd head a.1) r.1, r.2) := by
  rw [fill_pair]
  simp only [isTruePair_of_ne (ne_null_of_isSplice h), Bool.not_true, Bool.false_eq_true, if_false,
    not_named_of_isSplice h, h]
  cases fill rest args d s <;> simp

theorem fill_cons (h : Plain car cdr) :
    fill rest (.pair car cdr) d s =
      (fill rest car d s).bind fun a =>
        (fill rest cdr d a.2).map fun r => (conscmd a.1 r.1, r.2) := by
  rw [fill_pair]
  simp [h.true_pair, h.unquote, h.quasiquote, h.splice]

end Fill

/-- The shapes of a template. -/
theorem shape (e : Exp) :
    isTruePair e = false ∨ ∃ car cdr, e = .pair car cdr ∧
      (named "unquote" car = true ∨ named "quasiquote" car = true ∨ isSplice car = true ∨
        Plain car cdr) := by
  cases e with
  | pair car cdr =>
    cases ht : isTruePair (.pair car cdr) with
    | false => exact .inl rfl
    | true =>
      refine .inr ⟨car, cdr, rfl, ?_⟩
      by_cases hu : named "unquote" car = true
      · exact .inl hu
      by_cases hq : named "quasiquote" car = true
      · exact .inr (.inl hq)
      by_cases hs : isSplice car = true
      · exact .inr (.inr (.inl hs))
      · exact .inr (.inr (.inr ⟨ht, by simpa using hu, by simpa using hq, by simpa using hs⟩))
  | _ => exact .inl rfl

/-- A tail of a filled list. -/
def endOf (e : Exp) : Exp := if e matches .nil then .null else e

theorem conscmd_eq (a b : Exp) : conscmd a b = .pair a (endOf b) := rfl

theorem conscmd_of_ne_nil {a b : Exp} (h : (!(b matches .nil)) = true) : conscmd a b = .pair a b := by
  cases b <;> simp_all [conscmd]

/-- A template with nothing to replace is filled by itself. -/
theorem fill_unmarked {e : Exp} {d : ℕ} {s : σ} (h : unmarked e d = true) :
    fill rest e d s = some (e, s) := by
  obtain he | ⟨car, cdr, rfl, hu | hq | hs | hp⟩ := shape e
  · exact fill_atom rest he
  · rw [unmarked_pair, if_neg (marked hu), if_pos hu] at h
    cases d with
    | zero => simp at h
    | succ d =>
      rw [Bool.and_eq_true] at h
      rw [fill_unquote_succ rest hu, fill_unmarked h.2, Option.map_some, conscmd_of_ne_nil h.1]
  · have hu : named "unquote" car = false := by rw [named_eq hq]; decide
    rw [unmarked_pair, if_neg (marked hq), if_neg (by simp [hu]), if_pos hq, Bool.and_eq_true] at h
    rw [fill_quasiquote rest hq, fill_unmarked h.2, Option.map_some, conscmd_of_ne_nil h.1]
  · rw [unmarked_pair, if_neg (by simp [isTruePair_of_ne (ne_null_of_isSplice hs)])] at h
    cases car with
    | pair head args =>
      cases d with
      | zero => simp [not_named_of_isSplice hs, hs] at h
      | succ d =>
        simp only [not_named_of_isSplice hs, hs, Bool.false_eq_true, if_false, if_true,
          Bool.and_eq_true] at h
        rw [fill_splice_succ rest hs, fill_unmarked h.2.1.2, Option.bind_some, fill_unmarked h.2.2,
          Option.map_some, conscmd_of_ne_nil h.2.1.1, conscmd_of_ne_nil h.1]
    | _ => simp [isSplice] at hs
  · rw [unmarked_pair, if_neg (by simp [hp.true_pair])] at h
    simp only [hp.unquote, hp.quasiquote, hp.splice, Bool.false_eq_true, if_false,
      Bool.and_eq_true] at h
    rw [fill_cons rest hp, fill_unmarked h.2.1, Option.bind_some, fill_unmarked h.2.2,
      Option.map_some, conscmd_of_ne_nil h.1]
termination_by sizeOf e

/-! ## Nested quasiquotes -/

/-- A form that `qq_expand` makes at some depth below the outermost level. -/
def IsForm (e : Exp) : Prop := ∃ s cdr, (s = "quote" ∨ s = "append" ∨ s = "cons") ∧ e = .pair (sym s) cdr

theorem isForm_quote (e : Exp) : IsForm (form1 "quote" e) := ⟨_, _, .inl rfl, rfl⟩

theorem isForm_qqExpand (e : Exp) (d : ℕ) : IsForm (qqExpand e (d + 1)) := by
  obtain h | ⟨car, cdr, rfl, h | h | h | h⟩ := shape e
  · rw [qqExpand_atom h]
    exact isForm_quote e
  · rw [qqExpand_unquote_succ h]
    exact isForm_quote _
  · rw [qqExpand_quasiquote h]
    exact isForm_quote _
  · rw [qqExpand_splice h]
    exact ⟨_, _, .inr (.inl rfl), rfl⟩
  · rw [qqExpand_cons h]
    exact ⟨_, _, .inr (.inr rfl), rfl⟩

/-- Heads that neither mark a list nor are a splice. -/
structure Ordinary (car : Exp) : Prop where
  ne_null : car ≠ .null
  unquote : named "unquote" car = false
  quasiquote : named "quasiquote" car = false
  splice : ∀ args, car ≠ .pair (sym "unquote-splicing") args

theorem Ordinary.sym {s : String} (hs : s = "quote" ∨ s = "append" ∨ s = "cons") :
    Ordinary (sym s) := by
  refine ⟨by simp [Template.sym], ?_, ?_, by simp [Template.sym]⟩ <;>
    rcases hs with rfl | rfl | rfl <;> decide

theorem IsForm.ordinary {e : Exp} (h : IsForm e) : Ordinary e := by
  obtain ⟨s, cdr, hs, rfl⟩ := h
  refine ⟨by simp, rfl, rfl, fun args h => ?_⟩
  have hw : word s = word "unquote-splicing" := Exp.symbol.inj (Exp.pair.inj h).1
  rcases hs with rfl | rfl | rfl <;> exact absurd hw (by decide)

/-- `u` inside one quasiquote fills to `r`. -/
def Fills (u r : Exp) : Prop := ∃ s s', fill rest u 1 s = some (r, s')

variable {rest}

/-- What can fill a template inside one quasiquote. -/
theorem Fills.shape {u r : Exp} (h : Fills rest u r) :
    (isTruePair u = false ∧ r = u) ∨ ∃ car cdr, u = .pair car cdr ∧
      (((named "unquote" car = true ∨ named "quasiquote" car = true) ∧ ∃ m, r = .pair car m) ∨
        (∃ args m, r = .pair (.pair (sym "unquote-splicing") args) m) ∨
        (Plain car cdr ∧ ∃ c m, Fills rest car c ∧ Fills rest cdr m ∧ r = .pair c (endOf m))) := by
  obtain ⟨s, s', h⟩ := h
  obtain hu | ⟨car, cdr, rfl, hu | hu | hu | hu⟩ := Template.shape u
  · rw [fill_atom rest hu] at h
    cases h
    exact .inl ⟨hu, rfl⟩
  · rw [fill_unquote_succ rest hu, Option.map_eq_some_iff] at h
    obtain ⟨r, -, hr⟩ := h
    cases hr
    exact .inr ⟨car, cdr, rfl, .inl ⟨.inl hu, endOf r.1, rfl⟩⟩
  · rw [fill_quasiquote rest hu, Option.map_eq_some_iff] at h
    obtain ⟨r, -, hr⟩ := h
    cases hr
    exact .inr ⟨car, cdr, rfl, .inl ⟨.inr hu, endOf r.1, rfl⟩⟩
  · cases car with
    | pair head args =>
      rw [fill_splice_succ rest hu, Option.bind_eq_some_iff] at h
      obtain ⟨a, -, h⟩ := h
      rw [Option.map_eq_some_iff] at h
      obtain ⟨r, -, hr⟩ := h
      cases hr
      have hs : head = sym "unquote-splicing" := named_eq (by simp_all [isSplice])
      exact .inr ⟨_, cdr, rfl, .inr (.inl ⟨endOf a.1, endOf r.1, by rw [hs]; rfl⟩)⟩
    | _ => simp [isSplice] at hu
  · rw [fill_cons rest hu, Option.bind_eq_some_iff] at h
    obtain ⟨a, ha, h⟩ := h
    rw [Option.map_eq_some_iff] at h
    obtain ⟨r, hr, h⟩ := h
    cases h
    exact .inr ⟨car, cdr, rfl, .inr (.inr ⟨hu, a.1, r.1, ⟨s, a.2, ha⟩, ⟨a.2, r.2, hr⟩, rfl⟩)⟩

theorem Fills.cons {u c n : Exp} (h : Fills rest u (.pair c n)) (hc : Ordinary c) :
    ∃ a w m, u = .pair a w ∧ Plain a w ∧ Fills rest a c ∧ Fills rest w m ∧ n = endOf m := by
  obtain ⟨hu, rfl⟩ | ⟨car, cdr, rfl, ⟨hm, m, hr⟩ | ⟨args, m, hr⟩ | ⟨hp, c', m, h1, h2, hr⟩⟩ := h.shape
  · exact absurd hu (by simp [isTruePair_of_ne hc.ne_null])
  · cases hr
    exact absurd hm (by simp [hc.unquote, hc.quasiquote])
  · cases hr
    exact absurd rfl (hc.splice args)
  · cases hr
    exact ⟨car, cdr, m, rfl, hp, h1, h2, rfl⟩

theorem Fills.sym {u : Exp} {s : String} (h : Fills rest u (sym s)) : u = sym s := by
  obtain ⟨-, hr⟩ | ⟨car, cdr, rfl, ⟨-, m, hr⟩ | ⟨args, m, hr⟩ | ⟨-, c, m, -, -, hr⟩⟩ := h.shape
  · exact hr.symm
  all_goals cases hr

/-- The templates that fill to a `cons` form. -/
theorem Fills.form {u A B : Exp} (h : Fills rest u (qqMakeList2 "cons" A B)) (hA : IsForm A)
    (hB : IsForm B) :
    ∃ q r w, u = .pair (Template.sym "cons") (.pair q (.pair r w)) ∧
      Plain (Template.sym "cons") (.pair q (.pair r w)) ∧ Plain q (.pair r w) ∧ Plain r w ∧
      Fills rest q A ∧ Fills rest r B := by
  obtain ⟨a, w₁, m₁, rfl, hp₁, ha, hw₁, hm₁⟩ := Fills.cons h (.sym (.inr (.inr rfl)))
  obtain rfl : m₁ = .pair A (.pair B .null) := by cases m₁ <;> simp_all [endOf]
  obtain ⟨q, w₂, m₂, rfl, hp₂, hq, hw₂, hm₂⟩ := Fills.cons hw₁ hA.ordinary
  obtain rfl : m₂ = .pair B .null := by cases m₂ <;> simp_all [endOf]
  obtain ⟨r, w₃, m₃, rfl, hp₃, hr, -, -⟩ := Fills.cons hw₂ hB.ordinary
  obtain rfl := ha.sym
  exact ⟨q, r, w₃, rfl, hp₁, hp₂, hp₃, hq, hr⟩

/-- `u` is `v`, or an element or a tail of a list that is, on the way down from `v` through lists that
become a `cons`. -/
inductive Under : Exp → Exp → Prop
  | refl (v : Exp) : Under v v
  | car {a w u : Exp} (h : Plain a w) (hu : Under a u) : Under (.pair a w) u
  | cdr {a w u : Exp} (h : Plain a w) (hu : Under w u) : Under (.pair a w) u

/-- `u` is further down than `v`. -/
def Below (v u : Exp) : Prop := ∃ a w, v = .pair a w ∧ Plain a w ∧ (Under a u ∨ Under w u)

theorem Under.trans_below {v u q : Exp} (h : Under v u) (hq : Below u q) : Below v q := by
  induction h with
  | refl => exact hq
  | car h _ ih =>
    obtain ⟨a, w, rfl, hp, hq⟩ := ih hq
    exact ⟨_, _, rfl, h, .inl (hq.elim (.car hp) (.cdr hp))⟩
  | cdr h _ ih =>
    obtain ⟨a, w, rfl, hp, hq⟩ := ih hq
    exact ⟨_, _, rfl, h, .inr (hq.elim (.car hp) (.cdr hp))⟩

theorem Under.isTruePair {v u : Exp} (h : Under v u) (hu : isTruePair u = true) :
    isTruePair v = true := by
  cases h with
  | refl => exact hu
  | car h _ => exact h.true_pair
  | cdr h _ => exact h.true_pair

/-- No part of a template fills to the expansion of a list that it is in. -/
theorem not_fills_of_below {v u : Exp} (hvu : Below v u) : ¬ Fills rest u (qqExpand v 1) := by
  -- The part is a `cons` form itself, and one of its two operands has the same fault.
  intro h
  obtain ⟨a, w, rfl, hp, hu⟩ := hvu
  rw [qqExpand_cons hp] at h
  have hform : IsForm (if istrue w then qqExpand w 1 else form1 "quote" .nil) := by
    split
    · exact isForm_qqExpand w 0
    · exact isForm_quote _
  obtain ⟨q, r, w', rfl, hp₁, hp₂, hp₃, hq, hr⟩ := h.form (isForm_qqExpand a 0) hform
  rcases hu with hu | hu
  · exact not_fills_of_below (hu.trans_below ⟨_, _, rfl, hp₁, .inr (.car hp₂ (.refl q))⟩) hq
  · rw [if_pos (istrue_of_isTruePair (hu.isTruePair hp₁.true_pair))] at hr
    exact not_fills_of_below (hu.trans_below ⟨_, _, rfl, hp₁, .inr (.cdr hp₂ (.car hp₃ (.refl r)))⟩) hr
termination_by sizeOf u

theorem not_fills_self (v : Exp) : ¬ Fills rest v (qqExpand v 1) := by
  intro h
  obtain ⟨s, cdr, hs, he⟩ := isForm_qqExpand v 0
  rw [Nat.zero_add] at he
  obtain ⟨a, w, m, rfl, hp, -, -, -⟩ := Fills.cons (he ▸ h) (.sym hs)
  rw [qqExpand_cons hp] at h
  have hform : IsForm (if istrue w then qqExpand w 1 else form1 "quote" .nil) := by
    split
    · exact isForm_qqExpand w 0
    · exact isForm_quote _
  obtain ⟨q, r, w', heq, -, hp₂, hp₃, -, hr⟩ := h.form (isForm_qqExpand a 0) hform
  cases heq
  rw [if_pos (istrue_of_isTruePair hp₂.true_pair)] at hr
  exact not_fills_of_below ⟨_, _, rfl, hp₂, .inr (.car hp₃ (.refl r))⟩ hr

/-! ## Lists -/

/-- Induction over the pairs of a value. -/
theorem pairInduction {P : Exp → Prop} (atom : ∀ e, (∀ car cdr, e ≠ .pair car cdr) → P e)
    (pair : ∀ car cdr, P car → P cdr → P (.pair car cdr)) (e : Exp) : P e := by
  by_cases h : ∃ car cdr, e = .pair car cdr
  · obtain ⟨car, cdr, rfl⟩ := h
    exact pair car cdr (pairInduction atom pair car) (pairInduction atom pair cdr)
  · exact atom e fun car cdr he => h ⟨car, cdr, he⟩
termination_by sizeOf e

theorem items_of_listed {e : Exp} (h : listed e = true) : items e = some e.elems := by
  induction e using pairInduction with
  | atom e he => cases e <;> simp_all [listed, items]
  | pair content next _ ih =>
    simp only [listed, Bool.and_eq_true, Bool.not_eq_true'] at h
    have hne : content ≠ .null := by
      rintro rfl
      simp [Exp.isNull] at h
    rw [items, ih h.2, Exp.elems_pair hne]
    rfl

theorem listed_iff_of_items {e : Exp} {xs : List Exp} (h : items e = some xs) :
    listed e = true ↔ .null ∉ xs := by
  induction e using pairInduction generalizing xs with
  | atom e he => cases e <;> simp_all [listed, items, eq_comm]
  | pair content next _ ih =>
    rw [items, Option.map_eq_some_iff] at h
    obtain ⟨ys, hys, rfl⟩ := h
    have hnull : (!content.isNull) = true ↔ Exp.null ≠ content := by
      cases content <;> simp [Exp.isNull]
    rw [listed, Bool.and_eq_true, ih hys, hnull, List.mem_cons, not_or]

theorem null_notMem_elems (e : Exp) : .null ∉ e.elems := by
  induction e using pairInduction with
  | atom e he => cases e <;> simp_all [Exp.elems]
  | pair content next _ ih =>
    by_cases h : content = .null
    · simp [h]
    · rw [Exp.elems_pair h, List.mem_cons, not_or]
      exact ⟨Ne.symm h, ih⟩

theorem items_cells_null (xs : List Exp) : items (.cells .null xs) = some xs := by
  induction xs with
  | nil => rfl
  | cons x xs ih => rw [Exp.cells, items, ih]; rfl

theorem items_ofList (xs : List Exp) : items (.ofList xs) = some xs := by
  cases xs with
  | nil => rfl
  | cons x xs => exact items_cells_null (x :: xs)

theorem listed_ofList {xs : List Exp} (h : .null ∉ xs) : listed (.ofList xs) = true :=
  (listed_iff_of_items (items_ofList xs)).mpr h

theorem elems_ofList {xs : List Exp} (h : .null ∉ xs) : (Exp.ofList xs).elems = xs :=
  Option.some.inj ((items_of_listed (listed_ofList h)).symm.trans (items_ofList xs))

theorem elems_endOf (e : Exp) : (endOf e).elems = e.elems := by
  cases e <;> rfl

theorem listed_endOf (e : Exp) : listed (endOf e) = listed e := by
  cases e <;> rfl

theorem listed_of_cells {xs : List Exp} {r : Exp} (h : listed (r.cells xs) = true) :
    listed r = true := by
  induction xs with
  | nil => exact h
  | cons x xs ih =>
    rw [Exp.cells, listed, Bool.and_eq_true] at h
    exact ih h.2

/-- A list passes both tests of `append`. -/
theorem list_of_items {e : Exp} {xs : List Exp} (h : items e = some xs) :
    isError e = false ∧ notAList e = false := by
  cases e <;> simp_all [items, isError, notAList]

/-! ## Evaluation of the expansion -/

section Evaluate

variable (rest) {s : σ}

theorem evaluate_quote (x : Exp) : evaluate rest (form1 "quote" x) s = (x, s) :=
  evaluate_one rest (by decide)

theorem evaluate_cons (x y : Exp) : evaluate rest (qqMakeList2 "cons" x y) s =
    if isError (evaluate rest x s).1 then evaluate rest x s
    else if isError (evaluate rest y (evaluate rest x s).2).1 then
      evaluate rest y (evaluate rest x s).2
    else (conscmd (evaluate rest x s).1 (evaluate rest y (evaluate rest x s).2).1,
      (evaluate rest y (evaluate rest x s).2).2) := by
  rw [qqMakeList2, evaluate_two, if_pos (by decide)]

theorem evaluate_append (x y : Exp) : evaluate rest (qqMakeList2 "append" x y) s =
    if isError (evaluate rest x s).1 then evaluate rest x s
    else if notAList (evaluate rest x s).1 then (.foreign .error, (evaluate rest x s).2)
    else if isError (evaluate rest y (evaluate rest x s).2).1 then
      evaluate rest y (evaluate rest x s).2
    else if notAList (evaluate rest y (evaluate rest x s).2).1 then
      (.foreign .error, (evaluate rest y (evaluate rest x s).2).2)
    else (.ofList ((evaluate rest x s).1.elems ++ (evaluate rest y (evaluate rest x s).2).1.elems),
      (evaluate rest y (evaluate rest x s).2).2) := by
  rw [qqMakeList2, evaluate_two, if_neg (by decide), if_pos (by decide)]

end Evaluate

section Clean

variable (rest) {car cdr : Exp} {s : σ}

theorem clean_atom {e : Exp} (h : isTruePair e = false) : clean rest e s = true := by
  cases e with
  | pair car cdr =>
    have hne : (!isTruePair (.pair car cdr)) = true := by rw [h]; rfl
    exact (clean_pair rest car cdr s).trans (if_pos hne)
  | _ => rfl

theorem clean_unquote (h : named "unquote" car = true) : clean rest (.pair car cdr) s = true := by
  rw [clean_pair, if_neg (marked h), if_pos h]

theorem clean_quasiquote (h : named "quasiquote" car = true) :
    clean rest (.pair car cdr) s = false := by
  have hu : named "unquote" car = false := by rw [named_eq h]; decide
  rw [clean_pair, if_neg (marked h), if_neg (by simp [hu]), if_pos h]

theorem clean_splice (h : isSplice car = true) : clean rest (.pair car cdr) s =
    (listed (evaluate rest (cadr car) s).1 &&
      if istrue cdr then clean rest cdr (evaluate rest (cadr car) s).2 &&
        (fill rest cdr 0 (evaluate rest (cadr car) s).2).any fun r => listed r.1
      else ended cdr) := by
  rw [clean_pair]
  simp [isTruePair_of_ne (ne_null_of_isSplice h), not_named_of_isSplice h, h]

theorem clean_cons (h : Plain car cdr) : clean rest (.pair car cdr) s =
    (clean rest car s && !isError car &&
      if istrue cdr then (fill rest car 0 s).all fun a => clean rest cdr a.2 else ended cdr) := by
  rw [clean_pair]
  simp [h.true_pair, h.unquote, h.quasiquote, h.splice]

end Clean

/-- The form for a tail, where `e` is what the source has in the place of an empty one. -/
def tailForm (e cdr : Exp) : Exp := if istrue cdr then qqExpand cdr 0 else e

/-- A value that stands for the filled template `r`, up to which nil ends it; or else both are lists of the
same elements. -/
def Agrees (v r : Exp) : Prop :=
  endOf v = endOf r ∨ isError v = false ∧ listed r = true ∧ v.elems = r.elems

theorem isTruePair_of_not_istrue {e : Exp} (h : istrue e = false) : isTruePair e = false := by
  cases ht : isTruePair e with
  | false => rfl
  | true => rw [istrue_of_isTruePair ht] at h; cases h

/-- A template fills to an error only as one, or behind splices of nothing. -/
theorem fill_error {tmpl r : Exp} {s s' : σ} (h : fill rest tmpl 0 s = some (r, s'))
    (hr : isError r = true) :
    isError tmpl = true ∨ (evaluate rest (qqExpand tmpl 0) s).1 = .nil := by
  induction tmpl using pairInduction generalizing s r s' with
  | atom e he =>
    rw [fill_atom rest (by cases e <;> simp_all [isTruePair])] at h
    cases h
    exact .inl hr
  | pair car cdr _ ih =>
    obtain ht | ⟨car, cdr, ⟨⟩, hu | hq | hs | hp⟩ := shape (.pair car cdr)
    · rw [fill_atom rest ht] at h
      cases h
      exact .inl hr
    · rw [fill_unquote_zero rest hu] at h
      split at h
      · cases h
      · rename_i hv
        rw [Option.some.inj h] at hv
        exact absurd hr hv
    · rw [fill_quasiquote rest hq, Option.map_eq_some_iff] at h
      obtain ⟨m, -, hm⟩ := h
      cases hm
      cases hr
    · rw [fill_splice_zero rest hs, Option.bind_eq_some_iff] at h
      obtain ⟨xs, hxs, h⟩ := h
      rw [Option.map_eq_some_iff] at h
      obtain ⟨m, hm, h⟩ := h
      cases h
      -- Nothing is spliced, and what follows is the error.
      have hms : xs = [] ∧ isError m.1 = true := by
        unfold spliced at hr
        split at hr
        · rename_i ys _
          cases hl : xs ++ ys <;> simp_all [Exp.ofList, Exp.cells, isError]
        · cases xs with
          | nil => exact ⟨rfl, hr⟩
          | cons => cases hr
      obtain ⟨rfl, hm'⟩ := hms
      have hv : (evaluate rest (cadr car) s).1.elems = [] := by
        have := (listed_iff_of_items hxs).mpr (by simp)
        exact Option.some.inj ((items_of_listed this).symm.trans hxs)
      have htail : (evaluate rest (if istrue cdr then qqExpand cdr 0 else .nil)
          (evaluate rest (cadr car) s).2).1 = .nil := by
        split
        · rename_i htrue
          rcases ih hm hm' with he | he
          · rw [isError_eq he] at htrue
            cases htrue
          · exact he
        · rfl
      right
      rw [qqExpand_splice hs, evaluate_append, (list_of_items hxs).1, (list_of_items hxs).2, htail, hv]
      rfl
    · rw [fill_cons rest hp, Option.bind_eq_some_iff] at h
      obtain ⟨a, -, h⟩ := h
      rw [Option.map_eq_some_iff] at h
      obtain ⟨m, -, h⟩ := h
      cases h
      cases hr

/-- The tail of a clean list is filled, up to which nil ends it. -/
theorem tail_filled {cdr e r : Exp} {s s' : σ} (he : evaluate rest e s = (.nil, s))
    (h : fill rest cdr 0 s = some (r, s'))
    (ih : clean rest cdr s = true → evaluate rest (qqExpand cdr 0) s = (r, s'))
    (hc : (if istrue cdr then clean rest cdr s else ended cdr) = true) :
    endOf (evaluate rest (tailForm e cdr) s).1 = endOf r ∧ (evaluate rest (tailForm e cdr) s).2 = s' ∧
      isError (evaluate rest (tailForm e cdr) s).1 = false := by
  unfold tailForm
  cases hcdr : istrue cdr with
  | true =>
    rw [if_pos hcdr] at hc
    rw [if_pos rfl, ih hc]
    refine ⟨rfl, rfl, Bool.eq_false_iff.mpr fun hr => ?_⟩
    rcases fill_error h hr with he | he
    · rw [isError_eq he] at hcdr
      cases hcdr
    · rw [ih hc] at he
      cases (show r = .nil from he)
      cases hr
  | false =>
    rw [if_neg (by simp [hcdr])] at hc
    rw [fill_atom rest (isTruePair_of_not_istrue hcdr)] at h
    cases h
    rw [if_neg (by simp), he]
    cases cdr <;> simp_all [ended, endOf, isError]

/-- And only the tail of a clean list is. -/
theorem tail_clean {cdr e r : Exp} {s s' : σ} (he : evaluate rest e s = (.nil, s))
    (h : fill rest cdr 0 s = some (r, s'))
    (ih : Agrees (evaluate rest (qqExpand cdr 0) s).1 r → clean rest cdr s = true)
    (hv : Agrees (evaluate rest (tailForm e cdr) s).1 r) :
    (if istrue cdr then clean rest cdr s else ended cdr) = true := by
  unfold tailForm at hv
  cases hcdr : istrue cdr with
  | true =>
    rw [hcdr, if_pos rfl] at hv
    rw [if_pos rfl]
    exact ih hv
  | false =>
    rw [fill_atom rest (isTruePair_of_not_istrue hcdr)] at h
    cases h
    rw [hcdr, if_neg (by simp), he] at hv
    rw [if_neg (by simp)]
    rcases hv with hv | ⟨-, hl, hv⟩
    · cases cdr <;> simp_all [ended, endOf]
    · have hi := items_of_listed hl
      cases cdr <;> simp_all [ended, listed, items, istrue, Exp.isNull]

/-- The lists that agree have elements that agree. -/
theorem agrees_conscmd {a b a' b' : Exp} (hb : isError b = false)
    (h : Agrees (conscmd a b) (conscmd a' b')) : a = a' ∧ Agrees b b' := by
  rcases h with h | ⟨-, hl, h⟩
  · rw [conscmd_eq, conscmd_eq] at h
    exact ⟨(Exp.pair.inj h).1, .inl (Exp.pair.inj h).2⟩
  · rw [conscmd_eq, listed, Bool.and_eq_true, listed_endOf] at hl
    have ha' : a' ≠ .null := by
      rintro rfl
      simp [Exp.isNull] at hl
    rw [conscmd_eq, conscmd_eq, Exp.elems_pair ha', elems_endOf] at h
    have ha : a ≠ .null := by
      rintro rfl
      simp at h
    rw [Exp.elems_pair ha, elems_endOf] at h
    obtain ⟨h1, h2⟩ := List.cons.inj h
    exact ⟨h1, .inr ⟨hb, hl.2, h2⟩⟩

theorem not_agrees_error {v a b : Exp} (hv : isError v = true) : ¬ Agrees v (conscmd a b) := by
  rw [isError_eq hv]
  rintro (h | ⟨h, -⟩)
  · cases h
  · cases h

/-- The lists that agree with a spliced one. -/
theorem agrees_spliced {xs ys : List Exp} {r : Exp} (hys : .null ∉ ys)
    (h : Agrees (.ofList ys) (spliced xs r)) :
    .null ∉ xs ∧ listed r = true ∧ ys = xs ++ r.elems := by
  have hl : listed (spliced xs r) = true ∧ ys = (spliced xs r).elems := by
    rcases h with h | ⟨-, hl, h⟩
    · refine ⟨by rw [← listed_endOf, ← h, listed_endOf, listed_ofList hys], ?_⟩
      rw [← elems_endOf, ← h, elems_endOf, elems_ofList hys]
    · exact ⟨hl, by rw [← h, elems_ofList hys]⟩
  obtain ⟨hl, rfl⟩ := hl
  unfold spliced at hl ⊢
  cases hi : items r with
  | none =>
    rw [hi] at hl
    exact absurd (items_of_listed (listed_of_cells hl)) (by simp [hi])
  | some zs =>
    simp only [hi] at hl ⊢
    have hnull := (listed_iff_of_items (items_ofList _)).mp hl
    rw [List.mem_append, not_or] at hnull
    have hr := (listed_iff_of_items hi).mpr hnull.2
    refine ⟨hnull.1, hr, ?_⟩
    rw [elems_ofList (by simp [hnull]), Option.some.inj (hi.symm.trans (items_of_listed hr))]

theorem agrees_pair {x n r : Exp} (hx : x ≠ .null) (h : Agrees (.pair x n) r) :
    ∃ m, r = .pair x m := by
  rcases h with h | ⟨-, hl, h⟩
  · cases r <;> simp_all [endOf]
  · cases r with
    | pair c m =>
      have hc : c ≠ .null := by
        rintro rfl
        simp [listed, Exp.isNull] at hl
      rw [Exp.elems_pair hx, Exp.elems_pair hc] at h
      exact ⟨m, by rw [(List.cons.inj h).1]⟩
    | _ => simp_all [Exp.elems]

/-- A quasiquote inside the template is never filled. -/
theorem not_agrees_quasiquote {car cdr r : Exp} {s s' : σ} (h : fill rest cdr 1 s = some (r, s')) :
    ¬ Agrees (form1 "quasiquote" (qqExpand (cadr (.pair car cdr)) 1)) (conscmd (sym "quasiquote") r) := by
  intro hv
  have hform := isForm_qqExpand (cadr (.pair car cdr)) 0
  have hr : Agrees (.pair (qqExpand (cadr (.pair car cdr)) 1) .null) r := by
    rw [show form1 "quasiquote" (qqExpand (cadr (.pair car cdr)) 1) =
      conscmd (sym "quasiquote") (.pair (qqExpand (cadr (.pair car cdr)) 1) .null) from rfl] at hv
    exact (agrees_conscmd rfl hv).2
  obtain ⟨m, rfl⟩ := agrees_pair hform.ordinary.ne_null hr
  have hfill : Fills rest cdr (.pair (qqExpand (cadr (.pair car cdr)) 1) m) := ⟨s, s', h⟩
  obtain ⟨a, w, n, rfl, -, ha, -, -⟩ := hfill.cons hform.ordinary
  exact not_fills_self a ha

section Splice

variable {car cdr r : Exp} {xs : List Exp} {s s₁ s' : σ}

/-- The value of a splice is a list, so `append` gets to the rest. -/
theorem evaluate_splice (hs : isSplice car = true)
    (hxs : items (evaluate rest (cadr car) s).1 = some xs) :
    evaluate rest (qqExpand (.pair car cdr) 0) s =
      let b := evaluate rest (tailForm .nil cdr) (evaluate rest (cadr car) s).2
      if isError b.1 then b
      else if notAList b.1 then (.foreign .error, b.2)
      else (.ofList ((evaluate rest (cadr car) s).1.elems ++ b.1.elems), b.2) := by
  rw [qqExpand_splice hs, evaluate_append, (list_of_items hxs).1, (list_of_items hxs).2]
  rfl

theorem splice_filled (hs : isSplice car = true)
    (hxs : items (evaluate rest (cadr car) s).1 = some xs)
    (hr : fill rest cdr 0 (evaluate rest (cadr car) s).2 = some (r, s'))
    (ih : clean rest cdr (evaluate rest (cadr car) s).2 = true →
      evaluate rest (qqExpand cdr 0) (evaluate rest (cadr car) s).2 = (r, s'))
    (hc : clean rest (.pair car cdr) s = true) :
    evaluate rest (qqExpand (.pair car cdr) 0) s = (spliced xs r, s') := by
  rw [clean_splice rest hs, Bool.and_eq_true, hr, Option.any_some] at hc
  obtain ⟨hlist, hc⟩ := hc
  have hcdr : (if istrue cdr then clean rest cdr (evaluate rest (cadr car) s).2 else ended cdr) = true := by
    split at hc
    · rw [Bool.and_eq_true] at hc
      rw [if_pos (by assumption)]
      exact hc.1
    · rw [if_neg (by assumption)]
      exact hc
  have hlr : listed r = true := by
    split at hc
    · rw [Bool.and_eq_true] at hc
      exact hc.2
    · rename_i hcdr
      rw [fill_atom rest (isTruePair_of_not_istrue (by simpa using hcdr))] at hr
      cases hr
      cases cdr <;> simp_all [ended, listed]
  obtain ⟨hb, rfl, herr⟩ := tail_filled (e := .nil) rfl hr ih hcdr
  have hnot : notAList (evaluate rest (tailForm .nil cdr) (evaluate rest (cadr car) s).2).1 = false := by
    have hl := listed_endOf (evaluate rest (tailForm .nil cdr) (evaluate rest (cadr car) s).2).1
    rw [hb, listed_endOf, hlr] at hl
    exact (list_of_items (items_of_listed hl.symm)).2
  rw [evaluate_splice hs hxs]
  simp only [herr, hnot, Bool.false_eq_true, if_false]
  rw [spliced, items_of_listed hlr, Option.some.inj (hxs.symm.trans (items_of_listed hlist)),
    ← elems_endOf (evaluate rest (tailForm .nil cdr) _).1, hb, elems_endOf]

theorem splice_clean (hs : isSplice car = true)
    (hxs : items (evaluate rest (cadr car) s).1 = some xs)
    (hr : fill rest cdr 0 (evaluate rest (cadr car) s).2 = some (r, s'))
    (ih : Agrees (evaluate rest (qqExpand cdr 0) (evaluate rest (cadr car) s).2).1 r →
      clean rest cdr (evaluate rest (cadr car) s).2 = true)
    (hv : Agrees (evaluate rest (qqExpand (.pair car cdr) 0) s).1 (spliced xs r)) :
    clean rest (.pair car cdr) s = true := by
  have hfill : fill rest (.pair car cdr) 0 s = some (spliced xs r, s') := by
    rw [fill_splice_zero rest hs, hxs, Option.bind_some, hr]
    rfl
  -- An error would be what the template fills to, and then there is no error.
  have herr : isError (evaluate rest (qqExpand (.pair car cdr) 0) s).1 = false := by
    rw [Bool.eq_false_iff]
    intro he
    rcases hv with hv | ⟨hv, -⟩
    · have hse : spliced xs r = .foreign .error := by
        rw [isError_eq he] at hv
        cases hsp : spliced xs r <;> simp_all [endOf]
      rcases fill_error hfill (by rw [hse]; rfl) with h | h
      · cases h
      · rw [h] at he
        cases he
    · rw [hv] at he
      cases he
  rw [evaluate_splice hs hxs] at hv herr
  simp only at hv herr
  split at hv
  · rename_i hb
    rw [if_pos hb, hb] at herr
    cases herr
  · rename_i hb
    rw [if_neg hb] at herr
    split at hv
    · rename_i hl
      rw [if_pos hl] at herr
      cases herr
    · obtain ⟨hnull, hlr, he⟩ := agrees_spliced (by
        rw [List.mem_append, not_or]
        exact ⟨null_notMem_elems _, null_notMem_elems _⟩) hv
      have hlist := (listed_iff_of_items hxs).mpr hnull
      rw [Option.some.inj (hxs.symm.trans (items_of_listed hlist)), List.append_cancel_left_eq] at he
      have hc := tail_clean (e := .nil) rfl hr ih (.inr ⟨by simpa using hb, hlr, he⟩)
      rw [clean_splice rest hs, hlist, hr, Option.any_some, hlr, Bool.and_true]
      exact hc

end Splice

section Cons

variable {car cdr a r : Exp} {s s₁ s' : σ}

theorem evaluate_cons_expansion (hp : Plain car cdr) :
    evaluate rest (qqExpand (.pair car cdr) 0) s =
      let a := evaluate rest (qqExpand car 0) s
      let b := evaluate rest (tailForm (form1 "quote" .nil) cdr) a.2
      if isError a.1 then a else if isError b.1 then b else (conscmd a.1 b.1, b.2) := by
  rw [qqExpand_cons hp, evaluate_cons]
  rfl

theorem cons_filled (hp : Plain car cdr) (ha : fill rest car 0 s = some (a, s₁))
    (hr : fill rest cdr 0 s₁ = some (r, s'))
    (ihcar : clean rest car s = true → evaluate rest (qqExpand car 0) s = (a, s₁))
    (ihcdr : clean rest cdr s₁ = true → evaluate rest (qqExpand cdr 0) s₁ = (r, s'))
    (hc : clean rest (.pair car cdr) s = true) :
    evaluate rest (qqExpand (.pair car cdr) 0) s = (conscmd a r, s') := by
  rw [clean_cons rest hp, Bool.and_eq_true, Bool.and_eq_true, ha, Option.all_some,
    Bool.not_eq_true'] at hc
  obtain ⟨⟨hcar, herr⟩, hcdr⟩ := hc
  have ha' : isError a = false := by
    rw [Bool.eq_false_iff]
    intro he
    rcases fill_error ha he with h | h
    · rw [herr] at h
      cases h
    · rw [ihcar hcar] at h
      cases (show a = .nil from h)
      cases he
  obtain ⟨hb, rfl, hberr⟩ := tail_filled (evaluate_quote rest .nil) hr ihcdr hcdr
  rw [evaluate_cons_expansion hp, ihcar hcar]
  simp only [ha', hberr, Bool.false_eq_true, if_false]
  rw [conscmd_eq, conscmd_eq, hb]

theorem cons_clean (hp : Plain car cdr) (ha : fill rest car 0 s = some (a, s₁))
    (hr : fill rest cdr 0 s₁ = some (r, s'))
    (ihcar : clean rest car s = true → evaluate rest (qqExpand car 0) s = (a, s₁))
    (ihcar' : Agrees (evaluate rest (qqExpand car 0) s).1 a → clean rest car s = true)
    (ihcdr : Agrees (evaluate rest (qqExpand cdr 0) s₁).1 r → clean rest cdr s₁ = true)
    (hv : Agrees (evaluate rest (qqExpand (.pair car cdr) 0) s).1 (conscmd a r)) :
    clean rest (.pair car cdr) s = true := by
  rw [evaluate_cons_expansion hp] at hv
  simp only at hv
  split at hv
  · rename_i he
    exact absurd hv (not_agrees_error he)
  rename_i hea
  split at hv
  · rename_i he
    exact absurd hv (not_agrees_error he)
  rename_i heb
  obtain ⟨hav, hbv⟩ := agrees_conscmd (by simpa using heb) hv
  have hcar := ihcar' (.inl (by rw [hav]))
  have hcar_err : isError car = false := by
    rw [Bool.eq_false_iff]
    intro he
    rw [isError_eq he, qqExpand_atom rfl, evaluate_quote] at hea
    exact hea rfl
  rw [ihcar hcar] at hbv
  have hc := tail_clean (evaluate_quote rest .nil) hr ihcdr hbv
  rw [clean_cons rest hp, hcar, hcar_err, ha, Option.all_some]
  exact hc

end Cons

/-- Each shape of a template is filled if it is clean, and clean if it is filled. -/
theorem filled_and_clean {tmpl r : Exp} {s s' : σ} (h : fill rest tmpl 0 s = some (r, s')) :
    (clean rest tmpl s = true → evaluate rest (qqExpand tmpl 0) s = (r, s')) ∧
      (Agrees (evaluate rest (qqExpand tmpl 0) s).1 r → clean rest tmpl s = true) := by
  induction tmpl using pairInduction generalizing s r s' with
  | atom e he =>
    have hatom : isTruePair e = false := by cases e <;> simp_all [isTruePair]
    rw [fill_atom rest hatom] at h
    cases h
    rw [qqExpand_atom hatom, evaluate_quote, clean_atom rest hatom]
    exact ⟨fun _ => rfl, fun _ => rfl⟩
  | pair car cdr ihcar ihcdr =>
    obtain ht | ⟨car, cdr, ⟨⟩, hu | hq | hs | hp⟩ := shape (.pair car cdr)
    · rw [fill_atom rest ht] at h
      cases h
      rw [qqExpand_atom ht, evaluate_quote, clean_atom rest ht]
      exact ⟨fun _ => rfl, fun _ => rfl⟩
    · rw [fill_unquote_zero rest hu] at h
      split at h
      · cases h
      · rw [qqExpand_unquote_zero hu, clean_unquote rest hu]
        exact ⟨fun _ => Option.some.inj h, fun _ => rfl⟩
    · rw [clean_quasiquote rest hq]
      refine ⟨fun h => (by cases h), fun hv => ?_⟩
      rw [fill_quasiquote rest hq, Option.map_eq_some_iff] at h
      obtain ⟨m, hm, h⟩ := h
      cases h
      rw [qqExpand_quasiquote hq, evaluate_quote, named_eq hq] at hv
      exact absurd hv (not_agrees_quasiquote hm)
    · rw [fill_splice_zero rest hs, Option.bind_eq_some_iff] at h
      obtain ⟨xs, hxs, h⟩ := h
      rw [Option.map_eq_some_iff] at h
      obtain ⟨m, hm, h⟩ := h
      cases h
      exact ⟨splice_filled hs hxs hm (ihcdr hm).1, splice_clean hs hxs hm (ihcdr hm).2⟩
    · rw [fill_cons rest hp, Option.bind_eq_some_iff] at h
      obtain ⟨a, ha, h⟩ := h
      rw [Option.map_eq_some_iff] at h
      obtain ⟨m, hm, h⟩ := h
      cases h
      exact ⟨cons_filled hp ha hm (ihcar ha).1 (ihcdr hm).1,
        cons_clean hp ha hm (ihcar ha).1 (ihcar ha).2 (ihcdr hm).2⟩

variable (rest)

/-- **Quasiquote.** If the operands of a template have values that can fill it, then what `qq_expand`
returns evaluates to the filled template exactly when the template is clean. -/
theorem expansion_fills {tmpl r : Exp} {s s' : σ} (h : fill rest tmpl 0 s = some (r, s')) :
    evaluate rest (qqExpand tmpl 0) s = (r, s') ↔ clean rest tmpl s = true :=
  ⟨fun hv => (filled_and_clean h).2 (.inl (by rw [hv])), (filled_and_clean h).1⟩

/-- A list between two elements: `(a ,@xs b)` where `xs` is `(t)`. -/
theorem expansion_fills_splice :
    evaluate (fun _ (s : Unit) => (.pair .t .null, s))
        (qqExpand (.pair (sym "a") (.pair (form1 "unquote-splicing" (sym "xs"))
          (.pair (sym "b") .null))) 0) () =
      (.pair (sym "a") (.pair .t (.pair (sym "b") .null)), ()) ↔
    clean (fun _ (s : Unit) => (.pair .t .null, s))
      (.pair (sym "a") (.pair (form1 "unquote-splicing" (sym "xs")) (.pair (sym "b") .null))) () =
        true :=
  expansion_fills _ rfl

/-- `(t . 0)` has nothing to replace, but loses its end. -/
theorem tail_lost :
    ¬ ∀ (tmpl r : Exp) (s s' : Unit), fill (fun e s => (e, s)) tmpl 0 s = some (r, s') →
      evaluate (fun e s => (e, s)) (qqExpand tmpl 0) s = (r, s') := by
  intro h
  have h0 := h (.pair .t (.fix (makeFix 0))) (.pair .t (.fix (makeFix 0))) () () rfl
  have h1 : evaluate (fun e (s : Unit) => (e, s)) (qqExpand (.pair .t (.fix (makeFix 0))) 0) () =
    (.pair .t .null, ()) := rfl
  rw [h1] at h0
  cases h0

end Alcove.Template
