import Alcove.Msgpack.Encode
import Mathlib.Data.Finset.Card

/-!
# What decoding MessagePack loses

A decoded string or key becomes a NUL-terminated text, which ends at the first NUL byte it holds. So
a string is shortened, and two keys of a map are merged, by an embedded NUL (`kept_iff_clean`), and by
nothing else.

**Main result:** `msgpackdecode_lossless`.
-/

namespace Alcove.Msgpack

open Lib Cursor

/-- Nothing of this message is dropped from its value: the text of a string has as many bytes as the
string, and the dict of a map as many entries as the map has distinct keys. -/
def Kept (m : Msg) : Prop :=
  (∀ s text, m = .str s → image m = .string text → text.length = s.length) ∧
    ∀ kvs d, m = .map kvs → image m = .dict d → d.used = (kvs.map Prod.fst).dedup.length

/-- The string holds no NUL, and no two keys of the map agree up to their first NUL. -/
def Clean (m : Msg) : Prop :=
  (∀ s, m = .str s → 0 ∉ s) ∧
    ∀ kvs, m = .map kvs → ∀ k ∈ kvs.map Prod.fst, ∀ k' ∈ kvs.map Prod.fst,
      CStr.ofBytes k = CStr.ofBytes k' → k = k'

/-- A function merges elements of a list exactly when it is not injective on them. -/
theorem length_dedup_map {α β : Type} [DecidableEq α] [DecidableEq β] (f : α → β) (l : List α) :
    (l.map f).dedup.length = l.dedup.length ↔ ∀ a ∈ l, ∀ a' ∈ l, f a = f a' → a = a' := by
  have himg : (l.map f).toFinset = l.toFinset.image f := by
    ext b
    simp
  rw [← List.card_toFinset, ← List.card_toFinset, himg, Finset.card_image_iff]
  simp [Set.InjOn]

theorem map_fst_imageEntries (kvs : List (List UInt8 × Msg)) :
    (imageEntries kvs).map Prod.fst = (kvs.map Prod.fst).map CStr.ofBytes := by
  rw [imageEntries_eq, List.map_map, List.map_map]
  rfl

/-- **A string or map is kept exactly when it is clean.** -/
theorem kept_iff_clean (m : Msg) : Kept m ↔ Clean m := by
  constructor
  · rintro ⟨hstr, hmap⟩
    constructor
    · rintro s rfl
      exact CStr.length_ofBytes_eq_iff.mp (hstr s _ rfl rfl)
    · rintro kvs rfl
      have hused := hmap kvs _ rfl rfl
      rw [Dict.used_ofList, map_fst_imageEntries] at hused
      exact (length_dedup_map CStr.ofBytes _).mp hused
  · rintro ⟨hstr, hmap⟩
    constructor
    · rintro s text rfl himg
      obtain rfl : CStr.ofBytes s = text := Exp.string.inj himg
      exact CStr.length_ofBytes_eq_iff.mpr (hstr s rfl)
    · rintro kvs d rfl himg
      obtain rfl : Dict.ofList (imageEntries kvs) = d := Exp.dict.inj himg
      rw [Dict.used_ofList, map_fst_imageEntries]
      exact (length_dedup_map CStr.ofBytes _).mpr (hmap kvs rfl)

/-- **Decoding any bytes.** The decoder reads inside the buffer, leaves its position in it, and its
depth stays below `mpMaxDepth + 2`. What `msgpack-decode` accepts is one message, and nothing of the
strings and maps inside is dropped exactly when they are clean. -/
theorem msgpackdecode_lossless (b : List UInt8) :
    (mpDecode (mpMaxDepth + 2) 0 b 0).Within b.length ∧
      ∀ v, msgpackdecodecmd b = some v → ∃ m, Msg.Wire m b [] ∧ v = image m ∧
        ((∀ x, Msg.Sub x m → Kept x) ↔ ∀ x, Msg.Sub x m → Clean x) := by
  have hreads : (mpDecode (mpMaxDepth + 2) 0).Reads b fun v r => ∃ m, Msg.Wire m b r ∧ v = image m :=
    mpDecode_reads (by decide) (by decide) b
  refine ⟨hreads.within (At.start b), fun v hv => ?_⟩
  unfold msgpackdecodecmd at hv
  split at hv
  · next v' pos hok =>
    split at hv
    · next hend =>
      cases hv
      obtain ⟨r, hr, m, hm, rfl⟩ := hreads.of_ok (At.start b) hok
      obtain rfl : r = [] := hr.eq_nil_iff.mpr hend
      exact ⟨m, hm, rfl, forall_congr' fun x => by rw [kept_iff_clean]⟩
    · cases hv
  · cases hv

/-- The two keys `"a\x00x"` and `"a\x00y"` are accepted, and the dict has one entry. -/
theorem exists_merged_keys : ∃ m d,
    msgpackdecodecmd [0x82, 0xa3, 97, 0, 120, 1, 0xa3, 97, 0, 121, 2] = some (.dict d) ∧
      Msg.Wire m [0x82, 0xa3, 97, 0, 120, 1, 0xa3, 97, 0, 121, 2] [] ∧ image m = .dict d ∧
        d.used = 1 ∧ ¬ Kept m := by
  have hkey {c : UInt8} {r : List UInt8} : Msg.StrHeader 3 (0xa3 :: 97 :: 0 :: c :: r)
      ([97, 0, c] ++ r) := .fix (by decide)
  refine ⟨.map [([97, 0, 120], .int 1), ([97, 0, 121], .int 2)], _, rfl, ?_, rfl, rfl, ?_⟩
  · exact .map (.fix (by decide)) (.cons hkey (.positive (n := 1) (by decide))
      (.cons hkey (.positive (n := 2) (by decide)) .nil))
  · rw [kept_iff_clean]
    rintro ⟨-, hmap⟩
    have := hmap _ rfl [97, 0, 120] (by simp) [97, 0, 121] (by simp) (by decide)
    simp at this

/-- The fixint 7 alone: accepted, and nothing to lose. -/
theorem msgpackdecode_lossless_seven : (mpDecode (mpMaxDepth + 2) 0 [7] 0).Within 1 ∧
    ∃ m, Msg.Wire m [7] [] ∧ Exp.fix (makeFix 7) = image m ∧
      ((∀ x, Msg.Sub x m → Kept x) ↔ ∀ x, Msg.Sub x m → Clean x) :=
  ⟨(msgpackdecode_lossless [7]).1, (msgpackdecode_lossless [7]).2 _ rfl⟩

end Alcove.Msgpack
