/-
  DocQuery.Proofs.Text.Order — the order of texts, by characters and by bytes.

  A text comes before another when the two part at some character, the first taking the lesser one, or
  when it is a part of the other's front. Parting (`Precedes`) is what goes on to longer texts
  (`Precedes.mono`). Characters with a greater code are encoded by greater bytes at the place where the
  encodings part (`encoded_lt`), so the order by characters is the order by bytes (`bytes_lt_iff`).
-/

import Mathlib.Data.List.Lex
import Mathlib.Data.List.TakeDrop
import Mathlib.Data.String.Basic
import Mathlib.Data.Char

namespace DocQuery.Text

section
variable {α : Type} [LT α]

/-- At some place the lists part, and the first goes on with the lesser. -/
def Precedes (a b : List α) : Prop := ∃ front x y, x < y ∧ front ++ [x] <+: a ∧ front ++ [y] <+: b

theorem Precedes.lt {a b : List α} (h : Precedes a b) : a < b := by
  obtain ⟨front, x, y, hxy, ⟨s, rfl⟩, ⟨t, rfl⟩⟩ := h
  rw [List.append_assoc, List.append_assoc]
  exact List.append_left_lt (List.cons_lt_cons_iff.mpr (.inl hxy))

theorem Precedes.mono {a b a' b' : List α} (h : Precedes a b) (ha : a <+: a') (hb : b <+: b') : Precedes a' b' := by
  obtain ⟨front, x, y, hxy, hx, hy⟩ := h
  exact ⟨front, x, y, hxy, hx.trans ha, hy.trans hb⟩

/-- A lesser list is the other's front or parts with it. -/
theorem prefix_or_precedes {a b : List α} (h : a < b) : a <+: b ∨ Precedes a b := by
  rcases List.lt_iff_exists.mp h with ⟨htake, -⟩ | ⟨i, ha, hb, hsame, hi⟩
  · exact .inl (List.prefix_iff_eq_take.mpr htake)
  · have hfront : a.take i = b.take i := List.ext_getElem (by simp; omega) fun k hk _ => by
      simp only [List.length_take] at hk
      simpa using hsame k (by omega)
    refine .inr ⟨a.take i, a[i], b[i], hi, ?_, ?_⟩
    · rw [List.take_concat_get']
      exact List.take_prefix _ _
    · rw [hfront, List.take_concat_get']
      exact List.take_prefix _ _

theorem lt_append {a b : List α} (h : b ≠ []) : a < a ++ b := by
  obtain ⟨x, r, rfl⟩ := List.exists_cons_of_ne_nil h
  exact List.lt_iff_exists.mpr (.inl ⟨by simp, by simp⟩)

end

/-! ## Bytes -/

/-- The text in UTF-8. -/
def bytes (s : String) : List UInt8 := s.toUTF8.data.toList

theorem bytes_eq (s : String) : bytes s = s.toList.flatMap String.utf8EncodeChar := by
  rw [bytes, String.toUTF8, ← String.ofList_toList (s := s), String.toByteArray_ofList, String.toList_ofList]
  exact List.toList_data_toByteArray

theorem byte_cons_lt {m n : Nat} (hm : m < 256) (hn : n < 256) {s t : List UInt8} (h : m < n ∨ m = n ∧ s < t) :
    UInt8.ofNat m :: s < UInt8.ofNat n :: t := by
  rw [List.cons_lt_cons_iff]
  rcases h with h | ⟨rfl, h⟩
  · refine .inl ?_
    rw [UInt8.lt_iff_toNat_lt, UInt8.toNat_ofNat', UInt8.toNat_ofNat']
    omega
  · exact .inr ⟨rfl, h⟩

/-- The lesser character has the lesser bytes, and neither encoding goes on where the other ends. -/
theorem encoded_lt {c d : Char} (h : c < d) (s t : List UInt8) :
    String.utf8EncodeChar c ++ s < String.utf8EncodeChar d ++ t := by
  have hlt : c.val.toNat < d.val.toNat := h
  have hd : d.val.toNat < 0xd800 ∨ 0xdfff < d.val.toNat ∧ d.val.toNat < 0x110000 := d.valid
  unfold String.utf8EncodeChar
  simp only
  generalize c.val.toNat = v at hlt
  generalize d.val.toNat = w at hlt hd
  split_ifs
  all_goals simp only [List.cons_append, List.nil_append]
  -- Encodings of different lengths part at once.
  all_goals first
    | omega
    | exact byte_cons_lt (by omega) (by omega) (.inl (by omega))
    | skip
  · have hparts : v / 64 % 32 + 192 < w / 64 % 32 + 192 ∨
        v / 64 % 32 + 192 = w / 64 % 32 + 192 ∧ v % 64 + 128 < w % 64 + 128 := by omega
    exact byte_cons_lt (by omega) (by omega)
      (hparts.imp_right fun h => ⟨h.1, byte_cons_lt (by omega) (by omega) (.inl h.2)⟩)
  · have hparts : v / 4096 % 16 + 224 < w / 4096 % 16 + 224 ∨ v / 4096 % 16 + 224 = w / 4096 % 16 + 224 ∧
        (v / 64 % 64 + 128 < w / 64 % 64 + 128 ∨ v / 64 % 64 + 128 = w / 64 % 64 + 128 ∧ v % 64 + 128 < w % 64 + 128) := by
      omega
    exact byte_cons_lt (by omega) (by omega) (hparts.imp_right fun h => ⟨h.1, byte_cons_lt (by omega) (by omega)
      (h.2.imp_right fun h => ⟨h.1, byte_cons_lt (by omega) (by omega) (.inl h.2)⟩)⟩)
  · have h6 : v / 64 ≤ w / 64 := Nat.div_le_div_right hlt.le
    have h12 : v / 4096 ≤ w / 4096 := Nat.div_le_div_right hlt.le
    have h18 : v / 262144 ≤ w / 262144 := Nat.div_le_div_right hlt.le
    -- The first quotient to differ decides.
    rcases h18.lt_or_eq with h | h
    · exact byte_cons_lt (by omega) (by omega) (.inl (by omega))
    rcases h12.lt_or_eq with h' | h'
    · exact byte_cons_lt (by omega) (by omega) (.inr ⟨by omega, byte_cons_lt (by omega) (by omega) (.inl (by omega))⟩)
    rcases h6.lt_or_eq with h'' | h''
    · exact byte_cons_lt (by omega) (by omega) (.inr ⟨by omega, byte_cons_lt (by omega) (by omega) (.inr ⟨by omega,
        byte_cons_lt (by omega) (by omega) (.inl (by omega))⟩)⟩)
    · exact byte_cons_lt (by omega) (by omega) (.inr ⟨by omega, byte_cons_lt (by omega) (by omega) (.inr ⟨by omega,
        byte_cons_lt (by omega) (by omega) (.inr ⟨by omega, byte_cons_lt (by omega) (by omega) (.inl (by omega))⟩)⟩)⟩)

theorem encoded_ne_nil (c : Char) : String.utf8EncodeChar c ≠ [] := by
  unfold String.utf8EncodeChar
  simp only
  split_ifs <;> simp

theorem bytes_lt {s t : String} (h : s < t) : bytes s < bytes t := by
  rw [bytes_eq, bytes_eq]
  have hlex : List.Lex (· < ·) s.toList t.toList := String.lt_iff.mp h
  generalize s.toList = a at hlex
  generalize t.toList = b at hlex
  induction hlex with
  | @nil d r =>
    rw [List.flatMap_cons]
    obtain ⟨x, more, hx⟩ := List.exists_cons_of_ne_nil (encoded_ne_nil d)
    rw [hx]
    exact List.nil_lt_cons ..
  | rel hcd =>
    rw [List.flatMap_cons, List.flatMap_cons]
    exact encoded_lt hcd _ _
  | cons _ ih =>
    rw [List.flatMap_cons, List.flatMap_cons]
    exact List.append_left_lt ih

/-- Texts are in the order of their bytes. -/
theorem bytes_lt_iff {s t : String} : bytes s < bytes t ↔ s < t := by
  constructor
  · intro h
    by_contra hle
    rcases eq_or_lt_of_le (not_lt.mp hle) with rfl | hlt
    · exact List.lt_irrefl _ h
    · exact List.lt_asymm h (bytes_lt hlt)
  · exact bytes_lt

end DocQuery.Text
