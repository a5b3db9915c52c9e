import Mathlib.Tactic.SplitIfs

/-! The order of texts is that of their UTF-8 bytes. Texts compare by code points; of two different
characters the smaller one is encoded with the smaller byte at the first place where their bytes
differ, so it does not matter what follows. -/

namespace PinnedDeps.Text

/-- The bytes in which a text is stored. -/
def bytes (text : String) : List UInt8 := text.toUTF8.data.toList

theorem bytes_eq_flatMap (text : String) :
    bytes text = text.toList.flatMap String.utf8EncodeChar := by
  rw [bytes, String.toUTF8, ← String.utf8Encode_toList, List.utf8Encode, List.data_toByteArray]

/-! ### Two characters -/

theorem cons_lt_cons {m n : Nat} {x y : List UInt8} (hm : m < 256) (hn : n < 256)
    (h : m < n ∨ m = n ∧ x < y) : UInt8.ofNat m :: x < UInt8.ofNat n :: y := by
  rw [List.cons_lt_cons_iff]
  rcases h with h | ⟨rfl, h⟩
  · left
    rwa [UInt8.lt_iff_toNat_lt, UInt8.toNat_ofNat_of_lt' hm, UInt8.toNat_ofNat_of_lt' hn]
  · exact .inr ⟨rfl, h⟩

section

variable {v w : Nat} (h : v < w) (x y : List UInt8)

include h

/-- Codes that agree up to their last six bits. -/
theorem last_byte_lt (hq : v / 64 = w / 64) :
    UInt8.ofNat (v % 64 + 128) :: x < UInt8.ofNat (w % 64 + 128) :: y :=
  cons_lt_cons (by omega) (by omega) (.inl (by omega))

theorem last_two_bytes_lt (hq : v / 4096 = w / 4096) :
    UInt8.ofNat (v / 64 % 64 + 128) :: UInt8.ofNat (v % 64 + 128) :: x <
      UInt8.ofNat (w / 64 % 64 + 128) :: UInt8.ofNat (w % 64 + 128) :: y := by
  rcases Nat.lt_or_eq_of_le (Nat.div_le_div_right (c := 64) (Nat.le_of_lt h)) with hd | hd
  · exact cons_lt_cons (by omega) (by omega) (.inl (by omega))
  · exact cons_lt_cons (by omega) (by omega) (.inr ⟨by omega, last_byte_lt h x y hd⟩)

theorem last_three_bytes_lt (hq : v / 262144 = w / 262144) :
    UInt8.ofNat (v / 4096 % 64 + 128) :: UInt8.ofNat (v / 64 % 64 + 128) ::
        UInt8.ofNat (v % 64 + 128) :: x <
      UInt8.ofNat (w / 4096 % 64 + 128) :: UInt8.ofNat (w / 64 % 64 + 128) ::
        UInt8.ofNat (w % 64 + 128) :: y := by
  rcases Nat.lt_or_eq_of_le (Nat.div_le_div_right (c := 4096) (Nat.le_of_lt h)) with hd | hd
  · exact cons_lt_cons (by omega) (by omega) (.inl (by omega))
  · exact cons_lt_cons (by omega) (by omega) (.inr ⟨by omega, last_two_bytes_lt h x y hd⟩)

end

/-- The smaller character has the smaller bytes, whatever follows the two. -/
theorem encode_lt_encode {c d : Char} (h : c < d) (x y : List UInt8) :
    String.utf8EncodeChar c ++ x < String.utf8EncodeChar d ++ y := by
  have hv : c.val.toNat < d.val.toNat := h
  have hd : d.val.toNat < 1114112 := by
    have hvalid := d.valid
    simp only [UInt32.isValidChar, Nat.isValidChar] at hvalid
    omega
  unfold String.utf8EncodeChar
  generalize c.val.toNat = v at *
  generalize d.val.toNat = w at *
  dsimp only
  have h₁ := Nat.lt_or_eq_of_le (Nat.div_le_div_right (c := 64) (Nat.le_of_lt hv))
  have h₂ := Nat.lt_or_eq_of_le (Nat.div_le_div_right (c := 4096) (Nat.le_of_lt hv))
  have h₃ := Nat.lt_or_eq_of_le (Nat.div_le_div_right (c := 262144) (Nat.le_of_lt hv))
  split_ifs <;> simp only [List.cons_append, List.nil_append]
  -- the longer code starts with the greater byte, and the second character has no shorter one
  all_goals try omega
  all_goals try exact cons_lt_cons (by omega) (by omega) (.inl (by omega))
  · rcases h₁ with h₁ | h₁
    · exact cons_lt_cons (by omega) (by omega) (.inl (by omega))
    · exact cons_lt_cons (by omega) (by omega) (.inr ⟨by omega, last_byte_lt hv x y h₁⟩)
  · rcases h₂ with h₂ | h₂
    · exact cons_lt_cons (by omega) (by omega) (.inl (by omega))
    · exact cons_lt_cons (by omega) (by omega) (.inr ⟨by omega, last_two_bytes_lt hv x y h₂⟩)
  · rcases h₃ with h₃ | h₃
    · exact cons_lt_cons (by omega) (by omega) (.inl (by omega))
    · exact cons_lt_cons (by omega) (by omega) (.inr ⟨by omega, last_three_bytes_lt hv x y h₃⟩)

/-! ### Two texts -/

theorem flatMap_encode_lt {a b : List Char} (h : a < b) :
    a.flatMap String.utf8EncodeChar < b.flatMap String.utf8EncodeChar := by
  induction a generalizing b with
  | nil =>
    cases b with
    | nil => exact absurd h (List.lt_irrefl [])
    | cons d b =>
      obtain ⟨byte, more, hd⟩ := List.exists_cons_of_ne_nil (String.utf8EncodeChar_ne_nil (c := d))
      rw [List.flatMap_nil, List.flatMap_cons, hd]
      exact List.nil_lt_cons byte _
  | cons c a ih =>
    cases b with
    | nil => exact absurd h (List.not_lt_nil _)
    | cons d b =>
      rw [List.flatMap_cons, List.flatMap_cons]
      rcases List.cons_lt_cons_iff.mp h with hcd | ⟨rfl, hab⟩
      · exact encode_lt_encode hcd _ _
      · exact List.append_left_lt (ih hab)

theorem bytes_lt {a b : String} (h : a < b) : bytes a < bytes b := by
  rw [bytes_eq_flatMap, bytes_eq_flatMap]
  exact flatMap_encode_lt (String.lt_iff.mp h)

/-- Texts in ascending order have their bytes in ascending order. -/
theorem bytes_le {a b : String} (h : a ≤ b) : bytes a ≤ bytes b := by
  by_cases hab : a < b
  · exact List.le_of_lt (bytes_lt hab)
  · rw [String.le_antisymm h (String.not_lt.mp hab)]
    exact List.le_refl _

end PinnedDeps.Text
