import Mathlib.Data.List.Basic

/-!
# Support — UTF-16

A string of 16-bit units and the characters it stands for.  `Paired` says that every surrogate is
half of a pair; `utf16Decode` reads such a string, and `utf16Encode` gives it back
(`utf16Encode_decode`).
-/

namespace Support

/-- The first half of a surrogate pair. -/
def isHigh (u : UInt16) : Bool := 0xD800 ≤ u.toNat && u.toNat < 0xDC00

/-- The second half of a surrogate pair. -/
def isLow (u : UInt16) : Bool := 0xDC00 ≤ u.toNat && u.toNat < 0xE000

def isSurrogate (u : UInt16) : Bool := isHigh u || isLow u

def utf16EncodeChar (c : Char) : List UInt16 :=
  if c.toNat < 0x10000 then [.ofNat c.toNat]
  else
    [.ofNat (0xD800 + (c.toNat - 0x10000) / 0x400),
      .ofNat (0xDC00 + (c.toNat - 0x10000) % 0x400)]

def utf16Encode (l : List Char) : List UInt16 := l.flatMap utf16EncodeChar

/-- The character of a surrogate pair. -/
def pairChar (u v : UInt16) : Char :=
  .ofNat (0x10000 + (u.toNat - 0xD800) * 0x400 + (v.toNat - 0xDC00))

/-- No surrogate is without its other half. -/
inductive Paired : List UInt16 → Prop where
  | nil : Paired []
  | unit {u : UInt16} {s : List UInt16} : isSurrogate u = false → Paired s → Paired (u :: s)
  | pair {u v : UInt16} {s : List UInt16} : isHigh u → isLow v → Paired s → Paired (u :: v :: s)

def utf16Decode : List UInt16 → List Char
  | [] => []
  | [u] => [.ofNat u.toNat]
  | u :: v :: s => if isHigh u then pairChar u v :: utf16Decode s
      else .ofNat u.toNat :: utf16Decode (v :: s)

/-! ### Characters -/

theorem toNat_ofNat {n : Nat} (h : n.isValidChar) : (Char.ofNat n).toNat = n := by
  rw [Char.ofNat, dif_pos h]
  rfl

theorem isValidChar_unit {u : UInt16} (h : isSurrogate u = false) : u.toNat.isValidChar := by
  have := u.toNat_lt
  simp only [isSurrogate, isHigh, isLow, Bool.or_eq_false_iff, Bool.and_eq_false_iff,
    decide_eq_false_iff_not] at h
  rcases h with ⟨h | h, h' | h'⟩
  · exact .inl (by omega)
  · exact .inl (by omega)
  · exact absurd h (by omega)
  · exact .inr ⟨by omega, by omega⟩

theorem toNat_unit {u : UInt16} (h : isSurrogate u = false) :
    (Char.ofNat u.toNat).toNat = u.toNat :=
  toNat_ofNat (isValidChar_unit h)

theorem toNat_pairChar {u v : UInt16} (hu : isHigh u) (hv : isLow v) : (pairChar u v).toNat =
    0x10000 + (u.toNat - 0xD800) * 0x400 + (v.toNat - 0xDC00) := by
  simp only [isHigh, isLow, Bool.and_eq_true, decide_eq_true_eq] at hu hv
  exact toNat_ofNat (.inr ⟨by omega, by omega⟩)

theorem encode_unit {u : UInt16} (h : isSurrogate u = false) :
    utf16EncodeChar (.ofNat u.toNat) = [u] := by
  have := u.toNat_lt
  rw [utf16EncodeChar, toNat_unit h, if_pos this, UInt16.ofNat_toNat]

theorem encode_pair {u v : UInt16} (hu : isHigh u) (hv : isLow v) :
    utf16EncodeChar (pairChar u v) = [u, v] := by
  rw [utf16EncodeChar, toNat_pairChar hu hv, if_neg (by omega)]
  simp only [isHigh, isLow, Bool.and_eq_true, decide_eq_true_eq] at hu hv
  have h₁ : 0xD800 + (0x10000 + (u.toNat - 0xD800) * 0x400 + (v.toNat - 0xDC00) - 0x10000) / 0x400 =
      u.toNat := by omega
  have h₂ : 0xDC00 + (0x10000 + (u.toNat - 0xD800) * 0x400 + (v.toNat - 0xDC00) - 0x10000) % 0x400 =
      v.toNat := by omega
  rw [h₁, h₂, UInt16.ofNat_toNat, UInt16.ofNat_toNat]

/-! ### Strings -/

theorem isHigh_of_not {u : UInt16} (h : isSurrogate u = false) : isHigh u = false :=
  (Bool.or_eq_false_iff.mp h).1

theorem decode_unit {u : UInt16} (h : isSurrogate u = false) (s : List UInt16) :
    utf16Decode (u :: s) = .ofNat u.toNat :: utf16Decode s := by
  cases s with
  | nil => rfl
  | cons v s => rw [utf16Decode, isHigh_of_not h]; rfl

theorem decode_pair {u v : UInt16} (hu : isHigh u) (s : List UInt16) :
    utf16Decode (u :: v :: s) = pairChar u v :: utf16Decode s := by
  rw [utf16Decode, if_pos hu]

/-- **Decoding loses nothing.** -/
theorem utf16Encode_decode {s : List UInt16} (h : Paired s) : utf16Encode (utf16Decode s) = s := by
  induction h with
  | nil => rfl
  | unit hu _ ih =>
      rw [decode_unit hu, utf16Encode, List.flatMap_cons, encode_unit hu, ← utf16Encode, ih,
        List.singleton_append]
  | pair hu hv _ ih =>
      rw [decode_pair hu, utf16Encode, List.flatMap_cons, encode_pair hu hv, ← utf16Encode, ih]
      rfl

theorem Paired.append {s t : List UInt16} (hs : Paired s) (ht : Paired t) : Paired (s ++ t) := by
  induction hs with
  | nil => exact ht
  | unit hu _ ih => exact .unit hu ih
  | pair hu hv _ ih => exact .pair hu hv ih

end Support
