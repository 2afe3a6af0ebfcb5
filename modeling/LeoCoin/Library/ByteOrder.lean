import Mathlib.Data.List.Basic
import Mathlib.Tactic.Positivity
import Mathlib.Tactic.Ring

/-!
# Byte Orders

How an unsigned integer of a fixed width lies in memory.

`bigEndian` spells a number most significant byte first and
`bigEndianValue` reads such a spelling back. The two are inverse in both
directions: a spelling reads back as the number reduced to the width, and
every byte string is the spelling of its own value. The second direction is
what a canonicity argument needs, and it is why the width is the length of
the string rather than a separate argument.

A host stores its integers in one of two orders. `ByteOrder.image` is the
memory a stored integer occupies and `ByteOrder.value` is what a load of that
memory returns, so a store followed by a load is the identity on either host
while the bytes in between differ.

## Main definitions

* `bigEndian`: The bytes of a number, most significant first.
* `bigEndianValue`: The number a byte string spells.
* `ByteOrder.image`: The memory image of a stored integer.
* `ByteOrder.value`: The integer a load of some memory returns.
* `ByteSymmetric`: A number whose spelling reads the same from both ends.

## Theorems

* `bigEndianValue_bigEndian`: A spelling reads back modulo the width.
* `bigEndian_bigEndianValue`: A byte string is the spelling of its value.
* `ByteOrder.value_image`: A load returns what was stored.
* `ByteOrder.image_value`: Storing a loaded value restores the memory.
* `ByteOrder.image_eq_iff`: When two hosts store a number alike.
-/

/-- The low `w` bytes of a number, most significant first. -/
def bigEndian : Nat → Nat → List UInt8
  | 0, _ => []
  | w + 1, x => UInt8.ofNat (x / 256 ^ w) :: bigEndian w x

/-- The number that bytes spell, most significant first. -/
def bigEndianValue : List UInt8 → Nat
  | [] => 0
  | b :: bs => b.toNat * 256 ^ bs.length + bigEndianValue bs

@[simp]
theorem bigEndian_length (w x : Nat) : (bigEndian w x).length = w := by
  induction w with
  | zero => rfl
  | succ k ih => simp only [bigEndian, List.length_cons, ih]

theorem bigEndianValue_lt (bs : List UInt8) : bigEndianValue bs < 256 ^ bs.length := by
  induction bs with
  | nil => simp only [bigEndianValue, List.length_nil, pow_zero, Nat.zero_lt_one]
  | cons b bs ih =>
      have hb : b.toNat + 1 ≤ 256 := b.toNat_lt
      calc b.toNat * 256 ^ bs.length + bigEndianValue bs
          < b.toNat * 256 ^ bs.length + 256 ^ bs.length := by omega
        _ = (b.toNat + 1) * 256 ^ bs.length := by ring
        _ ≤ 256 * 256 ^ bs.length := Nat.mul_le_mul_right _ hb
        _ = 256 ^ (b :: bs).length := by rw [List.length_cons, pow_succ, Nat.mul_comm]

/-- A spelling reads back as the number, reduced to the width it holds. -/
theorem bigEndianValue_bigEndian (w x : Nat) : bigEndianValue (bigEndian w x) = x % 256 ^ w := by
  induction w with
  | zero => simp only [bigEndian, bigEndianValue, pow_zero, Nat.mod_one]
  | succ k ih =>
      have hb : (UInt8.ofNat (x / 256 ^ k)).toNat = x / 256 ^ k % 256 := UInt8.toNat_ofNat'
      -- The leading byte is the digit of weight `256 ^ k`, and the rest is below it.
      rw [bigEndian, bigEndianValue, ih, bigEndian_length, hb, pow_succ, Nat.mod_mul]
      ring

/-- A number that fits the width is read back. -/
theorem bigEndianValue_bigEndian_of_lt {w x : Nat} (h : x < 256 ^ w) :
    bigEndianValue (bigEndian w x) = x := by
  rw [bigEndianValue_bigEndian, Nat.mod_eq_of_lt h]

/-- Only the bytes inside the width are spelled. -/
theorem bigEndian_mul_add (w c x : Nat) : bigEndian w (c * 256 ^ w + x) = bigEndian w x := by
  induction w generalizing c with
  | zero => rfl
  | succ k ih =>
      -- What lies above the width is a multiple of the next byte's weight as well.
      have hpow : c * 256 ^ (k + 1) + x = c * 256 * 256 ^ k + x := by ring
      rw [bigEndian, bigEndian, hpow, ih]
      congr 1
      apply UInt8.toNat_inj.mp
      rw [Nat.add_comm, Nat.add_mul_div_right _ _ (by positivity)]
      simp only [UInt8.toNat_ofNat', Nat.add_mul_mod_self_right]

/-- Every byte string is the spelling of its own value. -/
theorem bigEndian_bigEndianValue (bs : List UInt8) :
    bigEndian bs.length (bigEndianValue bs) = bs := by
  induction bs with
  | nil => rfl
  | cons b bs ih =>
      have hlt := bigEndianValue_lt bs
      -- The first byte is the quotient by its weight, as the tail is smaller than that.
      rw [List.length_cons, bigEndian, bigEndianValue, bigEndian_mul_add, ih, Nat.add_comm,
        Nat.add_mul_div_right _ _ (by positivity), Nat.div_eq_of_lt hlt, Nat.zero_add,
        UInt8.ofNat_toNat]

/-- The low `w` bytes of a number read the same from both ends. -/
def ByteSymmetric (w x : Nat) : Prop := (bigEndian w x).reverse = bigEndian w x

instance (w x : Nat) : Decidable (ByteSymmetric w x) :=
  inferInstanceAs (Decidable ((bigEndian w x).reverse = bigEndian w x))

/-- The order in which a host stores the bytes of an integer. -/
inductive ByteOrder where
  | big
  | little
  deriving DecidableEq, Repr

namespace ByteOrder

/-- The memory a stored integer of `w` bytes occupies. -/
def image : ByteOrder → Nat → Nat → List UInt8
  | big, w, x => bigEndian w x
  | little, w, x => (bigEndian w x).reverse

/-- The integer a load of some memory returns. -/
def value : ByteOrder → List UInt8 → Nat
  | big, bs => bigEndianValue bs
  | little, bs => bigEndianValue bs.reverse

@[simp]
theorem image_length (o : ByteOrder) (w x : Nat) : (o.image w x).length = w := by
  cases o with
  | big => exact bigEndian_length w x
  | little => rw [image, List.length_reverse, bigEndian_length]

theorem value_lt (o : ByteOrder) (bs : List UInt8) : o.value bs < 256 ^ bs.length := by
  cases o with
  | big => exact bigEndianValue_lt bs
  | little =>
      have h := bigEndianValue_lt bs.reverse
      rwa [List.length_reverse] at h

theorem value_image (o : ByteOrder) (w x : Nat) : o.value (o.image w x) = x % 256 ^ w := by
  cases o with
  | big => exact bigEndianValue_bigEndian w x
  | little => rw [image, value, List.reverse_reverse, bigEndianValue_bigEndian]

theorem image_value (o : ByteOrder) (bs : List UInt8) : o.image bs.length (o.value bs) = bs := by
  cases o with
  | big => exact bigEndian_bigEndianValue bs
  | little =>
      have h := bigEndian_bigEndianValue bs.reverse
      rw [List.length_reverse] at h
      -- A little endian image is the big endian one of the reversed memory.
      rw [image, value, h, List.reverse_reverse]

/-- Two integers that fit the width and have one memory image are equal. -/
theorem image_inj (o : ByteOrder) (w x y : Nat) (hx : x < 256 ^ w) (hy : y < 256 ^ w)
    (h : o.image w x = o.image w y) : x = y := by
  have hv := congrArg o.value h
  rwa [value_image, value_image, Nat.mod_eq_of_lt hx, Nat.mod_eq_of_lt hy] at hv

/-- Two hosts store a number alike exactly if they have one byte order or the
    number reads the same from both ends. -/
theorem image_eq_iff (o o' : ByteOrder) (w x : Nat) :
    o.image w x = o'.image w x ↔ o = o' ∨ ByteSymmetric w x := by
  cases o with
  | big =>
      cases o' with
      | big => exact ⟨fun _ => Or.inl rfl, fun _ => rfl⟩
      | little => simp only [image, ByteSymmetric, reduceCtorEq, false_or, eq_comm]
  | little =>
      cases o' with
      | big => simp only [image, ByteSymmetric, reduceCtorEq, false_or]
      | little => exact ⟨fun _ => Or.inl rfl, fun _ => rfl⟩

end ByteOrder
