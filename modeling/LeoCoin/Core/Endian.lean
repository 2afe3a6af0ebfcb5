import LeoCoin.Library.ByteOrder
import LeoCoin.Library.Memory
import Mathlib.Tactic.Positivity

/-!
# Endianness

The two conversions the serializers go through.

Both are written against the memory of a variable: `htobe64` fills the bytes
of its result one by one, and `betoh64` picks the bytes of its argument one by
one. What the caller then does with the integer is a store or a load in the
order of the host. The conversion and the store together put the big endian
spelling into memory on either host, and the load and the conversion together
read it back. Those two facts are all the serializers rely on.

## Main definitions

* `storeUInt64`: The memory after storing an integer.
* `loadUInt64`: The integer a load returns.
* `htobe64`: The big endian representation of an integer.
* `betoh64`: The integer of a big endian representation.

## Theorems

* `storeUInt64_htobe64`: A converted store writes the big endian spelling.
* `betoh64_loadUInt64`: A converted load reads the big endian value.
-/

namespace LeoCoin

/-- The memory after `*(uint64_t *)p = x`. -/
def storeUInt64 (host : ByteOrder) (x : UInt64) : List UInt8 := host.image 8 x.toNat

/-- The value of `*(uint64_t *)p`. -/
def loadUInt64 (host : ByteOrder) (p : Bytes 8) : UInt64 := UInt64.ofNat (host.value p.toList)

def htobe64 (host : ByteOrder) (data : UInt64) : UInt64 :=
  UInt64.ofNat (host.value
    [(data >>> 56).toUInt8, (data >>> 48).toUInt8, (data >>> 40).toUInt8, (data >>> 32).toUInt8,
      (data >>> 24).toUInt8, (data >>> 16).toUInt8, (data >>> 8).toUInt8, (data >>> 0).toUInt8])

def betoh64 (host : ByteOrder) (data : UInt64) : UInt64 :=
  let p := fun i => ((host.image 8 data.toNat).getD i 0).toUInt64
  (p 0 <<< 56) ||| (p 1 <<< 48) ||| (p 2 <<< 40) ||| (p 3 <<< 32) |||
    (p 4 <<< 24) ||| (p 5 <<< 16) ||| (p 6 <<< 8) ||| (p 7 <<< 0)

@[simp]
theorem storeUInt64_length (host : ByteOrder) (x : UInt64) : (storeUInt64 host x).length = 8 :=
  host.image_length 8 x.toNat

theorem storeUInt64_inj (host : ByteOrder) (x y : UInt64)
    (h : storeUInt64 host x = storeUInt64 host y) : x = y :=
  UInt64.toNat_inj.mp (host.image_inj 8 _ _ x.toNat_lt y.toNat_lt h)

/-- Storing a loaded value restores the memory. -/
theorem storeUInt64_ofNat_value (host : ByteOrder) (bs : List UInt8) (h : bs.length = 8) :
    storeUInt64 host (UInt64.ofNat (host.value bs)) = bs := by
  have hlt : host.value bs < 2 ^ 64 := by
    have hv := host.value_lt bs
    rwa [h] at hv
  rw [storeUInt64, UInt64.toNat_ofNat', Nat.mod_eq_of_lt hlt, ← h, host.image_value]

/-- A shifted integer truncated to a byte is one byte of its spelling. -/
theorem shiftRight_toUInt8 (x : UInt64) (k : Nat) (hk : k < 8) :
    (x >>> UInt64.ofNat (8 * k)).toUInt8 = UInt8.ofNat (x.toNat / 256 ^ k) := by
  apply UInt8.toNat_inj.mp
  have hsmall : (UInt64.ofNat (8 * k)).toNat % 64 = 8 * k := by
    rw [UInt64.toNat_ofNat', Nat.mod_eq_of_lt (by omega), Nat.mod_eq_of_lt (by omega)]
  rw [UInt64.toNat_toUInt8, UInt64.toNat_shiftRight, hsmall, Nat.shiftRight_eq_div_pow, pow_mul,
    UInt8.toNat_ofNat', show (2 : Nat) ^ 8 = 256 from rfl]

/-- A converted store writes the big endian spelling, on either host. -/
theorem storeUInt64_htobe64 (host : ByteOrder) (x : UInt64) :
    storeUInt64 host (htobe64 host x) = bigEndian 8 x.toNat := by
  -- The store undoes the load inside the conversion and leaves the bytes picked.
  rw [htobe64, storeUInt64_ofNat_value host _ rfl]
  simp only [bigEndian, ← shiftRight_toUInt8 x _ (show 0 < 8 by omega),
    ← shiftRight_toUInt8 x _ (show 1 < 8 by omega), ← shiftRight_toUInt8 x _ (show 2 < 8 by omega),
    ← shiftRight_toUInt8 x _ (show 3 < 8 by omega), ← shiftRight_toUInt8 x _ (show 4 < 8 by omega),
    ← shiftRight_toUInt8 x _ (show 5 < 8 by omega), ← shiftRight_toUInt8 x _ (show 6 < 8 by omega),
    ← shiftRight_toUInt8 x _ (show 7 < 8 by omega)]
  rfl

/-- Combining a shifted value with one below the shift adds them. -/
theorem or_shiftLeft_toNat (p q : UInt64) (k : Nat) (hk : k < 64)
    (hp : p.toNat < 2 ^ (64 - k)) (hq : q.toNat < 2 ^ k) :
    ((p <<< UInt64.ofNat k) ||| q).toNat = p.toNat * 2 ^ k + q.toNat := by
  -- The shift is below the width, so its count is not reduced.
  have hmod : (UInt64.ofNat k).toNat % 64 = k := by
    rw [UInt64.toNat_ofNat', Nat.mod_eq_of_lt (show k < 2 ^ 64 by omega), Nat.mod_eq_of_lt hk]
  -- No bit of the shifted value is lost.
  have hfit : p.toNat <<< k < 2 ^ 64 := by
    rw [Nat.shiftLeft_eq, show 64 = (64 - k) + k by omega, pow_add]
    exact Nat.mul_lt_mul_of_pos_right hp (by positivity)
  rw [UInt64.toNat_or, UInt64.toNat_shiftLeft, hmod, Nat.mod_eq_of_lt hfit,
    ← Nat.shiftLeft_add_eq_or_of_lt hq, Nat.shiftLeft_eq]

/-- A converted load reads the big endian value, on either host. -/
theorem betoh64_loadUInt64 (host : ByteOrder) (p : Bytes 8) :
    betoh64 host (loadUInt64 host p) = UInt64.ofNat (bigEndianValue p.toList) := by
  rcases p with ⟨bs, hbs⟩
  -- The memory of the argument is the memory that was loaded.
  have himage : host.image 8 (loadUInt64 host ⟨bs, hbs⟩).toNat = bs :=
    storeUInt64_ofNat_value host bs hbs
  unfold betoh64
  rw [himage]
  match bs, hbs with
  | [b0, b1, b2, b3, b4, b5, b6, b7], _ =>
      -- Fold the disjunction from the least significant byte up.
      have hstep : ∀ (b : UInt8) (q : UInt64) (k : Nat), k ≤ 56 → q.toNat < 2 ^ k →
          ((b.toUInt64 <<< UInt64.ofNat k) ||| q).toNat = b.toNat * 2 ^ k + q.toNat := by
        intro b q k hk hq
        have hb : b.toUInt64.toNat < 2 ^ (64 - k) := by
          rw [UInt8.toNat_toUInt64]
          exact Nat.lt_of_lt_of_le b.toNat_lt (Nat.pow_le_pow_right (by omega) (by omega))
        rw [or_shiftLeft_toNat _ q k (by omega) hb hq, UInt8.toNat_toUInt64]
      have h7 : (b7.toUInt64 <<< 0).toNat = b7.toNat := by
        rw [UInt64.shiftLeft_zero, UInt8.toNat_toUInt64]
      have e0 := b0.toNat_lt
      have e1 := b1.toNat_lt
      have e2 := b2.toNat_lt
      have e3 := b3.toNat_lt
      have e4 := b4.toNat_lt
      have e5 := b5.toNat_lt
      have e6 := b6.toNat_lt
      have e7 := b7.toNat_lt
      have h6 := hstep b6 _ 8 (by omega) (by rw [h7]; omega)
      have h5 := hstep b5 _ 16 (by omega) (by rw [h6, h7]; omega)
      have h4 := hstep b4 _ 24 (by omega) (by rw [h5, h6, h7]; omega)
      have h3 := hstep b3 _ 32 (by omega) (by rw [h4, h5, h6, h7]; omega)
      have h2 := hstep b2 _ 40 (by omega) (by rw [h3, h4, h5, h6, h7]; omega)
      have h1 := hstep b1 _ 48 (by omega) (by rw [h2, h3, h4, h5, h6, h7]; omega)
      have h0 := hstep b0 _ 56 (by omega) (by rw [h1, h2, h3, h4, h5, h6, h7]; omega)
      apply UInt64.toNat_inj.mp
      simp only [List.getD_cons_zero, List.getD_cons_succ, UInt64.or_assoc]
      refine h0.trans ?_
      rw [h1, h2, h3, h4, h5, h6, h7, UInt64.toNat_ofNat']
      simp only [List.Vector.toList_mk, bigEndianValue, List.length_cons, List.length_nil]
      omega

end LeoCoin
