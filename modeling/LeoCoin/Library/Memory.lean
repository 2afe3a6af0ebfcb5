import Mathlib.Data.List.Basic
import Mathlib.Data.List.GetD
import Mathlib.Data.Vector.Basic

/-!
# Objects in Memory

What a C program sees through a pointer.

A pointer does not know where its object ends. `extend` is the memory that
begins at an object: its own bytes, then whatever lies past it. Code that
stays inside the object never depends on the second half, and that is what
`slice_extend` says; code that overruns the object reads the second half,
and the model then says what it reads instead of leaving it out.

`memcmp` compares memory the way the C library does, up to a length the
caller chooses, which may exceed either object.

An `Allocator` answers each request by its call number and size, so any
pattern of failures is some allocator. The one law it carries is that no
request above `PTRDIFF_MAX` bytes is granted: no object of that size exists.

## Main definitions

* `Bytes`: An array of a fixed number of bytes.
* `extend`: The memory beginning at an object.
* `slice`: Consecutive bytes of memory.
* `memcmp`: The C library's comparison of two pieces of memory.
* `Allocator`: The outcomes of a sequence of allocation requests.
* `Allocator.Obtains`: A result that only a refused request can spoil.

## Theorems

* `slice_extend`: A slice inside an object is a piece of the object.
* `flatten_map_length`: Encodings of one width add up to it.
* `flatten_map_inj`: Encodings of one width can be told apart.
* `flatten_map_eq`: Encodings that are equally long agree one by one.
* `memcmp_eq_zero_iff`: A comparison is zero when all bytes agree.
* `memcmp_extend_eq_zero_iff`: Comparing whole objects compares their bytes.
* `Allocator.Grants.le_max`: What an allocator grants fits in an object.
-/

/-- An array of `n` bytes. -/
abbrev Bytes (n : Nat) : Type := List.Vector UInt8 n

/-- The array of `n` zero bytes. -/
def Bytes.zero (n : Nat) : Bytes n := ⟨List.replicate n 0, List.length_replicate⟩

/-- The memory beginning at an object: its bytes, then what lies past it. -/
def extend (bs : List UInt8) (beyond : Nat → UInt8) : Nat → UInt8 :=
  fun i => if h : i < bs.length then bs[i] else beyond (i - bs.length)

/-- The `n` bytes of memory from `start` on. -/
def slice (mem : Nat → UInt8) (start n : Nat) : List UInt8 :=
  (List.range n).map fun i => mem (start + i)

@[simp]
theorem slice_length (mem : Nat → UInt8) (start n : Nat) : (slice mem start n).length = n := by
  rw [slice, List.length_map, List.length_range]

theorem slice_getElem (mem : Nat → UInt8) (start n i : Nat) (h : i < (slice mem start n).length) :
    (slice mem start n)[i] = mem (start + i) := by
  simp only [slice, List.getElem_map, List.getElem_range]

theorem slice_append (mem : Nat → UInt8) (start m n : Nat) :
    slice mem start (m + n) = slice mem start m ++ slice mem (start + m) n := by
  unfold slice
  rw [List.range_add, List.map_append, List.map_map]
  congr 1
  refine List.map_congr_left ?_
  intro i _
  simp only [Function.comp_apply, Nat.add_assoc]

theorem extend_of_lt (bs : List UInt8) (beyond : Nat → UInt8) (i : Nat) (h : i < bs.length) :
    extend bs beyond i = bs[i] := by
  rw [extend, dif_pos h]

/-- A slice that begins where a piece of the object begins, and is as long as
    that piece, is the piece. -/
theorem slice_extend (xs bs ys : List UInt8) (beyond : Nat → UInt8) :
    slice (extend (xs ++ bs ++ ys) beyond) xs.length bs.length = bs := by
  refine List.ext_getElem (slice_length _ _ _) ?_
  intro i h1 h2
  -- Every index of the piece is inside the object, so `beyond` is never asked.
  rw [slice_getElem, extend_of_lt _ _ _ (by simp only [List.length_append]; omega)]
  rw [List.getElem_append_left (by simp only [List.length_append]; omega),
    List.getElem_append_right (by omega)]
  simp only [Nat.add_sub_cancel_left]

/-- A slice inside the object is the corresponding piece of its bytes. -/
theorem slice_extend_inside (bs : List UInt8) (beyond : Nat → UInt8) (start n : Nat)
    (h : start + n ≤ bs.length) :
    slice (extend bs beyond) start n = (bs.drop start).take n := by
  refine List.ext_getElem ?_ ?_
  · rw [slice_length, List.length_take, List.length_drop]
    omega
  · intro i h1 h2
    rw [slice_length] at h1
    rw [slice_getElem, extend_of_lt _ _ _ (by omega), List.getElem_take, List.getElem_drop]

/-- A concatenation of encodings of one width has that width for each. -/
theorem flatten_map_length {α : Type} (f : α → List UInt8) (w : Nat)
    (hlen : ∀ a, (f a).length = w) (xs : List α) : (xs.map f).flatten.length = w * xs.length := by
  induction xs with
  | nil => rfl
  | cons x xs ih =>
      rw [List.map_cons, List.flatten_cons, List.length_append, hlen, ih, List.length_cons,
        Nat.mul_add, Nat.mul_one, Nat.add_comm]

/-- Encodings of one positive width can be told apart in a concatenation. -/
theorem flatten_map_inj {α : Type} (f : α → List UInt8) (w : Nat) (hw : 0 < w)
    (hlen : ∀ a, (f a).length = w) (hinj : ∀ a b, f a = f b → a = b) (xs ys : List α)
    (h : (xs.map f).flatten = (ys.map f).flatten) : xs = ys := by
  induction xs generalizing ys with
  | nil =>
      cases ys with
      | nil => rfl
      | cons y ys =>
          -- An encoding of positive width cannot be empty.
          have hl := congrArg List.length h
          simp only [List.map_nil, List.flatten_nil, List.map_cons, List.flatten_cons,
            List.length_nil, List.length_append, hlen] at hl
          omega
  | cons x xs ih =>
      cases ys with
      | nil =>
          have hl := congrArg List.length h
          simp only [List.map_nil, List.flatten_nil, List.map_cons, List.flatten_cons,
            List.length_nil, List.length_append, hlen] at hl
          omega
      | cons y ys =>
          simp only [List.map_cons, List.flatten_cons] at h
          -- Both heads take up the width, so the concatenations split at one place.
          rcases List.append_inj h (by rw [hlen, hlen]) with ⟨hx, hxs⟩
          rw [hinj x y hx, ih ys hxs]

/-- Concatenations of encodings that are equally long agree only if the
    encodings do. -/
theorem flatten_map_eq {α : Type} (f g : α → List UInt8)
    (hlen : ∀ a, (f a).length = (g a).length) (xs : List α)
    (h : (xs.map f).flatten = (xs.map g).flatten) : ∀ x ∈ xs, f x = g x := by
  induction xs with
  | nil => exact fun x hx => absurd hx List.not_mem_nil
  | cons a xs ih =>
      simp only [List.map_cons, List.flatten_cons] at h
      rcases List.append_inj h (hlen a) with ⟨ha, hxs⟩
      intro x hx
      rcases List.mem_cons.mp hx with rfl | hmem
      · exact ha
      · exact ih hxs x hmem

/-- The C library's `memcmp`: the difference of the first two bytes that
    differ among the first `n`, or zero. -/
def memcmp (a b : Nat → UInt8) (n : Nat) : Int :=
  match (List.range n).find? fun i => a i != b i with
  | some i => (a i).toNat - (b i).toNat
  | none => 0

theorem memcmp_eq_zero_iff (a b : Nat → UInt8) (n : Nat) :
    memcmp a b n = 0 ↔ ∀ i, i < n → a i = b i := by
  unfold memcmp
  cases hfind : (List.range n).find? fun i => a i != b i with
  | none =>
      rw [List.find?_eq_none] at hfind
      refine ⟨?_, fun _ => rfl⟩
      intro _ i hi
      have h := hfind i (List.mem_range.mpr hi)
      simpa only [bne_iff_ne, ne_eq, Decidable.not_not] using h
  | some i =>
      have hne : a i ≠ b i := by
        have h := List.find?_some hfind
        simpa only [bne_iff_ne, ne_eq] using h
      have hlt : i < n := List.mem_range.mp (List.mem_of_find?_eq_some hfind)
      -- A difference of zero would make the first differing bytes equal.
      refine ⟨fun h => absurd (UInt8.toNat_inj.mp ?_) hne, fun h => absurd (h i hlt) hne⟩
      simp only at h
      omega

/-- Comparing two whole objects of one size compares their bytes, whatever
    lies past either. -/
theorem memcmp_extend_eq_zero_iff {n : Nat} (a b : Bytes n) (ta tb : Nat → UInt8) :
    memcmp (extend a.toList ta) (extend b.toList tb) n = 0 ↔ a = b := by
  rw [memcmp_eq_zero_iff]
  constructor
  · intro h
    refine List.Vector.eq a b (List.ext_getElem (by simp only [List.Vector.toList_length]) ?_)
    intro i h1 h2
    have hi := h i (by rwa [List.Vector.toList_length] at h1)
    rwa [extend_of_lt _ _ _ h1, extend_of_lt _ _ _ h2] at hi
  · intro h i hi
    subst h
    rw [extend_of_lt _ _ _ (by rwa [List.Vector.toList_length]),
      extend_of_lt _ _ _ (by rwa [List.Vector.toList_length])]

/-- The largest object a pointer difference can measure. -/
def PTRDIFF_MAX : Nat := 2 ^ 63 - 1

/-- The outcome of every allocation request, by call number and size. -/
structure Allocator where
  grants : Nat → Nat → Bool
  bounded : ∀ k n, grants k n = true → n ≤ PTRDIFF_MAX

namespace Allocator

/-- Every request of at most `n` bytes is granted. -/
def Grants (a : Allocator) (n : Nat) : Prop := ∀ k m, m ≤ n → a.grants k m = true

theorem Grants.le_max {a : Allocator} {n : Nat} (h : a.Grants n) : n ≤ PTRDIFF_MAX :=
  a.bounded 0 n (h 0 n (Nat.le_refl n))

theorem Grants.mono {a : Allocator} {m n : Nat} (h : a.Grants n) (hmn : m ≤ n) : a.Grants m :=
  fun k i hi => h k i (Nat.le_trans hi hmn)

/-- A fallible result that is `x` unless the allocator refuses a request of at
    most `n` bytes. -/
def Obtains {ε α : Type} (a : Allocator) (n : Nat) (e : ε) (r : Except ε α) (x : α) : Prop :=
  r = .ok x ∨ (r = .error e ∧ ¬ a.Grants n)

/-- A single request guards its result. -/
theorem obtains_ite {ε α : Type} (a : Allocator) (k n : Nat) (e : ε) (x : α) :
    a.Obtains n e (if a.grants k n then .ok x else .error e) x := by
  by_cases h : a.grants k n = true
  · exact Or.inl (if_pos h)
  · exact Or.inr ⟨if_neg h, fun hg => h (hg k n (Nat.le_refl n))⟩

theorem Obtains.mono {ε α : Type} {a : Allocator} {m n : Nat} {e : ε} {r : Except ε α} {x : α}
    (h : a.Obtains m e r x) (hmn : m ≤ n) : a.Obtains n e r x :=
  h.imp_right fun hr => ⟨hr.1, fun hg => hr.2 (hg.mono hmn)⟩

/-- The allocator that grants whatever can exist. -/
def generous : Allocator where
  grants _ n := decide (n ≤ PTRDIFF_MAX)
  bounded _ _ h := of_decide_eq_true h

theorem generous_grants (n : Nat) (h : n ≤ PTRDIFF_MAX) : generous.Grants n :=
  fun _ _ hm => decide_eq_true (Nat.le_trans hm h)

end Allocator
