import LeoCoin.Theory.Canonical

/-!
# Cut Encodings

What the decoder makes of the first bytes of an encoded chain.

A file that was not written to its end holds the beginning of an encoding. The
counts in it are right as far as they are there, so the decoder takes the way
it would take with all of it, until a comparison fails. Nothing that it reads
before that lies behind the end of the buffer, with one exception: the
comparison made for a signature covers the stored length, and the whole array
is read.

`neededSize` is where the last comparison ends. An encoding cut off before it
is refused, with the code for too few bytes. An encoding cut off behind it is
accepted, and what is missing of the last signature array is read from the
memory behind the buffer. At most the 512 bytes of one array can be missing.

## Main definitions

* `HoldsWithin`: Bytes lie at an offset as far as a buffer goes.
* `transactionsNeeded`, `blocksNeeded`, `neededSize`: Where the comparisons end.
* `LengthsAdmitted`: The stored lengths are not refused themselves.

## Theorems

* `wp_blockchainDeserialize_within`: The decoder on a cut encoding.
* `blockchainDeserialize_cut`: What it returns.
* `neededSize_le`, `le_neededSize`: How much can be missing.
-/

namespace LeoCoin

open Decoder

-- The decoders are looked at through the rules of `wp` only.
attribute [local irreducible] wp

/-- The bytes lie at an offset as far as the buffer has them. -/
def HoldsWithin (b : Buffer) (p : Nat) (bs : List UInt8) : Prop :=
  ∀ i (h : i < bs.length), p + i < b.size → b.byte (p + i) = bs[i]

theorem holdsWithin_append (b : Buffer) (p : Nat) (xs ys : List UInt8) :
    HoldsWithin b p (xs ++ ys) ↔ HoldsWithin b p xs ∧ HoldsWithin b (p + xs.length) ys := by
  constructor
  · intro h
    refine ⟨fun i hi hlt => ?_, fun i hi hlt => ?_⟩
    · rw [h i (by rw [List.length_append]; omega) hlt, List.getElem_append_left hi]
    · rw [Nat.add_assoc, h (xs.length + i) (by rw [List.length_append]; omega) (by omega),
        List.getElem_append_right (Nat.le_add_right _ _)]
      simp only [Nat.add_sub_cancel_left]
  · rintro ⟨hx, hy⟩ i hi hlt
    by_cases hfirst : i < xs.length
    · rw [List.getElem_append_left hfirst]
      exact hx i hfirst hlt
    · rw [List.length_append] at hi
      rw [List.getElem_append_right (Nat.not_lt.mp hfirst),
        ← hy (i - xs.length) (by omega) (by omega)]
      congr 1
      omega

/-- What ends inside the buffer is held. -/
theorem HoldsWithin.holds {b : Buffer} {p : Nat} {bs : List UInt8} (h : HoldsWithin b p bs)
    (hfit : p + bs.length ≤ b.size) : Holds b p bs := by
  refine List.ext_getElem (slice_length _ _ _) ?_
  intro i h1 h2
  rw [slice_getElem]
  exact h i h2 (by omega)

/-- The end of the comparisons made for transactions that lie at an offset. -/
def transactionsNeeded (o : Nat) : List Transaction → Nat
  | [] => 0
  | t :: ts =>
    max (o + 8216 + t.senderSignature.length.toNat) (transactionsNeeded (o + 8728) ts)

/-- The end of the comparisons made for blocks that lie at an offset. -/
def blocksNeeded (p : Nat) : List Block → Nat
  | [] => 0
  | x :: xs => max (max (p + 56) (transactionsNeeded (p + 56) x.transactionList))
      (blocksNeeded (p + (56 + 8728 * x.transactionList.length)) xs)

/-- The end of the comparisons made for a chain. -/
def neededSize (c : Blockchain) : Nat := max 16 (blocksNeeded 16 c.blockList)

/-- Every stored signature length passes the bound that the decoder checks. -/
def LengthsAdmitted (blocks : List Block) : Prop :=
  ∀ x ∈ blocks, ∀ t ∈ x.transactionList, t.senderSignature.length.toNat ≤ MAX_SSH_KEY_LENGTH

section Decoders

variable (order encoding : ByteOrder) (alloc : Allocator) (now : Int64) (b : Buffer)
  (halloc : alloc.Grants sizeofTransaction)

/-- An integer of which the buffer has something is read, or cut off. -/
theorem wp_readUInt64_within {s : Cursor} {Q : UInt64 → Cursor → Prop}
    {E : ReturnCode → Cursor → Prop} (x : UInt64)
    (h : HoldsWithin b s.pos (storeUInt64 encoding (htobe64 encoding x)))
    (hok : ∀ s', s'.pos = s.pos + 8 → s'.pos ≤ b.size → Q x s')
    (hfail : b.size < s.pos + 8 → E .failureBufferTooSmall s) :
    wp (readUInt64 order b) s Q E := by
  refine wp_readUInt64 ?_ hfail
  intro s' hpos hfit
  rw [fieldAt_of_holds b _ encoding x (h.holds (by rw [storeUInt64_length]; omega))]
  exact hok s' hpos hfit

include halloc in
theorem wp_deserializeTransaction_within (t : Transaction) (acc : List Transaction) (s : Cursor)
    (hlen : t.senderSignature.length.toNat ≤ MAX_SSH_KEY_LENGTH)
    (h : HoldsWithin b s.pos (transactionBytes encoding t)) :
    wp (deserializeTransaction order alloc b acc) s
      (fun _ s' => s'.pos = s.pos + 8728 ∧
        s.pos + 8216 + t.senderSignature.length.toNat ≤ b.size)
      (fun e _ => e = .failureBufferTooSmall ∧
        b.size < s.pos + 8216 + t.senderSignature.length.toNat) := by
  simp only [transactionBytes, holdsWithin_append, List.length_append, storeUInt64_length,
    SshKey.toList_length] at h
  rcases h with ⟨⟨⟨⟨⟨hcreated, _⟩, _⟩, hamount⟩, hlength⟩, _⟩
  refine wp_bind (wp_allocate ?_ fun hg => absurd halloc hg)
  intro _
  refine wp_bind (wp_readUInt64 ?_ fun hlt => ⟨rfl, by rw [Cursor.request_pos] at hlt; omega⟩)
  intro s1 p1 f1
  rw [Cursor.request_pos] at p1
  refine wp_bind (wp_readArray ?_ fun hlt => ⟨rfl, by rw [MAX_SSH_KEY_LENGTH] at hlt; omega⟩)
  intro s2 p2 f2
  simp only [p1, Nat.add_assoc, MAX_SSH_KEY_LENGTH, Nat.reduceAdd] at p2
  refine wp_bind (wp_readArray ?_ fun hlt => ⟨rfl, by rw [MAX_SSH_KEY_LENGTH] at hlt; omega⟩)
  intro s3 p3 f3
  simp only [p2, Nat.add_assoc, MAX_SSH_KEY_LENGTH, Nat.reduceAdd] at p3
  refine wp_bind (wp_readUInt64 ?_ fun hlt => ⟨rfl, by omega⟩)
  intro s4 p4 f4
  simp only [p3, Nat.add_assoc, Nat.reduceAdd] at p4
  have hlengthAt : HoldsWithin b s4.pos
      (storeUInt64 encoding (htobe64 encoding t.senderSignature.length)) := by
    rw [p4]
    exact hlength
  refine wp_bind (wp_readUInt64_within order encoding b _ hlengthAt ?_ fun hlt => ⟨rfl, by omega⟩)
  intro s5 p5 f5
  simp only [p4, Nat.add_assoc, Nat.reduceAdd] at p5
  -- The stored length is below the bound, so what is compared last is the array.
  rw [if_neg (Nat.not_lt.mpr hlen)]
  refine wp_bind (wp_checkRead ?_ fun hlt => ⟨rfl, by omega⟩)
  intro hfit
  refine wp_bind (wp_readBytes ?_)
  refine wp_allocating (linkedListAppend_obtains alloc _ acc _) ⟨?_, by omega⟩
    fun hg => absurd (halloc.mono (by decide)) hg
  rw [Cursor.request_pos, Cursor.advance_pos, p5, MAX_SSH_SIGNATURE_LENGTH]

include halloc in
/-- The loop over transactions ends behind them if the buffer has what is
    compared, and otherwise with the code for too few bytes. -/
theorem wp_transactions_within (ts : List Transaction) (acc : List Transaction) (s : Cursor)
    (hlen : ∀ t ∈ ts, t.senderSignature.length.toNat ≤ MAX_SSH_KEY_LENGTH)
    (h : HoldsWithin b s.pos (ts.map (transactionBytes encoding)).flatten) :
    wp (loop (deserializeTransaction order alloc b) ts.length acc) s
      (fun _ s' => s'.pos = s.pos + 8728 * ts.length ∧ transactionsNeeded s.pos ts ≤ b.size)
      (fun e _ => e = .failureBufferTooSmall ∧ b.size < transactionsNeeded s.pos ts) := by
  induction ts generalizing acc s with
  | nil => exact wp_pure ⟨rfl, Nat.zero_le _⟩
  | cons t ts ih =>
      rw [List.map_cons, List.flatten_cons, holdsWithin_append, transactionBytes_length] at h
      refine wp_bind (wp_mono (wp_deserializeTransaction_within order encoding alloc b halloc t acc
        s (hlen t List.mem_cons_self) h.1) ?_ ?_)
      · intro acc' s1 h1
        rcases h1 with ⟨p1, hneeded⟩
        have hrest := ih acc' s1 (fun u hu => hlen u (List.mem_cons_of_mem t hu)) (p1 ▸ h.2)
        rw [p1] at hrest
        refine wp_mono hrest ?_ ?_
        · intro _ s2 h2
          rw [transactionsNeeded, List.length_cons]
          exact ⟨by omega, Nat.max_le.mpr ⟨hneeded, h2.2⟩⟩
        · intro e _ h2
          rw [transactionsNeeded]
          exact ⟨h2.1, lt_max_of_lt_right h2.2⟩
      · intro e _ h1
        rw [transactionsNeeded]
        exact ⟨h1.1, lt_max_of_lt_left h1.2⟩

include halloc in
theorem wp_deserializeBlock_within (x : Block) (acc : Blockchain) (s : Cursor)
    (hlen : ∀ t ∈ x.transactionList, t.senderSignature.length.toNat ≤ MAX_SSH_KEY_LENGTH)
    (hcount : x.transactionList.length < 2 ^ 64)
    (h : HoldsWithin b s.pos (blockBytes encoding x)) :
    wp (deserializeBlock order alloc now b acc) s
      (fun _ s' => s'.pos = s.pos + (56 + 8728 * x.transactionList.length) ∧
        max (s.pos + 56) (transactionsNeeded (s.pos + 56) x.transactionList) ≤ b.size)
      (fun e _ => e = .failureBufferTooSmall ∧
        b.size < max (s.pos + 56) (transactionsNeeded (s.pos + 56) x.transactionList)) := by
  simp only [blockBytes, blockHeaderBytes, holdsWithin_append, List.length_append,
    storeUInt64_length, Sha256.toList_length] at h
  rcases h with ⟨⟨⟨⟨_, _⟩, _⟩, hnum⟩, htransactions⟩
  have hshort : ∀ n, n ≤ s.pos + 56 → b.size < n → (ReturnCode.failureBufferTooSmall =
      .failureBufferTooSmall) ∧ b.size < max (s.pos + 56)
        (transactionsNeeded (s.pos + 56) x.transactionList) :=
    fun n hn hlt => ⟨rfl, lt_max_of_lt_left (by omega)⟩
  refine wp_bind (wp_readUInt64 ?_ (hshort _ (by omega)))
  intro s1 p1 f1
  refine wp_bind (wp_readArray ?_ (hshort _ (by rw [SHA256_DIGEST_LENGTH]; omega)))
  intro s2 p2 f2
  simp only [p1, Nat.add_assoc, SHA256_DIGEST_LENGTH, Nat.reduceAdd] at p2
  refine wp_bind (wp_readUInt64 ?_ (hshort _ (by omega)))
  intro s3 p3 f3
  simp only [p2, Nat.add_assoc, Nat.reduceAdd] at p3
  refine wp_bind (wp_readUInt64_within order encoding b
    (UInt64.ofNat (linkedListLength x.transactionList)) (by rw [p3]; exact hnum) ?_
    (hshort _ (by omega)))
  intro s4 p4 f4
  simp only [p3, Nat.add_assoc, Nat.reduceAdd] at p4
  have hn : (UInt64.ofNat (linkedListLength x.transactionList)).toNat =
      x.transactionList.length := by
    rw [linkedListLength, UInt64.toNat_ofNat', Nat.mod_eq_of_lt hcount]
  rw [hn]
  refine wp_bind (wp_allocating ((linkedListCreate_obtains alloc _).mono (by decide)) ?_
    fun hg => absurd halloc hg)
  refine wp_bind (wp_mono (wp_transactions_within order encoding alloc b halloc x.transactionList
    [] _ hlen (by rw [Cursor.request_pos, p4]; exact htransactions)) ?_ ?_)
  · intro ts s5 h5
    rw [Cursor.request_pos, p4] at h5
    refine wp_bind (wp_allocating ((blockCreate_obtains alloc _ now _ _ _).mono (by decide)) ?_
      fun hg => absurd halloc hg)
    refine wp_allocating ((blockchainAddBlock_obtains alloc _ acc _).mono (by decide)) ?_
      fun hg => absurd halloc hg
    simp only [Cursor.request_pos]
    exact ⟨by omega, Nat.max_le.mpr ⟨by omega, h5.2⟩⟩
  · intro e _ h5
    rw [Cursor.request_pos, p4] at h5
    exact ⟨h5.1, lt_max_of_lt_right h5.2⟩

include halloc in
theorem wp_blocks_within (xs : List Block) (acc : Blockchain) (s : Cursor)
    (hlen : LengthsAdmitted xs) (hcount : ∀ x ∈ xs, x.transactionList.length < 2 ^ 64)
    (h : HoldsWithin b s.pos (xs.map (blockBytes encoding)).flatten) :
    wp (loop (deserializeBlock order alloc now b) xs.length acc) s
      (fun _ s' => s'.pos = s.pos + (xs.map (blockBytes encoding)).flatten.length ∧
        blocksNeeded s.pos xs ≤ b.size)
      (fun e _ => e = .failureBufferTooSmall ∧ b.size < blocksNeeded s.pos xs) := by
  induction xs generalizing acc s with
  | nil => exact wp_pure ⟨rfl, Nat.zero_le _⟩
  | cons x xs ih =>
      rw [List.map_cons, List.flatten_cons, holdsWithin_append, blockBytes_length] at h
      refine wp_bind (wp_mono (wp_deserializeBlock_within order encoding alloc now b halloc x acc s
        (hlen x List.mem_cons_self) (hcount x List.mem_cons_self) h.1) ?_ ?_)
      · intro acc' s1 h1
        rcases h1 with ⟨p1, hneeded⟩
        have hrest := ih acc' s1 (fun y hy => hlen y (List.mem_cons_of_mem x hy))
          (fun y hy => hcount y (List.mem_cons_of_mem x hy)) (p1 ▸ h.2)
        rw [p1] at hrest
        refine wp_mono hrest ?_ ?_
        · intro _ s2 h2
          rw [blocksNeeded, List.map_cons, List.flatten_cons, List.length_append,
            blockBytes_length]
          exact ⟨by omega, Nat.max_le.mpr ⟨hneeded, h2.2⟩⟩
        · intro e _ h2
          rw [blocksNeeded]
          exact ⟨h2.1, lt_max_of_lt_right h2.2⟩
      · intro e _ h1
        rw [blocksNeeded]
        exact ⟨h1.1, lt_max_of_lt_left h1.2⟩

include halloc in
/-- The decoder on as much of an encoded chain as the buffer has. -/
theorem wp_blockchainDeserialize_within (c : Blockchain) (hlen : LengthsAdmitted c.blockList)
    (hsmall : (blockchainBytes encoding c).length ≤ PTRDIFF_MAX)
    (h : HoldsWithin b 0 (blockchainBytes encoding c)) :
    wp (blockchainDeserialize order alloc now b) .start
      (fun _ s' => s'.pos = (blockchainBytes encoding c).length ∧ neededSize c ≤ b.size)
      (fun e _ => e = .failureBufferTooSmall ∧ b.size < neededSize c) := by
  have htotal := blockchainBytes_length encoding c
  rw [htotal, PTRDIFF_MAX] at hsmall
  simp only [blockchainBytes, blockchainHeaderBytes, holdsWithin_append, List.length_append,
    storeUInt64_length, Nat.zero_add] at h
  rcases h with ⟨⟨_, hnum⟩, hblocks⟩
  refine wp_bind (wp_readUInt64 ?_ fun hlt => ⟨rfl, lt_max_of_lt_left ?_⟩)
  swap
  · rw [show Cursor.start.pos = 0 from rfl] at hlt
    omega
  intro s1 p1 f1
  rw [show Cursor.start.pos = 0 from rfl, Nat.zero_add] at p1
  refine wp_bind (wp_allocating ((blockchainCreate_obtains alloc _ _).mono (by decide)) ?_
    fun hg => absurd halloc hg)
  refine wp_bind (wp_readUInt64_within order encoding b
    (UInt64.ofNat (linkedListLength c.blockList)) (by rw [Cursor.request_pos, p1]; exact hnum) ?_
    fun hlt => ⟨rfl, lt_max_of_lt_left ?_⟩)
  swap
  · rw [Cursor.request_pos] at hlt
    omega
  intro s2 p2 f2
  rw [Cursor.request_pos, p1] at p2
  have hn : (UInt64.ofNat (linkedListLength c.blockList)).toNat = c.blockList.length := by
    rw [linkedListLength, UInt64.toNat_ofNat', Nat.mod_eq_of_lt (by omega)]
  rw [hn]
  have hcount : ∀ x ∈ c.blockList, x.transactionList.length < 2 ^ 64 := fun x hx => by
    have hle := length_le_numTransactions c.blockList x hx
    omega
  refine wp_mono (wp_blocks_within order encoding alloc now b halloc c.blockList _ s2 hlen hcount
    (p2 ▸ hblocks)) ?_ ?_
  · intro _ s3 h3
    rw [p2] at h3
    refine ⟨?_, Nat.max_le.mpr ⟨by omega, h3.2⟩⟩
    rw [h3.1, blockchainBytes, List.length_append, blockchainHeaderBytes_length]
  · intro e _ h3
    rw [p2] at h3
    exact ⟨h3.1, lt_max_of_lt_right h3.2⟩

end Decoders

/-- The first bytes of some bytes lie in a buffer as far as it goes. -/
theorem holdsWithin_take (bs : List UInt8) (k : Nat) (heap : Nat → UInt8) :
    HoldsWithin (Buffer.ofBytes (bs.take k) heap) 0 bs := by
  intro i hi hlt
  rw [Nat.zero_add] at hlt ⊢
  have hi' : i < (bs.take k).length := hlt
  change extend (bs.take k) heap i = bs[i]
  rw [extend_of_lt _ _ _ hi', List.getElem_take]

/-- The memory from the first of some bytes on is those bytes and what lies
    behind them. -/
theorem slice_extend_past (bs : List UInt8) (heap : Nat → UInt8) (n : Nat) :
    slice (extend bs heap) 0 (bs.length + n) = bs ++ slice heap 0 n := by
  rw [slice_append, slice_extend_inside bs heap 0 bs.length (by omega), List.drop_zero,
    List.take_length, Nat.zero_add]
  congr 1
  refine List.ext_getElem (by rw [slice_length, slice_length]) ?_
  intro i h1 h2
  rw [slice_getElem, slice_getElem, extend, dif_neg (by omega), Nat.zero_add,
    Nat.add_sub_cancel_left]

/-- A block that is not the last one ends before the last header does. -/
theorem blocksNeeded_dropLast (encoding : ByteOrder) (p : Nat) (xs : List Block) (x : Block) :
    p + (xs.map (blockBytes encoding)).flatten.length + 56 ≤ blocksNeeded p (xs ++ [x]) := by
  induction xs generalizing p with
  | nil =>
      rw [List.nil_append, blocksNeeded]
      exact le_max_of_le_left (Nat.le_max_left _ _)
  | cons y xs ih =>
      rw [List.cons_append, blocksNeeded, List.map_cons, List.flatten_cons, List.length_append,
        blockBytes_length]
      exact le_max_of_le_right (Nat.le_trans (by omega) (ih _))

/-- The transactions of a block end at most one signature array behind what is
    compared for them. -/
theorem le_transactionsNeeded (o : Nat) (ts : List Transaction) (hts : ts ≠ []) :
    o + 8728 * ts.length ≤ transactionsNeeded o ts + 512 := by
  induction ts generalizing o with
  | nil => exact absurd rfl hts
  | cons t ts ih =>
      rw [transactionsNeeded, List.length_cons]
      rcases eq_or_ne ts [] with hnil | hne
      · rw [hnil, List.length_nil]
        omega
      · have h := ih (o + 8728) hne
        omega

theorem transactionsNeeded_le (o : Nat) (ts : List Transaction)
    (h : ∀ t ∈ ts, t.senderSignature.length.toNat ≤ MAX_SSH_SIGNATURE_LENGTH) :
    transactionsNeeded o ts ≤ o + 8728 * ts.length := by
  induction ts generalizing o with
  | nil => exact Nat.zero_le _
  | cons t ts ih =>
      have ht := h t List.mem_cons_self
      have hrest := ih (o + 8728) fun u hu => h u (List.mem_cons_of_mem t hu)
      rw [MAX_SSH_SIGNATURE_LENGTH] at ht
      rw [transactionsNeeded, List.length_cons]
      omega

theorem le_blocksNeeded (encoding : ByteOrder) (p : Nat) (xs : List Block) (hxs : xs ≠ []) :
    p + (xs.map (blockBytes encoding)).flatten.length ≤ blocksNeeded p xs + 512 := by
  induction xs generalizing p with
  | nil => exact absurd rfl hxs
  | cons x xs ih =>
      rw [List.map_cons, List.flatten_cons, List.length_append, blockBytes_length, blocksNeeded]
      rcases eq_or_ne xs [] with hlast | hmore
      · rw [hlast, List.map_nil, List.flatten_nil, List.length_nil]
        rcases eq_or_ne x.transactionList [] with hnil | hne
        · rw [hnil, List.length_nil]
          omega
        · have h := le_transactionsNeeded (p + 56) x.transactionList hne
          omega
      · have h := ih (p + (56 + 8728 * x.transactionList.length)) hmore
        omega

theorem blocksNeeded_le (encoding : ByteOrder) (p : Nat) (xs : List Block)
    (h : ∀ x ∈ xs, ∀ t ∈ x.transactionList,
      t.senderSignature.length.toNat ≤ MAX_SSH_SIGNATURE_LENGTH) :
    blocksNeeded p xs ≤ p + (xs.map (blockBytes encoding)).flatten.length := by
  induction xs generalizing p with
  | nil => exact Nat.zero_le _
  | cons x xs ih =>
      have hx := transactionsNeeded_le (p + 56) x.transactionList (h x List.mem_cons_self)
      have hrest := ih (p + (56 + 8728 * x.transactionList.length))
        fun y hy => h y (List.mem_cons_of_mem x hy)
      rw [List.map_cons, List.flatten_cons, List.length_append, blockBytes_length, blocksNeeded]
      omega

/-- At most one signature array of the encoding is not compared for. -/
theorem le_neededSize (encoding : ByteOrder) (c : Blockchain) :
    (blockchainBytes encoding c).length ≤ neededSize c + 512 := by
  rw [blockchainBytes, List.length_append, blockchainHeaderBytes_length, neededSize]
  rcases eq_or_ne c.blockList [] with hnil | hne
  · rw [hnil, List.map_nil, List.flatten_nil, List.length_nil]
    omega
  · have h := le_blocksNeeded encoding 16 c.blockList hne
    omega

/-- An encoding has what is compared for it if the signatures fit. -/
theorem neededSize_le (encoding : ByteOrder) (c : Blockchain) (h : SignaturesFit c) :
    neededSize c ≤ (blockchainBytes encoding c).length := by
  have hblocks := blocksNeeded_le encoding 16 c.blockList h
  rw [blockchainBytes, List.length_append, blockchainHeaderBytes_length, neededSize]
  omega

/-- Lengths that fit are not refused. -/
theorem SignaturesFit.lengthsAdmitted {c : Blockchain} (h : SignaturesFit c) :
    LengthsAdmitted c.blockList :=
  fun x hx t ht => Nat.le_trans (h x hx t ht) (by decide)

/-- With all that is compared in the buffer, the layout sees the difficulty and
    all blocks but the last as they were encoded. -/
theorem blockchainAt_within (b : Buffer) (encoding : ByteOrder) (c : Blockchain)
    (hsmall : (blockchainBytes encoding c).length ≤ PTRDIFF_MAX)
    (h : HoldsWithin b 0 (blockchainBytes encoding c)) (hneeded : neededSize c ≤ b.size) :
    (blockchainAt b).numLeadingZeroBytesRequiredInBlockHash =
        c.numLeadingZeroBytesRequiredInBlockHash ∧
      (blockchainAt b).blockList.dropLast = c.blockList.dropLast := by
  have hlen := blockchainBytes_length encoding c
  rw [hlen, PTRDIFF_MAX] at hsmall
  rw [neededSize] at hneeded
  rw [blockchainBytes, holdsWithin_append, blockchainHeaderBytes_length] at h
  rcases h with ⟨hheader, hblocks⟩
  have hheld := hheader.holds (by rw [blockchainHeaderBytes_length]; omega)
  rw [blockchainHeaderBytes, holds_append, storeUInt64_length, Nat.zero_add] at hheld
  have hn : numBlocksAt b = c.blockList.length := by
    rw [numBlocksAt, fieldAt_of_holds b _ encoding _ hheld.2, linkedListLength,
      UInt64.toNat_ofNat', Nat.mod_eq_of_lt (by omega)]
  refine ⟨fieldAt_of_holds b 0 encoding _ hheld.1, ?_⟩
  rcases List.eq_nil_or_concat c.blockList with hnil | ⟨xs, x, hconcat⟩
  · rw [blockchainAt, hn, hnil]
    rfl
  · rw [List.concat_eq_append] at hconcat
    -- The header of the last block is compared for, and lies behind the others.
    have hend := blocksNeeded_dropLast encoding 16 xs x
    rw [← hconcat] at hend
    rw [Nat.zero_add, hconcat, List.map_append, List.flatten_append, holdsWithin_append] at hblocks
    have hcount : ∀ y ∈ xs, y.transactionList.length < 2 ^ 64 := fun y hy => by
      have hle := length_le_numTransactions c.blockList y (by
        rw [hconcat]
        exact List.mem_append_left _ hy)
      omega
    have hread := (blocks_of_holds b encoding xs 0 hcount
      (hblocks.1.holds (by omega))).1
    rw [blockchainAt, hn, hconcat, List.dropLast_concat, List.length_append, List.length_singleton,
      List.range_succ, List.map_append, List.map_singleton, List.dropLast_concat]
    refine List.ext_getElem (by rw [List.length_map, List.length_range]) ?_
    intro i h1 h2
    rw [List.getElem_map, List.getElem_range, ← hread i h2, Nat.zero_add]

/-- What decoding a cut encoding returns. Cut off behind the last comparison it
    gives the chain that the bytes and the memory behind them encode, and all
    blocks but the last are those of the chain that was encoded. -/
theorem blockchainDeserialize_cut (order encoding : ByteOrder) (alloc : Allocator) (now : Int64)
    (c : Blockchain) (k : Nat) (heap : Nat → UInt8)
    (hlen : LengthsAdmitted c.blockList) (halloc : alloc.Grants sizeofTransaction)
    (hsmall : (blockchainBytes encoding c).length ≤ PTRDIFF_MAX)
    (hk : k ≤ (blockchainBytes encoding c).length) :
    (k < neededSize c → (blockchainDeserialize order alloc now
      (Buffer.ofBytes ((blockchainBytes encoding c).take k) heap) .start).1 =
        .error .failureBufferTooSmall) ∧
    (neededSize c ≤ k → ∃ c', (blockchainDeserialize order alloc now
      (Buffer.ofBytes ((blockchainBytes encoding c).take k) heap) .start).1 = .ok c' ∧
        blockchainBytes encoding c' = (blockchainBytes encoding c).take k ++
          slice heap 0 ((blockchainBytes encoding c).length - k) ∧
        c'.numLeadingZeroBytesRequiredInBlockHash = c.numLeadingZeroBytesRequiredInBlockHash ∧
        c'.blockList.dropLast = c.blockList.dropLast) := by
  have hwithin := holdsWithin_take (blockchainBytes encoding c) k heap
  have hsize : (Buffer.ofBytes ((blockchainBytes encoding c).take k) heap).size = k := by
    rw [Buffer.ofBytes, List.length_take, Nat.min_eq_left hk]
  have hspec := wp_blockchainDeserialize_within order encoding alloc now _ halloc c hlen hsmall
    hwithin
  have hlayout := wp_blockchainDeserialize order alloc now
    (Buffer.ofBytes ((blockchainBytes encoding c).take k) heap)
  rcases hrun : (blockchainDeserialize order alloc now
    (Buffer.ofBytes ((blockchainBytes encoding c).take k) heap) .start).1 with e | c'
  · rcases wp_error hspec hrun with ⟨he, hlt⟩
    rw [hsize] at hlt
    exact ⟨fun _ => by rw [he], fun h => absurd h (Nat.not_le.mpr hlt)⟩
  · rcases wp_ok hspec hrun with ⟨hpos, hneeded⟩
    rw [hsize] at hneeded
    rcases wp_ok hlayout hrun with ⟨hc', hend, _⟩
    refine ⟨fun h => absurd hneeded (Nat.not_le.mpr h), fun _ => ⟨c', rfl, ?_, ?_⟩⟩
    · -- What was decoded encodes to what was read, which is as much as was encoded.
      rcases holds_blockchainAt (Buffer.ofBytes ((blockchainBytes encoding c).take k) heap)
        encoding with ⟨hholds, hlength⟩
      rw [← hc', Holds] at hholds
      rw [← hc', ← hend, hpos] at hlength
      rw [hlength] at hholds
      have hpast := slice_extend_past ((blockchainBytes encoding c).take k) heap
        ((blockchainBytes encoding c).length - k)
      rw [List.length_take, Nat.min_eq_left hk, Nat.add_sub_cancel' hk] at hpast
      exact hholds.symm.trans hpast
    · rw [hc']
      exact blockchainAt_within _ encoding c hsmall hwithin (hsize.symm ▸ hneeded)

end LeoCoin
