import Mathlib.Data.List.Induction
import Mathlib.Data.List.Nodup
import Mathlib.Logic.Function.Basic

/-!
# Keep-Alive Maps

A map that remembers when a key was last heard of, and forgets the keys that
have been silent for too long.

A beat names a key, the time at which it was heard of and the time at which the
map is swept. What is alive at the time of a sweep is a parameter. After a beat
the map has the time of the beat at its key, and then loses everything that is
not alive at the time of the sweep.

A table represents such a map if it has one entry for each key of the map and
no other entry. The tables here are lists: a key that is present has its time
replaced where it stands, a key that is absent is put in front, and a sweep is
a filter. Both operations represent the operations on maps, so a table that is
run along with a map represents it.

The map itself has a closed form. If what is alive at a sweep was alive at each
sweep before, then nothing is forgotten too early, and the map holds the last
time a key was heard of exactly if that time is alive.

## Main definitions

* `Beat`: A key, a time and the time of a sweep.
* `beatMap`: What a beat does to a map.
* `Represents`: A table holds the entries of a map.
* `touch`, `sweep`: The operations on tables.
* `lastSeen`: The last time a key was heard of.

## Theorems

* `Represents.touch`, `Represents.sweep`: The operations on tables.
* `Represents.beat`: A beat on a table.
* `foldl_beatMap_filter`, `foldl_beatMap`: The closed form.
-/

namespace KeepAlive

variable {κ τ σ : Type}

/-- A key is heard of at one time, and the map is swept at another. -/
structure Beat (κ τ σ : Type) where
  key : κ
  seen : τ
  swept : σ

/-- The table has one entry for each key of the map, and no other entry. -/
structure Represents (table : List (κ × τ)) (m : κ → Option τ) : Prop where
  nodup : (table.map Prod.fst).Nodup
  mem_iff : ∀ k t, (k, t) ∈ table ↔ m k = some t

/-- Drop the entries that are not alive. -/
def sweep (alive : τ → Bool) (table : List (κ × τ)) : List (κ × τ) :=
  table.filter fun entry => alive entry.2

theorem represents_nil : Represents ([] : List (κ × τ)) fun _ => none where
  nodup := List.nodup_nil
  mem_iff := by
    intro k t
    simp only [List.not_mem_nil, reduceCtorEq]

/-- A key is in the table if and only if the map has a time for it. -/
theorem Represents.mem_keys {table : List (κ × τ)} {m : κ → Option τ}
    (h : Represents table m) (k : κ) : k ∈ table.map Prod.fst ↔ ∃ t, m k = some t := by
  rw [List.mem_map]
  constructor
  · rintro ⟨⟨k', t⟩, hmem, rfl⟩
    exact ⟨t, (h.mem_iff k' t).mp hmem⟩
  · rintro ⟨t, hk⟩
    exact ⟨(k, t), (h.mem_iff k t).mpr hk, rfl⟩

/-- A sweep of the table forgets what is not alive. -/
theorem Represents.sweep {table : List (κ × τ)} {m : κ → Option τ}
    (h : Represents table m) (alive : τ → Bool) :
    Represents (sweep alive table) fun k => (m k).filter alive where
  nodup := h.nodup.sublist (List.filter_sublist.map Prod.fst)
  mem_iff := by
    intro k t
    rw [KeepAlive.sweep, List.mem_filter, h.mem_iff k t, Option.filter_eq_some_iff]

theorem filter_filter_of_imp (o : Option τ) (p q : τ → Bool) (h : ∀ t, q t = true → p t = true) :
    (o.filter p).filter q = o.filter q := by
  rcases o with _ | t
  · rfl
  · by_cases hq : q t = true
    · rw [Option.filter_some_pos (h t hq)]
    · by_cases hp : p t = true
      · rw [Option.filter_some_pos hp]
      · rw [Bool.not_eq_true] at hp hq
        rw [Option.filter_some_neg hp, Option.filter_some_neg hq, Option.filter_none]

section Keys

variable [DecidableEq κ]

/-- Enter the time of the beat, and forget what is not alive. -/
def beatMap (alive : σ → τ → Bool) (m : κ → Option τ) (b : Beat κ τ σ) : κ → Option τ :=
  fun k => (Function.update m b.key (some b.seen) k).filter (alive b.swept)

/-- Replace the time of a key where it stands, or put the key in front. -/
def touch (table : List (κ × τ)) (k : κ) (t : τ) : List (κ × τ) :=
  if k ∈ table.map Prod.fst then
    table.map fun entry => if entry.1 = k then (k, t) else entry
  else (k, t) :: table

/-- The time of the last beat of a key. -/
def lastSeen (beats : List (Beat κ τ σ)) (k : κ) : Option τ :=
  (beats.reverse.find? fun b => b.key = k).map Beat.seen

/-- Replacing a time leaves the keys in their places. -/
theorem map_fst_replace (table : List (κ × τ)) (k : κ) (t : τ) :
    (table.map fun entry => if entry.1 = k then (k, t) else entry).map Prod.fst =
      table.map Prod.fst := by
  rw [List.map_map]
  refine List.map_congr_left ?_
  intro entry _
  rw [Function.comp_apply]
  by_cases hk : entry.1 = k
  · rw [if_pos hk, hk]
  · rw [if_neg hk]

/-- Touching a key of the table enters its time into the map. -/
theorem Represents.touch {table : List (κ × τ)} {m : κ → Option τ}
    (h : Represents table m) (k : κ) (t : τ) :
    Represents (touch table k t) (Function.update m k (some t)) := by
  unfold KeepAlive.touch
  by_cases hk : k ∈ table.map Prod.fst
  · rw [if_pos hk]
    refine ⟨?_, ?_⟩
    · rw [map_fst_replace]
      exact h.nodup
    · intro k' t'
      rw [List.mem_map]
      by_cases hk' : k' = k
      · subst hk'
        rw [Function.update_self, Option.some.injEq]
        constructor
        · rintro ⟨entry, hmem, heq⟩
          by_cases he : entry.1 = k'
          · rw [if_pos he, Prod.mk.injEq] at heq
            exact heq.2
          · rw [if_neg he] at heq
            exact absurd (congrArg Prod.fst heq) he
        · rintro rfl
          rcases List.mem_map.mp hk with ⟨entry, hmem, he⟩
          exact ⟨entry, hmem, if_pos he⟩
      · rw [Function.update_of_ne hk', ← h.mem_iff k' t']
        constructor
        · rintro ⟨entry, hmem, heq⟩
          by_cases he : entry.1 = k
          · rw [if_pos he, Prod.mk.injEq] at heq
            exact absurd heq.1.symm hk'
          · rw [if_neg he] at heq
            rwa [← heq]
        · intro hmem
          exact ⟨(k', t'), hmem, if_neg hk'⟩
  · rw [if_neg hk]
    refine ⟨?_, ?_⟩
    · rw [List.map_cons, List.nodup_cons]
      exact ⟨hk, h.nodup⟩
    · intro k' t'
      rw [List.mem_cons, Prod.mk.injEq, h.mem_iff k' t']
      by_cases hk' : k' = k
      · subst hk'
        -- The map has no time for a key that is not in the table.
        have hnone : m k' ≠ some t' := fun hm => hk ((h.mem_keys k').mpr ⟨t', hm⟩)
        rw [Function.update_self, Option.some.injEq, eq_comm (a := t)]
        simp only [true_and, hnone, or_false]
      · rw [Function.update_of_ne hk']
        simp only [hk', false_and, false_or]

/-- A table that is touched and swept represents the map after the beat. -/
theorem Represents.beat {table : List (κ × τ)} {m : κ → Option τ} (h : Represents table m)
    (alive : σ → τ → Bool) (b : Beat κ τ σ) :
    Represents (KeepAlive.sweep (alive b.swept) (KeepAlive.touch table b.key b.seen))
      (beatMap alive m b) :=
  (h.touch b.key b.seen).sweep (alive b.swept)

/-- The last beat of a key, with one more beat. -/
theorem lastSeen_append (beats : List (Beat κ τ σ)) (b : Beat κ τ σ) (k : κ) :
    lastSeen (beats ++ [b]) k = if b.key = k then some b.seen else lastSeen beats k := by
  rw [lastSeen, List.reverse_append, List.reverse_singleton, List.singleton_append,
    List.find?_cons]
  by_cases hk : b.key = k
  · rw [if_pos hk]
    simp only [hk, decide_true, Option.map_some]
  · rw [if_neg hk]
    simp only [hk, decide_false, lastSeen]

/-- Seen through a filter that lets through only what was alive at every sweep,
    the map holds the last beat of each key. -/
theorem foldl_beatMap_filter (alive : σ → τ → Bool) (p : τ → Bool) (beats : List (Beat κ τ σ))
    (h : ∀ b ∈ beats, ∀ t, p t = true → alive b.swept t = true) (k : κ) :
    ((beats.foldl (beatMap alive) fun _ => none) k).filter p = (lastSeen beats k).filter p := by
  induction beats using List.reverseRecOn with
  | nil => rfl
  | append_singleton beats b ih =>
      have hb := h b (List.mem_append_right _ List.mem_cons_self)
      have hbeats : ∀ b' ∈ beats, ∀ t, p t = true → alive b'.swept t = true :=
        fun b' hb' => h b' (List.mem_append_left _ hb')
      rw [List.foldl_append, List.foldl_cons, List.foldl_nil, beatMap, lastSeen_append,
        filter_filter_of_imp _ _ _ hb]
      by_cases hk : b.key = k
      · rw [if_pos hk, ← hk, Function.update_self]
      · rw [if_neg hk, Function.update_of_ne (Ne.symm hk), ih hbeats]

/-- If what is alive at the last sweep was alive at every sweep before, the map
    holds the last beat of each key that is alive. -/
theorem foldl_beatMap (alive : σ → τ → Bool) (beats : List (Beat κ τ σ)) (b : Beat κ τ σ)
    (h : ∀ b' ∈ beats, ∀ t, alive b.swept t = true → alive b'.swept t = true) (k : κ) :
    ((beats ++ [b]).foldl (beatMap alive) fun _ => none) k =
      (lastSeen (beats ++ [b]) k).filter (alive b.swept) := by
  have hall : ∀ b' ∈ beats ++ [b], ∀ t, alive b.swept t = true → alive b'.swept t = true := by
    intro b' hb'
    rcases List.mem_append.mp hb' with hmem | hmem
    · exact h b' hmem
    · rw [List.mem_singleton.mp hmem]
      exact fun t ht => ht
  rw [← foldl_beatMap_filter alive (alive b.swept) (beats ++ [b]) hall, List.foldl_append,
    List.foldl_cons, List.foldl_nil, beatMap]
  exact (filter_filter_of_imp _ _ _ fun t ht => ht).symm

end Keys

end KeepAlive
