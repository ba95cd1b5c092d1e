import Mathlib.Data.List.Nodup

/-!
# Finite maps with an order

A map that remembers the order its keys came in: no key twice, a value for each key. Looking up,
inserting and removing go by key; the order shows only where a loop visits the entries one after the
other, as when the keys are rewritten and two of them become the same.

Every operation is written as the keys of its result, in order, with the function from keys to values
(`ofGet`), so that one lemma (`get?_ofGet`) says what is found in it.
-/

namespace NovumAgent

/-- A finite map with ordered keys. -/
structure OrderedMap (κ β : Type*) where
  keys : List κ
  nodup : keys.Nodup
  value : {k // k ∈ keys} → β

namespace OrderedMap

variable {κ β γ : Type*} [DecidableEq κ] {m m' : OrderedMap κ β} {k k' : κ} {b : β}

/-- The value at a key. -/
def get? (m : OrderedMap κ β) (k : κ) : Option β :=
  if h : k ∈ m.keys then some (m.value ⟨k, h⟩) else none

/-- The map that gives the keys of a list the values of a function, where it has one. -/
def ofGet (keys : List κ) (nodup : keys.Nodup) (f : κ → Option β) : OrderedMap κ β where
  keys := keys.filter fun k => (f k).isSome
  nodup := nodup.filter _
  value k := (f k.1).get (List.mem_filter.mp k.2).2

/-- The map without entries. -/
def empty : OrderedMap κ β := ⟨[], List.nodup_nil, fun k => absurd k.2 List.not_mem_nil⟩

/-- Whether there is no entry. -/
def isEmpty (m : OrderedMap κ β) : Bool := m.keys.isEmpty

/-- The keys of a map, with one more at the end if it is new. -/
def keysWith (m : OrderedMap κ β) (k : κ) : List κ := if k ∈ m.keys then m.keys else m.keys ++ [k]

theorem nodup_keysWith (m : OrderedMap κ β) (k : κ) : (m.keysWith k).Nodup := by
  unfold keysWith
  split
  next => exact m.nodup
  next h => exact List.nodup_append.mpr ⟨m.nodup, List.nodup_singleton k, by aesop⟩

/-- A new value at a key, which keeps its place if it has one. -/
def insert (m : OrderedMap κ β) (k : κ) (b : β) : OrderedMap κ β :=
  ofGet (m.keysWith k) (m.nodup_keysWith k) fun k' => if k' = k then some b else m.get? k'

/-- The map without a key. -/
def erase (m : OrderedMap κ β) (k : κ) : OrderedMap κ β :=
  ofGet m.keys m.nodup fun k' => if k' = k then none else m.get? k'

/-- The entries that pass a test. -/
def retain (m : OrderedMap κ β) (keep : κ → β → Bool) : OrderedMap κ β :=
  ofGet m.keys m.nodup fun k => (m.get? k).filter (keep k)

/-- Every value changed by itself. -/
def map (m : OrderedMap κ β) (f : κ → β → γ) : OrderedMap κ γ := ⟨m.keys, m.nodup, fun k => f k.1 (m.value k)⟩

/-- The entries of a second map put over a first: keys of the first keep their place. -/
def overlay (m : OrderedMap κ β) (above : OrderedMap κ γ) (f : κ → Option β → γ → β) : OrderedMap κ β :=
  ofGet (m.keys ++ above.keys.filter (· ∉ m.keys))
    (List.nodup_append.mpr ⟨m.nodup, above.nodup.filter _, by aesop⟩)
    fun k => match above.get? k with
      | none => m.get? k
      | some c => some (f k (m.get? k) c)

/-- Keys inserted one after the other under other names: of two that get one name, the first has the
place and the last has the entry. -/
def rekey (keys : List κ) (f : κ → κ) : OrderedMap κ {k // k ∈ keys} :=
  keys.attach.foldl (fun m k => m.insert (f k.1) k) empty

/-! ## What is found -/

theorem get?_of_mem (h : k ∈ m.keys) : m.get? k = some (m.value ⟨k, h⟩) := dif_pos h

theorem get?_of_notMem (h : k ∉ m.keys) : m.get? k = none := dif_neg h

theorem mem_keys : k ∈ m.keys ↔ (m.get? k).isSome = true := by
  unfold get?
  split
  next h => simp [h]
  next h => simp [h]

theorem mem_keys_of_get? (h : m.get? k = some b) : k ∈ m.keys := mem_keys.mpr (by rw [h]; rfl)

theorem get?_ofGet {keys : List κ} {nodup : keys.Nodup} {f : κ → Option β}
    (hf : ∀ k, (f k).isSome = true → k ∈ keys) (k : κ) : (ofGet keys nodup f).get? k = f k := by
  unfold get? ofGet
  cases hk : f k with
  | none => simp [hk]
  | some b =>
    have hmem : k ∈ keys := hf k (by rw [hk]; rfl)
    simp [hk, hmem]

theorem mem_keysWith : k' ∈ m.keysWith k ↔ k' ∈ m.keys ∨ k' = k := by
  unfold keysWith
  split
  next h =>
    constructor
    · intro hk'
      exact .inl hk'
    · intro hk'
      rcases hk' with hk' | rfl
      · exact hk'
      · exact h
  next => simp

theorem get?_insert (m : OrderedMap κ β) (k : κ) (b : β) (k' : κ) :
    (m.insert k b).get? k' = if k' = k then some b else m.get? k' := by
  refine get?_ofGet (fun k' hk' => mem_keysWith.mpr ?_) k'
  by_cases h : k' = k
  · exact .inr h
  · rw [if_neg h] at hk'
    exact .inl (mem_keys.mpr hk')

theorem get?_erase (m : OrderedMap κ β) (k k' : κ) :
    (m.erase k).get? k' = if k' = k then none else m.get? k' := by
  refine get?_ofGet (fun k' hk' => mem_keys.mpr ?_) k'
  by_cases h : k' = k
  · rw [if_pos h] at hk'
    exact absurd hk' (by simp)
  · rw [if_neg h] at hk'
    exact hk'

theorem get?_map (m : OrderedMap κ β) (f : κ → β → γ) (k : κ) : (m.map f).get? k = (m.get? k).map (f k) := by
  unfold get? map
  by_cases h : k ∈ m.keys
  · simp [h]
  · simp [h]

theorem get?_overlay (m : OrderedMap κ β) (above : OrderedMap κ γ) (f : κ → Option β → γ → β) (k : κ) :
    (m.overlay above f).get? k = match above.get? k with
      | none => m.get? k
      | some c => some (f k (m.get? k) c) := by
  refine get?_ofGet (fun k hk => ?_) k
  by_cases hm : k ∈ m.keys
  · exact List.mem_append_left _ hm
  · refine List.mem_append_right _ (List.mem_filter.mpr ⟨?_, by simpa using hm⟩)
    cases habove : above.get? k with
    | none =>
      rw [habove, get?_of_notMem hm] at hk
      exact absurd hk (by simp)
    | some c => exact mem_keys_of_get? habove

end OrderedMap

end NovumAgent
