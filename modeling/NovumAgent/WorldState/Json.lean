import NovumAgent.Lib.FinMap
import NovumAgent.Lib.Utf8

/-!
# JSON values

The JSON values that snapshots of the world state are made of. Objects are finite maps and arrays finite
sequences, so that two values are equal exactly when `serde_json` says they are: the order in which an
object iterates does not count. What a number is does not matter here, only that numbers can be compared.
-/

namespace NovumAgent.WorldState

/-- `serde_json::Value`. -/
inductive Json (ν : Type) where
  | null
  | bool (value : Bool)
  | number (value : ν)
  | string (value : Text)
  | array (length : Nat) (items : Fin length → Json ν)
  | object (keys : Finset Text) (fields : {key // key ∈ keys} → Json ν)

namespace Json

variable {ν : Type}

def isNull : Json ν → Bool
  | null => true
  | _ => false

/-- The object with the entries of a map. -/
def ofMap (fields : FinMap Text (Json ν)) : Json ν := object fields.keys fields.value

def asObject : Json ν → Option (FinMap Text (Json ν))
  | object keys fields => some ⟨keys, fields⟩
  | _ => none

theorem ofMap_inj {a b : FinMap Text (Json ν)} : ofMap a = ofMap b ↔ a = b := by
  obtain ⟨keys, value⟩ := a
  obtain ⟨keys', value'⟩ := b
  simp [ofMap]

theorem eq_ofMap (keys : Finset Text) (fields : {key // key ∈ keys} → Json ν) :
    object keys fields = ofMap ⟨keys, fields⟩ := rfl

/-- The equality of `serde_json::Value`, decided. -/
def decEq [DecidableEq ν] : ∀ a b : Json ν, Decidable (a = b)
  | null, null => isTrue rfl
  | bool a, bool b => decidable_of_iff (a = b) (by simp)
  | number a, number b => decidable_of_iff (a = b) (by simp)
  | string a, string b => decidable_of_iff (a = b) (by simp)
  | array n f, array m g =>
    if h : n = m then
      have : ∀ i, Decidable (f i = g (Fin.cast h i)) := fun i => decEq (f i) (g (Fin.cast h i))
      decidable_of_iff (∀ i, f i = g (Fin.cast h i)) (by
        subst h
        simp only [Fin.cast_refl, array.injEq, heq_eq_eq, true_and, id]
        exact funext_iff.symm)
    else isFalse (by simp [h])
  | object keys f, object keys' g =>
    if h : keys = keys' then
      have : ∀ k : {key // key ∈ keys}, Decidable (f k = g ⟨k.1, h ▸ k.2⟩) :=
        fun k => decEq (f k) (g ⟨k.1, h ▸ k.2⟩)
      decidable_of_iff (∀ k : {key // key ∈ keys}, f k = g ⟨k.1, h ▸ k.2⟩) (by
        subst h
        simp only [object.injEq, heq_eq_eq, true_and]
        exact funext_iff.symm)
    else isFalse (by simp [h])
  | null, bool _ | null, number _ | null, string _ | null, array _ _ | null, object _ _ => isFalse nofun
  | bool _, null | bool _, number _ | bool _, string _ | bool _, array _ _
  | bool _, object _ _ => isFalse nofun
  | number _, null | number _, bool _ | number _, string _ | number _, array _ _
  | number _, object _ _ => isFalse nofun
  | string _, null | string _, bool _ | string _, number _ | string _, array _ _
  | string _, object _ _ => isFalse nofun
  | array _ _, null | array _ _, bool _ | array _ _, number _ | array _ _, string _
  | array _ _, object _ _ => isFalse nofun
  | object _ _, null | object _ _, bool _ | object _ _, number _ | object _ _, string _
  | object _ _, array _ _ => isFalse nofun

instance [DecidableEq ν] : DecidableEq (Json ν) := decEq

end Json

end NovumAgent.WorldState
