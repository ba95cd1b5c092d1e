import NovumAgent.Lib.OrderedMap
import NovumAgent.Lib.Utf8

/-!
# TOML values

The values that configuration and requirements are read into, as `toml::Value` with the order of table
keys kept. Integers, floats and date-times are told apart by nothing that is modelled, so they are one
kind of scalar.
-/

namespace NovumAgent.Config

/-- `toml::Value`. -/
inductive Toml (σ : Type) where
  | scalar (value : σ)
  | string (value : Text)
  | boolean (value : Bool)
  | array (length : Nat) (items : Fin length → Toml σ)
  | table (keys : List Text) (nodup : keys.Nodup) (value : {key // key ∈ keys} → Toml σ)

/-- `toml::map::Map<String, Value>`. A TOML document is one. -/
abbrev TomlTable (σ : Type) := OrderedMap Text (Toml σ)

namespace Toml

variable {σ : Type}

/-- `Value::Table`. -/
def ofTable (entries : TomlTable σ) : Toml σ := table entries.keys entries.nodup entries.value

def asTable : Toml σ → Option (TomlTable σ)
  | table keys nodup value => some ⟨keys, nodup, value⟩
  | _ => none

def isTable (value : Toml σ) : Bool := value.asTable.isSome

def asArray : Toml σ → Option (List (Toml σ))
  | array _ items => some (List.ofFn items)
  | _ => none

def asStr : Toml σ → Option Text
  | string value => some value
  | _ => none

/-- `Value::get`, of a key. -/
def get (value : Toml σ) (key : Text) : Option (Toml σ) := value.asTable.bind (·.get? key)

/-- The value at a path of keys. -/
def at? (value : Toml σ) : List Text → Option (Toml σ)
  | [] => some value
  | key :: path => match value.get key with
    | none => none
    | some child => child.at? path

@[simp] theorem get_ofTable (entries : TomlTable σ) (key : Text) :
    (ofTable entries).get key = entries.get? key := rfl

theorem at?_cons (value : Toml σ) (key : Text) (path : List Text) :
    value.at? (key :: path) = (value.get key).bind (·.at? path) := by
  rw [at?]
  cases value.get key with
  | none => rfl
  | some child => rfl

end Toml

end NovumAgent.Config
