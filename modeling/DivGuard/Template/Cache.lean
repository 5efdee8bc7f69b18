import DivGuard.Template.Division

/-!
# Template cache

Division templates are built when they are first asked for and kept from then on.  Each built one
gets the next serial number, so that asking twice can be seen to give the same one.
-/

namespace DivGuard.Template

/-- A division template as the cache keeps it. -/
structure Cache.Entry where
  key : Key
  /-- How many templates were built before this one. -/
  serial : Nat
  template : Template
  template_eq : template = .division key
  deriving DecidableEq, Repr

structure Cache where
  entries : List Cache.Entry := []
  /-- How many templates were built so far. -/
  builds : Nat := 0
  deriving DecidableEq, Repr

namespace Cache

def find? (cache : Cache) (key : Key) : Option Entry :=
  cache.entries.find? fun entry ↦ entry.key == key

def contains (cache : Cache) (key : Key) : Bool := (cache.find? key).isSome

def size (cache : Cache) : Nat := cache.entries.length

def isEmpty (cache : Cache) : Bool := cache.entries.isEmpty

/-- The template for a key, built now if it is not there yet. -/
def get (cache : Cache) (key : Key) : Entry × Cache :=
  match cache.find? key with
  | some entry => (entry, cache)
  | none =>
    let entry := ⟨key, cache.builds, .division key, rfl⟩
    (entry, ⟨cache.entries ++ [entry], cache.builds + 1⟩)

end Cache

end DivGuard.Template
