import DivGuard.Template.Cache
import Mathlib.Data.Finset.Card
import Mathlib.Data.List.Range

/-!
# The entries of a cache

Looking up a key is the view of a cache: asking for a template adds an entry for its key if there is
none and changes no other.  In a cache that was empty once the entries are numbered in the order in
which they were built, so the number of builds is the number of keys, and an entry is known by its
number.
-/

namespace DivGuard.Template.Cache

variable {cache old new : Cache} {key key' : Key} {entry entry' : Entry} {keys : List Key}

/-! ## Asking for a template -/

theorem Entry.key_of_find? {entries : List Entry}
    (h : (entries.find? fun entry ↦ entry.key == key) = some entry) : entry.key = key := by
  simpa using List.find?_some h

theorem get_of_find? (h : cache.find? key = some entry) : cache.get key = (entry, cache) := by
  simp only [get, h]

theorem get_of_fresh (h : cache.find? key = none) :
    cache.get key = (⟨key, cache.builds, .division key, rfl⟩,
      ⟨cache.entries ++ [⟨key, cache.builds, .division key, rfl⟩], cache.builds + 1⟩) := by
  simp only [get, h]

theorem get_key (cache : Cache) (key : Key) : (cache.get key).1.key = key := by
  cases hfind : cache.find? key with
  | none => rw [get_of_fresh hfind]
  | some entry =>
      rw [get_of_find? hfind]
      exact Entry.key_of_find? hfind

theorem get_template (cache : Cache) (key : Key) : (cache.get key).1.template = .division key := by
  rw [Entry.template_eq, get_key]

/-- What asking for one key does to the look-up of all keys. -/
theorem find?_get (cache : Cache) (key key' : Key) :
    (cache.get key).2.find? key' = if key' = key then some (cache.get key).1
      else cache.find? key' := by
  cases hfind : cache.find? key with
  | some entry =>
      rw [get_of_find? hfind]
      split
      · next heq => rw [heq, hfind]
      · rfl
  | none =>
      rw [get_of_fresh hfind, find?, List.find?_append, ← find?]
      split
      · next heq => simp [heq, hfind]
      · next hne => simp [Ne.symm hne]

theorem contains_get (cache : Cache) (key key' : Key) :
    (cache.get key).2.contains key' = true ↔ key' = key ∨ cache.contains key' = true := by
  rw [contains, find?_get, contains]
  split
  · next heq => simp [heq]
  · next hne => simp [hne]

/-- Every entry of the older cache is found in the newer one, under its key. -/
def Keeps (old new : Cache) : Prop :=
  ∀ key entry, old.find? key = some entry → new.find? key = some entry

theorem Keeps.refl (cache : Cache) : cache.Keeps cache := fun _ _ h ↦ h

theorem Keeps.trans {between : Cache} (hfirst : old.Keeps between) (hsecond : between.Keeps new) :
    old.Keeps new := fun key entry h ↦ hsecond key entry (hfirst key entry h)

theorem keeps_get (cache : Cache) (key : Key) : cache.Keeps (cache.get key).2 := by
  intro key' entry hfind
  rw [find?_get]
  split
  · next heq =>
    subst heq
    rw [get_of_find? hfind]
  · exact hfind

theorem Keeps.contains (h : old.Keeps new) (hkey : old.contains key = true) :
    new.contains key = true := by
  obtain ⟨entry, hentry⟩ := Option.isSome_iff_exists.mp hkey
  exact Option.isSome_iff_exists.mpr ⟨entry, h key entry hentry⟩

/-! ## Well-kept caches -/

/-- Entries are numbered in the order in which they were built, and no key has two. -/
structure WellKept (cache : Cache) : Prop where
  serials : cache.entries.map Entry.serial = List.range cache.builds
  nodup : (cache.entries.map Entry.key).Nodup

theorem wellKept_empty : WellKept {} := ⟨rfl, List.nodup_nil⟩

theorem find?_eq_none_iff : cache.find? key = none ↔ key ∉ cache.entries.map Entry.key := by
  simp [find?]

theorem contains_iff : cache.contains key = true ↔ key ∈ cache.entries.map Entry.key := by
  rw [contains, Option.isSome_iff_ne_none, Ne, find?_eq_none_iff, not_not]

theorem WellKept.get (h : cache.WellKept) (key : Key) : (cache.get key).2.WellKept := by
  cases hfind : cache.find? key with
  | some entry =>
      rw [get_of_find? hfind]
      exact h
  | none =>
      rw [get_of_fresh hfind]
      constructor
      · rw [List.map_append, h.serials, List.range_succ]
        rfl
      · rw [List.map_append, List.nodup_append_comm]
        exact List.nodup_cons.mpr ⟨find?_eq_none_iff.mp hfind, h.nodup⟩

/-- An entry is known by its number. -/
theorem WellKept.eq_of_serial (h : cache.WellKept) (hentry : cache.find? key = some entry)
    (hentry' : cache.find? key' = some entry') (hserial : entry.serial = entry'.serial) :
    entry = entry' := by
  have hnodup : (cache.entries.map Entry.serial).Nodup := h.serials ▸ List.nodup_range
  exact List.inj_on_of_nodup_map hnodup (List.mem_of_find?_eq_some hentry)
    (List.mem_of_find?_eq_some hentry') hserial

/-- The keys of a cache, and that each was built once. -/
structure Holds (cache : Cache) (keys : List Key) : Prop where
  contains_iff : ∀ key, cache.contains key = true ↔ key ∈ keys
  size_eq : cache.size = keys.toFinset.card
  builds_eq : cache.builds = keys.toFinset.card
  isEmpty_iff : cache.isEmpty = true ↔ keys = []

theorem WellKept.holds (h : cache.WellKept)
    (hkeys : ∀ key, cache.contains key = true ↔ key ∈ keys) : cache.Holds keys := by
  have hset : keys.toFinset = (cache.entries.map Entry.key).toFinset := by
    ext key
    rw [List.mem_toFinset, List.mem_toFinset, ← hkeys, contains_iff]
  have hcard : keys.toFinset.card = cache.entries.length := by
    rw [hset, List.toFinset_card_of_nodup h.nodup, List.length_map]
  have hbuilds : cache.builds = cache.entries.length := by
    simpa using (congrArg List.length h.serials).symm
  refine ⟨hkeys, hcard.symm, hbuilds.trans hcard.symm, ?_⟩
  rw [isEmpty, List.isEmpty_iff, ← List.length_eq_zero_iff, ← hcard, Finset.card_eq_zero,
    List.toFinset_eq_empty_iff]

end DivGuard.Template.Cache
