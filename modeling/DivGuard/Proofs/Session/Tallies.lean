import DivGuard.Session.Tally
import Mathlib.Algebra.Order.Ring.Nat
import Mathlib.Data.List.Induction
import Mathlib.Data.List.Nodup

/-!
# What a tally holds

A tally that counted some names has one entry for each of them: the name and how often it occurred.
-/

namespace DivGuard.Tally

def countAll (t : Tally) (names : List String) : Tally := names.foldl count t

theorem countIn_map (name : String) {keys : List String} (hnodup : keys.Nodup) (f : String → Nat) :
    countIn name (keys.map fun key ↦ (key, f key)) =
      if name ∈ keys then keys.map fun key ↦ (key, f key + if key = name then 1 else 0)
      else (keys.map fun key ↦ (key, f key)) ++ [(name, 1)] := by
  induction keys with
  | nil => simp [countIn]
  | cons key keys ih =>
      obtain ⟨hkey, hkeys⟩ := List.nodup_cons.mp hnodup
      by_cases heq : key = name
      · subst heq
        have hrest : keys.map (fun other ↦ (other, f other + if other = key then 1 else 0)) =
            keys.map fun other ↦ (other, f other) := by
          apply List.map_congr_left
          intro other hother
          simp [ne_of_mem_of_not_mem hother hkey]
        simp [countIn, hrest]
      · have hne : name ≠ key := Ne.symm heq
        simp only [List.map_cons, countIn, heq, if_false, ih hkeys, List.mem_cons, hne, false_or,
          Nat.add_zero]
        split <;> rfl

theorem count_append_singleton (names : List String) (name key : String) :
    (names ++ [name]).count key = names.count key + if key = name then 1 else 0 := by
  rw [List.count_append, List.count_singleton]
  simp [eq_comm (a := name)]

/-- The entries in closed form.  Only their order is left open. -/
theorem entries_countAll (names : List String) :
    ∃ keys : List String, keys.Nodup ∧ (∀ key, key ∈ keys ↔ key ∈ names) ∧
      (countAll {} names).entries = keys.map fun key ↦ (key, names.count key) := by
  induction names using List.reverseRecOn with
  | nil => exact ⟨[], List.nodup_nil, by simp, rfl⟩
  | append_singleton names name ih =>
      obtain ⟨keys, hnodup, hmem, hentries⟩ := ih
      have hstep : (countAll {} (names ++ [name])).entries =
          countIn name (keys.map fun key ↦ (key, names.count key)) := by
        rw [← hentries, countAll, List.foldl_append]
        rfl
      rw [hstep, countIn_map name hnodup]
      by_cases hname : name ∈ keys
      · refine ⟨keys, hnodup, ?_, ?_⟩
        · intro key
          rw [hmem, List.mem_append, List.mem_singleton]
          refine ⟨Or.inl, ?_⟩
          rintro (hkey | rfl)
          · exact hkey
          · exact (hmem key).mp hname
        · simp only [if_pos hname, count_append_singleton]
      · refine ⟨keys ++ [name], ?_, ?_, ?_⟩
        · exact hnodup.append (List.nodup_singleton name) (by simpa using hname)
        · intro key
          rw [List.mem_append, List.mem_append, hmem]
        · have hfresh : names.count name = 0 :=
            List.count_eq_zero.mpr fun hin ↦ hname ((hmem name).mpr hin)
          rw [if_neg hname, List.map_append]
          congr 1
          · apply List.map_congr_left
            intro key hkey
            rw [count_append_singleton, if_neg (ne_of_mem_of_not_mem hkey hname), Nat.add_zero]
          · simp [hfresh]

theorem nodup_countAll (names : List String) :
    ((countAll {} names).entries.map Prod.fst).Nodup := by
  obtain ⟨keys, hnodup, -, hentries⟩ := entries_countAll names
  rw [hentries, List.map_map]
  exact (List.map_id keys).symm ▸ hnodup

theorem mem_countAll {names : List String} {name : String} {n : Nat} :
    (name, n) ∈ (countAll {} names).entries ↔ name ∈ names ∧ n = names.count name := by
  obtain ⟨keys, -, hmem, hentries⟩ := entries_countAll names
  rw [hentries, List.mem_map]
  constructor
  · rintro ⟨key, hkey, heq⟩
    obtain ⟨rfl, rfl⟩ := Prod.mk.inj heq
    exact ⟨(hmem key).mp hkey, rfl⟩
  · rintro ⟨hname, rfl⟩
    exact ⟨name, (hmem name).mpr hname, rfl⟩

theorem sum_countIn (name : String) (entries : List (String × Nat)) :
    ((countIn name entries).map Prod.snd).sum = (entries.map Prod.snd).sum + 1 := by
  induction entries with
  | nil => rfl
  | cons entry entries ih =>
      obtain ⟨other, n⟩ := entry
      unfold countIn
      split
      · simp only [List.map_cons, List.sum_cons]
        omega
      · simp only [List.map_cons, List.sum_cons, ih]
        omega

theorem sum_countAll (names : List String) (t : Tally) :
    ((t.countAll names).entries.map Prod.snd).sum =
      (t.entries.map Prod.snd).sum + names.length := by
  induction names generalizing t with
  | nil => rfl
  | cons name names ih =>
      have hstep : ((t.count name).entries.map Prod.snd).sum = (t.entries.map Prod.snd).sum + 1 :=
        sum_countIn name t.entries
      calc ((t.countAll (name :: names)).entries.map Prod.snd).sum
          = ((t.count name).entries.map Prod.snd).sum + names.length := ih (t.count name)
        _ = (t.entries.map Prod.snd).sum + (name :: names).length := by
          rw [hstep, List.length_cons]
          omega

end DivGuard.Tally
