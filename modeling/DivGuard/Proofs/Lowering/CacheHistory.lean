import DivGuard.Proofs.Lowering.Accounting
import DivGuard.Proofs.Template.Entries

/-!
# What a cache has been asked for

Many compilations share a cache.  Some ask it for templates by key, some lower divisions with it.
Lowering asks only for the key of a node that it has decided to rewrite, and a run asks once for
each key, as it remembers what it fetched.  So in the end a cache holds the keys that were asked for
by name and those of the divisions that were replaced, each built once.
-/

namespace DivGuard

open Template (Cache)

variable {l : Lowering} {g : Graph} {ds : List NodeId} {id : NodeId} {w : Workspace}
  {key : Template.Key}

/-- The operation of an unchecked division, with its width.  A stamp that is no integer counts as
width 0. -/
def Graph.divisionKey? (g : Graph) (id : NodeId) : Option Template.Key :=
  (g.node? id).bind fun node ↦
    match node.kind with
    | .divRem op => some ⟨op, node.stamp.bits?.getD 0⟩
    | .parameter _ | .constant _ | .safeDivRem _ | .equals | .guard _ | .result => none

namespace Lowering

/-- The node needs the template for a key: it is an unchecked division of two operands, divisions
are to be lowered, and the target supports the width. -/
def Needs (l : Lowering) (g : Graph) (id : NodeId) (key : Template.Key) : Prop :=
  l.required = true ∧ l.target.supportsWidth key.width = true ∧ g.divisionKey? id = some key ∧
    ∃ x y node, g.node? id = some node ∧ node.inputs = [x, y]

theorem divisionKey?_of_rewrite {x y : NodeId} (h : l.decision g id = .rewrite key x y) :
    g.divisionKey? id = some key := by
  obtain ⟨-, -, stamp, hwidth, hnode⟩ := decision_eq_rewrite_iff.mp h
  simp only [Graph.divisionKey?, hnode, Option.bind_some, hwidth]

theorem needs_of_rewrite {x y : NodeId} (h : l.decision g id = .rewrite key x y) :
    l.Needs g id key := by
  obtain ⟨hrequired, hwidth, stamp, -, hnode⟩ := decision_eq_rewrite_iff.mp h
  exact ⟨hrequired, hwidth, divisionKey?_of_rewrite h, x, y, _, hnode, rfl⟩

/-! ## The templates of a run -/

/-- The cache has every entry that was fetched. -/
def Backs (cache : Cache) (fetched : Fetched) : Prop :=
  ∀ entry ∈ fetched, cache.find? entry.key = some entry

theorem backs_nil (cache : Cache) : Backs cache [] := by simp [Backs]

/-- Fetching comes to asking the cache, also where the entry is remembered. -/
theorem fetch_eq_get {cache : Cache} {fetched : Fetched} (h : Backs cache fetched)
    (key : Template.Key) :
    (fetch key fetched cache).2.2 = (cache.get key).2 ∧
      Backs (cache.get key).2 (fetch key fetched cache).2.1 := by
  unfold fetch
  cases hfind : fetched.find? fun entry ↦ entry.key == key with
  | some entry =>
      have hkey : entry.key = key := Cache.Entry.key_of_find? hfind
      have hget : cache.get key = (entry, cache) :=
        Cache.get_of_find? (hkey ▸ h entry (List.mem_of_find?_eq_some hfind))
      rw [hget]
      exact ⟨rfl, h⟩
  | none =>
      refine ⟨rfl, fun entry hentry ↦ ?_⟩
      rcases List.mem_cons.mp hentry with rfl | hold
      · rw [Cache.get_key, Cache.find?_get, if_pos rfl]
      · exact cache.keeps_get key _ _ (h entry hold)

theorem lowerWith_cache_of_rewrite {x y : NodeId} (h : l.decision w.graph id = .rewrite key x y)
    (fetched : Fetched) :
    (l.lowerWith id fetched w).2.2.cache = (fetch key fetched w.cache).2.2 ∧
      (l.lowerWith id fetched w).2.1 = (fetch key fetched w.cache).2.1 := by
  rcases w.graph.addAll_cases (Template.guarded l.policy key x y w.graph.slots.size) with
    hadd | ⟨k, node, dead, -, -, hadd⟩
  · rw [lowerWith_of_addAll h hadd]
    exact ⟨rfl, rfl⟩
  · rw [lowerWith_of_addAll_error h hadd]
    exact ⟨rfl, rfl⟩

/-- Lowering a node asks the cache for one template, or for none. -/
theorem lowerWith_cache {fetched : Fetched} (hbacks : Backs w.cache fetched) (l : Lowering)
    (id : NodeId) :
    Backs (l.lowerWith id fetched w).2.2.cache (l.lowerWith id fetched w).2.1 ∧
      ((l.lowerWith id fetched w).2.2.cache = w.cache ∨
        ∃ key x y, l.decision w.graph id = .rewrite key x y ∧
          (l.lowerWith id fetched w).2.2.cache = (w.cache.get key).2) := by
  cases hdecision : l.decision w.graph id with
  | refuse e =>
      rw [lowerWith_of_refuse hdecision]
      exact ⟨hbacks, .inl rfl⟩
  | alreadySafe =>
      rw [lowerWith_of_alreadySafe hdecision]
      exact ⟨hbacks, .inl rfl⟩
  | notRequired =>
      rw [lowerWith_of_notRequired hdecision]
      exact ⟨hbacks, .inl rfl⟩
  | rewrite key x y =>
      obtain ⟨hcache, hfetched⟩ := lowerWith_cache_of_rewrite hdecision fetched
      obtain ⟨hget, hbacks'⟩ := fetch_eq_get hbacks key
      rw [hfetched, hcache, hget]
      exact ⟨hbacks', .inr ⟨key, x, y, rfl, rfl⟩⟩

section Induction

variable {p : Cache → Prop} (hget : ∀ cache key, p cache → p (cache.get key).2)

include hget

theorem lowerAll_cache_induction (ids : List NodeId) (count : Nat) {fetched : Fetched}
    (hbacks : Backs w.cache fetched) (hcache : p w.cache) :
    p (l.lowerAll ids count fetched w).2.cache := by
  induction ids generalizing count fetched w with
  | nil => exact hcache
  | cons id ids ih =>
      obtain ⟨hbacks', hstep⟩ := lowerWith_cache hbacks l id
      have hcache' : p (l.lowerWith id fetched w).2.2.cache := by
        rcases hstep with hsame | ⟨key, x, y, -, hasked⟩
        · rwa [hsame]
        · rw [hasked]
          exact hget w.cache key hcache
      rcases hlower : l.lowerWith id fetched w with ⟨_ | lowered, fetched', w'⟩
      all_goals rw [hlower] at hbacks' hcache'
      · rw [lowerAll_cons_of_error ids count hlower]
        exact hcache'
      · rw [lowerAll_cons_of_ok ids count hlower]
        exact ih _ hbacks' hcache'

/-- A call changes the cache only by asking for templates. -/
theorem Call.after_cache_induction (l : Lowering) (call : Call) (hcache : p w.cache) :
    p (call.after l w).cache := by
  cases call with
  | lower id =>
      rw [after_lower]
      exact lowerAll_cache_induction hget [id] 0 (backs_nil w.cache) hcache
  | run =>
      let entered : Workspace := { w with session := w.session.enter w.graph.name }
      rw [after_run]
      exact lowerAll_cache_induction (w := entered) hget (worklist w.graph) 0
        (backs_nil w.cache) hcache

end Induction

/-! ## The keys of a call -/

/-- From the one cache to the other, templates were asked for that these nodes of a graph need. -/
structure AskedFor (l : Lowering) (g : Graph) (es : List NodeId) (old new : Cache) : Prop where
  needed : ∀ e ∈ es, ∃ key, l.Needs g e key
  contains_iff : ∀ key, new.contains key = true ↔
    old.contains key = true ∨ ∃ e ∈ es, g.divisionKey? e = some key

namespace AskedFor

variable {es : List NodeId} {old new : Cache}

theorem refl (l : Lowering) (g : Graph) (cache : Cache) : AskedFor l g [] cache cache :=
  ⟨by simp, by simp⟩

theorem cons (hneeds : l.Needs g id key) (h : AskedFor l g es (old.get key).2 new) :
    AskedFor l g (id :: es) old new where
  needed := List.forall_mem_cons.mpr ⟨⟨key, hneeds⟩, h.needed⟩
  contains_iff key' := by
    have hkey : g.divisionKey? id = some key' ↔ key' = key := by
      rw [hneeds.2.2.1, Option.some.injEq, eq_comm]
    rw [h.contains_iff, Cache.contains_get, List.exists_mem_cons_iff, hkey, or_assoc, or_left_comm]

end AskedFor

/-- Which nodes templates are asked for is decided on the graph as it was at the start, as rewriting
a node does not change what is decided about the others. -/
theorem lowerAll_askedFor (hx : Expansion l g ds w.graph) {fetched : Fetched}
    (hbacks : Backs w.cache fetched) (ids : List NodeId) (count : Nat) :
    ∃ es, es ⊆ ids ∧ AskedFor l g es w.cache (l.lowerAll ids count fetched w).2.cache ∧
      (g.Closed → es = (l.replacements ids fetched w).map Prod.fst) := by
  induction ids generalizing ds count fetched w with
  | nil => exact ⟨[], List.Subset.refl [], .refl l g w.cache, fun _ ↦ rfl⟩
  | cons id ids ih =>
      have hpass : l.Skips w.graph id → ∃ es, es ⊆ id :: ids ∧
          AskedFor l g es w.cache (l.lowerAll (id :: ids) count fetched w).2.cache ∧
          (g.Closed → es = (l.replacements (id :: ids) fetched w).map Prod.fst) := by
        intro hskips
        obtain ⟨result, hstep, hresult⟩ := lowerWith_of_skips hskips fetched
        obtain ⟨es, hes, hasked, hreplaced⟩ :=
          ih (w := { w with session := w.session.recordSkipped }) hx hbacks count
        refine ⟨es, List.Subset.trans hes (List.subset_cons_self id ids), ?_, fun hclosed ↦ ?_⟩
        · rw [lowerAll_of_skips hskips]
          exact hasked
        · rw [hreplaced hclosed]
          cases result with
          | replaced new => exact absurd rfl (hresult new)
          | alreadySafe | notRequired => simp only [replacements, hstep]
      cases hdecision : l.decision w.graph id with
      | refuse e =>
          rw [lowerAll_of_refuse hdecision]
          refine ⟨[], List.nil_subset _, .refl l g w.cache, fun _ ↦ ?_⟩
          simp only [replacements, lowerWith_of_refuse hdecision, List.map_nil]
      | alreadySafe => exact hpass (.inl hdecision)
      | notRequired => exact hpass (.inr hdecision)
      | rewrite key x y =>
          obtain ⟨hn, x', y', hold, -, -⟩ := hx.decision_eq_rewrite hdecision
          have hneeds : l.Needs g id key := needs_of_rewrite hold
          obtain ⟨hcache, hfetched⟩ := lowerWith_cache_of_rewrite hdecision fetched
          obtain ⟨hget, hbacks'⟩ := fetch_eq_get hbacks key
          rw [← hfetched] at hbacks'
          rw [hget] at hcache
          rcases hx.lowerWith_of_rewrite hn hold fetched with
            ⟨fetched', w', hstep, hx'⟩ | ⟨hopen, e, herror⟩
          · rw [hstep] at hcache hbacks'
            obtain ⟨es, hes, hasked, hreplaced⟩ := ih hx' (hcache ▸ hbacks') (count + 1)
            refine ⟨id :: es, List.cons_subset_cons id hes, ?_, fun hclosed ↦ ?_⟩
            · rw [lowerAll_of_replaced hstep]
              exact .cons hneeds (hcache ▸ hasked)
            · simp only [replacements, hstep, List.map_cons, hreplaced hclosed]
          · rcases hstep : l.lowerWith id fetched w with ⟨result, fetched', w'⟩
            rw [hstep] at hcache herror
            obtain rfl : result = .error e := herror
            refine ⟨[id], by simp, ?_, fun hclosed ↦ absurd hclosed hopen⟩
            rw [lowerAll_cons_of_error ids count hstep, hcache]
            exact .cons hneeds (.refl l g _)

/-- A call asks for the templates of nodes that need them, and in a closed graph replaces these
nodes. -/
theorem Call.after_askedFor (l : Lowering) (w : Workspace) (call : Call) :
    ∃ es, es ⊆ call.ids w.graph ∧ AskedFor l w.graph es w.cache (call.after l w).cache ∧
      (w.graph.Closed → es = (call.replacements l w).map Prod.fst) := by
  cases call with
  | lower id =>
      rw [after_lower, replacements_lower]
      exact lowerAll_askedFor (.refl l w.graph) (backs_nil w.cache) [id] 0
  | run =>
      let entered : Workspace := { w with session := w.session.enter w.graph.name }
      rw [after_run]
      exact lowerAll_askedFor (w := entered) (.refl l w.graph) (backs_nil w.cache)
        (worklist w.graph) 0

end Lowering

/-! ## Histories -/

namespace Template.Cache

/-- What is done with a cache: it is asked for a template, or whether it has one, or divisions of
some graph are lowered with it. -/
inductive Use where
  | get (key : Key)
  | contains (key : Key)
  | lower (l : Lowering) (call : Lowering.Call) (g : Graph) (session : Session)

namespace Use

variable {cache : Cache} {use : Use}

def after (cache : Cache) : Use → Cache
  | .get key => (cache.get key).2
  | .contains _ => cache
  | .lower l call g session => (call.after l ⟨g, session, cache⟩).cache

/-- The keys that are asked for by name and those of the divisions that are replaced. -/
def asked (cache : Cache) : Use → List Key
  | .get key => [key]
  | .contains _ => []
  | .lower l call g session =>
    (call.replacements l ⟨g, session, cache⟩).filterMap fun (id, _) ↦ g.divisionKey? id

/-- The graph, if there is one, has no dead inputs. -/
def OnClosed : Use → Prop
  | .get _ | .contains _ => True
  | .lower _ _ g _ => g.Closed

theorem after_induction {p : Cache → Prop} (hget : ∀ cache key, p cache → p (cache.get key).2)
    (use : Use) (hcache : p cache) : p (use.after cache) := by
  cases use with
  | get key => exact hget cache key hcache
  | contains key => exact hcache
  | lower l call g session =>
      exact Lowering.Call.after_cache_induction (w := ⟨g, session, cache⟩) hget l call hcache

theorem contains_after_iff (hclosed : use.OnClosed) :
    (use.after cache).contains key = true ↔
      cache.contains key = true ∨ key ∈ use.asked cache := by
  cases use with
  | get asked => simp [after, Use.asked, contains_get, or_comm]
  | contains asked => simp [after, Use.asked]
  | lower l call g session =>
      obtain ⟨es, -, hasked, hreplaced⟩ := call.after_askedFor l ⟨g, session, cache⟩
      rw [after, hasked.contains_iff, hreplaced hclosed, Use.asked, List.mem_filterMap]
      simp only [List.mem_map, exists_exists_and_eq_and]

end Use

/-- Follows the uses of a cache in order and collects the keys that were asked for. -/
def follow : List Use → Cache → List Key × Cache
  | [], cache => ([], cache)
  | use :: uses, cache =>
    let (keys, cache') := follow uses (use.after cache)
    (use.asked cache ++ keys, cache')

variable {cache : Cache} {key : Key}

theorem follow_induction {p : Cache → Prop} (hget : ∀ cache key, p cache → p (cache.get key).2)
    (uses : List Use) (hcache : p cache) : p (follow uses cache).2 := by
  induction uses generalizing cache with
  | nil => exact hcache
  | cons use uses ih => exact ih (use.after_induction hget hcache)

theorem wellKept_follow (h : cache.WellKept) (uses : List Use) : (follow uses cache).2.WellKept :=
  follow_induction (fun _ key h ↦ h.get key) uses h

theorem keeps_follow (cache : Cache) (uses : List Use) : cache.Keeps (follow uses cache).2 :=
  follow_induction (fun new key h ↦ h.trans (new.keeps_get key)) uses (.refl cache)

theorem contains_follow_iff {uses : List Use} (hclosed : ∀ use ∈ uses, use.OnClosed) :
    (follow uses cache).2.contains key = true ↔
      cache.contains key = true ∨ key ∈ (follow uses cache).1 := by
  induction uses generalizing cache with
  | nil => simp [follow]
  | cons use uses ih =>
      obtain ⟨huse, huses⟩ := List.forall_mem_cons.mp hclosed
      simp only [follow, ih huses, Use.contains_after_iff huse, List.mem_append, or_assoc]

/-- Whatever is done in between, a key has the entry that it was first given, and its own number. -/
theorem get_follow_get (h : cache.WellKept) (key key' : Key) (more : List Use) :
    let first := cache.get key
    let later := (follow more first.2).2.get key'
    (later.1 = first.1 ↔ key' = key) ∧ (later.1.serial = first.1.serial ↔ key' = key) := by
  intro first later
  have hkept : later.2.WellKept := (wellKept_follow (h.get key) more).get key'
  have hfirst : later.2.find? key = some first.1 := by
    apply keeps_get
    apply keeps_follow
    rw [find?_get, if_pos rfl]
  have hlater : later.2.find? key' = some later.1 := by
    rw [find?_get, if_pos rfl]
  have hkey : later.1 = first.1 → key' = key := by
    intro heq
    rw [← Entry.key_of_find? hlater, ← Entry.key_of_find? hfirst, heq]
  have hentry : key' = key → later.1 = first.1 := by
    rintro rfl
    exact Option.some.inj (hlater.symm.trans hfirst)
  exact ⟨⟨hkey, hentry⟩, fun hserial ↦ hkey (hkept.eq_of_serial hlater hfirst hserial),
    fun heq ↦ congrArg Entry.serial (hentry heq)⟩

/-- What a cache holds that was new at first, after any uses.  It has built as many templates as it
has keys.  On graphs without dead inputs the keys are those that were asked for and those of the
divisions that were replaced; on others, too, lowering adds no key that none of its nodes needs.  No
key is ever lost, and asking for a key again, after whatever else was done, gives the same entry. -/
theorem follow_contents (uses : List Use) :
    let asked := (follow uses {}).1
    let cache := (follow uses {}).2
    (∃ keys, cache.Holds keys) ∧
    ((∀ use ∈ uses, use.OnClosed) → cache.Holds asked) ∧
    (∀ key, Use.after cache (.contains key) = cache) ∧
    (∀ key key' more,
      let first := cache.get key
      let later := (follow more first.2).2.get key'
      later.1.template = .division key' ∧ (later.1 = first.1 ↔ key' = key) ∧
        (later.1.serial = first.1.serial ↔ key' = key)) ∧
    (∀ key more, cache.contains key = true → (follow more cache).2.contains key = true) ∧
    ∀ l call g session key, (Use.after cache (.lower l call g session)).contains key = true →
      cache.contains key = true ∨ ∃ id ∈ call.ids g, l.Needs g id key := by
  intro asked cache
  have hkept : cache.WellKept := wellKept_follow wellKept_empty uses
  refine ⟨⟨_, hkept.holds fun _ ↦ contains_iff⟩, fun hclosed ↦ hkept.holds fun key ↦ ?_,
    fun _ ↦ rfl, fun key key' more ↦ ⟨get_template _ key', get_follow_get hkept key key' more⟩,
    fun key more ↦ (keeps_follow cache more).contains, fun l call g session key hkey ↦ ?_⟩
  · rw [contains_follow_iff hclosed]
    simp [contains, find?, asked]
  · obtain ⟨es, hes, hasked, -⟩ := call.after_askedFor l ⟨g, session, cache⟩
    rcases (hasked.contains_iff key).mp hkey with hold | ⟨e, he, hdivision⟩
    · exact .inl hold
    · obtain ⟨key', hneeds⟩ := hasked.needed e he
      obtain rfl : key' = key := Option.some.inj (hneeds.2.2.1.symm.trans hdivision)
      exact .inr ⟨e, hes he, hneeds⟩

/-- A cache shared by three compilations.  The second finds its divisions guarded by the machine,
the third stops at an octet. -/
theorem follow_contents_shared :
    let word : Key := ⟨.sdiv, 32⟩
    let uses : List Use := [
      .get ⟨.udiv, 64⟩,
      .lower { target := .aarch64 } .run .nested {},
      .lower { target := .x86_64 } .run .nested {},
      .contains ⟨.udiv, 8⟩,
      .lower { target := .x86_64, force := true } .run .uneven {}]
    let cache := (follow uses {}).2
    let first := cache.get word
    let again := (follow uses first.2).2.get word
    (∀ use ∈ uses, use.OnClosed) ∧ cache.Holds [⟨.udiv, 64⟩, word, word, ⟨.urem, 32⟩] ∧
      cache.size = 3 ∧ cache.contains word = true ∧ (follow uses cache).2.contains word = true ∧
      again.1 = first.1 := by
  intro word uses cache first again
  have hclosed : ∀ use ∈ uses, use.OnClosed := by
    have hnested : Graph.nested.Closed := by decide
    have huneven : Graph.uneven.Closed := by decide
    simp [uses, Use.OnClosed, hnested, huneven]
  have hasked : (follow uses {}).1 = [⟨.udiv, 64⟩, word, word, ⟨.urem, 32⟩] := by decide +kernel
  obtain ⟨-, hholds, -, hget, hkeeps, -⟩ := follow_contents uses
  have hcontents : cache.Holds [⟨.udiv, 64⟩, word, word, ⟨.urem, 32⟩] := hasked ▸ hholds hclosed
  have hcard : [⟨.udiv, 64⟩, word, word, ⟨.urem, 32⟩].toFinset.card = 3 := by decide
  have hword : cache.contains word = true := (hcontents.contains_iff word).mpr (by simp)
  obtain ⟨-, hsame, -⟩ := hget word word uses
  exact ⟨hclosed, hcontents, hcontents.size_eq.trans hcard, hword, hkeeps word uses hword,
    hsame.mpr rfl⟩

end Template.Cache

end DivGuard
