import Mathlib.Data.List.Dedup
import Mathlib.Data.List.Induction
import Mathlib.Data.List.Nodup
import TableClient.Proofs.Outcome
import TableClient.Record.LayoutCache
import TableClient.Record.Schema

/-! The cache of layouts over a run of requests. A layout that was once returned is returned from then
on, and its type takes no more names; until then each lookup builds the layout anew, from the names that
were registered last. What is returned for a type depends on the requests about it alone. -/

namespace TableClient.LayoutCache

universe u

variable {ι : Type u} {R : ι → Type}

/-! ### Requests -/

inductive Request (ι : Type u) where
  | register (i : ι) (mapping : Renames)
  | lookup (i : ι)

/-- A request with its result, and what it logged. -/
inductive Reply (R : ι → Type) where
  | register (i : ι) (mapping : Renames) (result : Except MappingError Unit)
  | lookup (i : ι) (result : Except MappingError (Layout (R i))) (logged : List LogEntry)

def Request.subject : Request ι → ι
  | register i _ => i
  | lookup i => i

namespace Reply

def request : Reply R → Request ι
  | register i mapping _ => .register i mapping
  | lookup i _ _ => .lookup i

def subject (a : Reply R) : ι := a.request.subject

def failed : Reply R → Bool
  | register _ _ (.error _) | lookup _ (.error _) _ => true
  | _ => false

def logged : Reply R → List LogEntry
  | register .. => []
  | lookup _ _ logged => logged

def found? : Reply R → Option ι
  | lookup i (.ok _) _ => some i
  | _ => none

/-- Why the layout of a type could not be built. -/
def failure? [DecidableEq ι] (i : ι) : Reply R → Option MappingError
  | lookup j (.error e) _ => if j = i then some e else none
  | _ => none

/-- The names that were registered for a type. -/
def registered? [DecidableEq ι] (i : ι) : Reply R → Option Renames
  | register j mapping (.ok _) => if j = i then some mapping else none
  | _ => none

end Reply

/-- The types that a layout was returned for are those of the successful lookups. -/
theorem mem_filterMap_found?_iff {i : ι} {replies : List (Reply R)} : i ∈ replies.filterMap Reply.found? ↔
    ∃ l logged, .lookup i (.ok l) logged ∈ replies := by
  rw [List.mem_filterMap]
  constructor
  · rintro ⟨a, ha, hfound⟩
    unfold Reply.found? at hfound
    split at hfound
    next j l logged =>
      cases hfound
      exact ⟨l, logged, ha⟩
    next => cases hfound
  · rintro ⟨l, logged, hmem⟩
    exact ⟨_, hmem, rfl⟩

def lastRegistered? [DecidableEq ι] (i : ι) (replies : List (Reply R)) : Option Renames :=
  (replies.filterMap (Reply.registered? i)).getLast?

def logsAbout [DecidableEq ι] (i : ι) (replies : List (Reply R)) : List LogEntry :=
  (replies.filter (·.subject = i)).flatMap Reply.logged

/-- What is logged about a layout that was built. -/
def builtEntry {R : Type} (type : RecordType R) : LogEntry :=
  .ofEvent .descriptorBuilt
    [("fields", String.ofList (Text.decimal type.fields.length)), ("type", type.name)]

/-- What is logged about a layout that could not be built. -/
def rejectedEntry {R : Type} (type : RecordType R) (e : MappingError) : LogEntry :=
  .ofEvent .descriptorRejected [("code", e.code), ("reason", e.message), ("type", type.name)]

/-- The error for names that come too late. -/
def lateError {R : Type} (type : RecordType R) : MappingError :=
  .invalidArgument ("mapping for " ++ type.name ++ " registered after its descriptor was built")

section Runs

variable [DecidableEq ι] (types : (i : ι) → RecordType (R i))

/-- Answers one request. A registration that fails leaves the cache as it is. -/
def serve (cache : LayoutCache R) : Request ι → Reply R × LayoutCache R
  | .register i mapping =>
    match cache.register types i mapping with
    | .ok cache => (.register i mapping (.ok ()), cache)
    | .error e => (.register i mapping (.error e), cache)
  | .lookup i =>
    let found := cache.lookup types i
    (.lookup i found.result found.logged, found.cache)

def run (cache : LayoutCache R) : List (Request ι) → List (Reply R) × LayoutCache R
  | [] => ([], cache)
  | q :: qs =>
    let (a, cache) := cache.serve types q
    let (as, cache) := cache.run qs
    (a :: as, cache)

/-- What one request comes to: names come too late or are taken; a layout is there, is built, or cannot
be built. -/
inductive Served (cache : LayoutCache R) : Request ι → Reply R → LayoutCache R → Prop
  | late {i : ι} {l : Layout (R i)} (mapping : Renames) : cache.find? i = some l →
      Served cache (.register i mapping)
        (.register i mapping (.error (lateError (types i)))) cache
  | taken {i : ι} (mapping : Renames) : cache.find? i = none →
      Served cache (.register i mapping) (.register i mapping (.ok ()))
        { cache with mappings := (i, mapping) :: cache.mappings }
  | found {i : ι} {l : Layout (R i)} : cache.find? i = some l →
      Served cache (.lookup i) (.lookup i (.ok l) []) cache
  | built {i : ι} {l : Layout (R i)} : cache.find? i = none →
      Layout.build cache.config (cache.mapping? i) (types i) = .ok l →
      Served cache (.lookup i) (.lookup i (.ok l) [builtEntry (types i)])
        { cache with layouts := ⟨i, l⟩ :: cache.layouts }
  | rejected {i : ι} {e : MappingError} : cache.find? i = none →
      Layout.build cache.config (cache.mapping? i) (types i) = .error e →
      Served cache (.lookup i) (.lookup i (.error e) [rejectedEntry (types i) e]) cache

variable {types} {cache cache' : LayoutCache R} {i j : ι} {l : Layout (R i)} {q : Request ι}
  {a : Reply R}

/-! ### One request -/

theorem find?_cons_self (config : LayoutConfig) (l : Layout (R i))
    (layouts : List ((i : ι) × Layout (R i))) (mappings : List (ι × Renames)) :
    find? ⟨config, ⟨i, l⟩ :: layouts, mappings⟩ i = some l := by
  simp [find?, findIn]

theorem find?_cons_of_ne (h : i ≠ j) (config : LayoutConfig) (l : Layout (R i))
    (layouts : List ((i : ι) × Layout (R i))) (mappings : List (ι × Renames)) :
    find? ⟨config, ⟨i, l⟩ :: layouts, mappings⟩ j = find? ⟨config, layouts, mappings⟩ j := by
  simp [find?, findIn, h]

theorem mapping?_cons (i j : ι) (config : LayoutConfig) (layouts : List ((i : ι) × Layout (R i)))
    (mapping : Renames) (mappings : List (ι × Renames)) :
    mapping? ⟨config, layouts, (i, mapping) :: mappings⟩ j =
      if i = j then some mapping else mapping? ⟨config, layouts, mappings⟩ j := by
  by_cases h : i = j <;> simp [mapping?, h]

theorem Served.serve_eq (h : Served types cache q a cache') : cache.serve types q = (a, cache') := by
  cases h with
  | late mapping hfind => simp [serve, register, isCached, hfind, lateError]
  | taken mapping hfind => simp [serve, register, isCached, hfind]
  | found hfind => simp [serve, lookup, hfind]
  | built hfind hbuild => simp [serve, lookup, hfind, hbuild, builtEntry]
  | rejected hfind hbuild => simp [serve, lookup, hfind, hbuild, rejectedEntry]

theorem served_serve (cache : LayoutCache R) (q : Request ι) :
    Served types cache q (cache.serve types q).1 (cache.serve types q).2 := by
  obtain ⟨a, cache', h⟩ : ∃ a cache', Served types cache q a cache' := by
    cases q with
    | register i mapping =>
      cases hfind : cache.find? i with
      | some l => exact ⟨_, _, .late mapping hfind⟩
      | none => exact ⟨_, _, .taken mapping hfind⟩
    | lookup i =>
      cases hfind : cache.find? i with
      | some l => exact ⟨_, _, .found hfind⟩
      | none =>
        cases hbuild : Layout.build cache.config (cache.mapping? i) (types i) with
        | ok l => exact ⟨_, _, .built hfind hbuild⟩
        | error e => exact ⟨_, _, .rejected hfind hbuild⟩
  rw [h.serve_eq]
  exact h

theorem Served.request_eq (h : Served types cache q a cache') : a.request = q := by
  cases h <;> rfl

/-- A request that fails leaves the cache as it is. -/
theorem Served.eq_of_failed (h : Served types cache q a cache') (hfailed : a.failed) :
    cache' = cache := by
  cases h with
  | late | found | rejected => rfl
  | taken | built => cases hfailed

/-! ### What a cache remembers -/

/-- A cache that has come about by requests with the given replies. -/
structure Remembers (types : (i : ι) → RecordType (R i)) (config : LayoutConfig)
    (replies : List (Reply R)) (cache : LayoutCache R) : Prop where
  config_eq : cache.config = config
  find?_iff : ∀ i l, cache.find? i = some l ↔ ∃ logged, .lookup i (.ok l) logged ∈ replies
  mapping?_eq : ∀ i, cache.mapping? i = lastRegistered? i replies
  nodup : (cache.layouts.map Sigma.fst).Nodup
  logs_eq : ∀ i, logsAbout i replies = (replies.filterMap (Reply.failure? i)).map
    (rejectedEntry (types i)) ++ if cache.isCached i then [builtEntry (types i)] else []

theorem remembers_start (config : LayoutConfig) : Remembers types config [] (start config) where
  config_eq := rfl
  find?_iff i l := by simp [find?, findIn, start]
  mapping?_eq i := rfl
  nodup := List.nodup_nil
  logs_eq i := rfl

variable {config : LayoutConfig} {replies : List (Reply R)}

theorem lastRegistered?_concat (i : ι) (replies : List (Reply R)) (a : Reply R) :
    lastRegistered? i (replies ++ [a]) = (a.registered? i).or (lastRegistered? i replies) := by
  rw [lastRegistered?, List.filterMap_append]
  cases h : a.registered? i <;> simp [h, lastRegistered?]

theorem logsAbout_concat (i : ι) (replies : List (Reply R)) (a : Reply R) :
    logsAbout i (replies ++ [a]) = logsAbout i replies ++ if a.subject = i then a.logged else [] := by
  rw [logsAbout, List.filter_append, List.flatMap_append]
  by_cases h : a.subject = i <;> simp [h, logsAbout]

theorem failures_concat (i : ι) (replies : List (Reply R)) (a : Reply R) :
    (replies ++ [a]).filterMap (Reply.failure? i) =
      replies.filterMap (Reply.failure? i) ++ (a.failure? i).toList := by
  rw [List.filterMap_append]
  cases h : a.failure? i <;> simp [h]

/-- A reply that registers nothing and returns no new layout is remembered by the same cache. -/
theorem Remembers.same (h : Remembers types config replies cache)
    (hregistered : ∀ j, a.registered? j = none)
    (hfound : ∀ j l logged, a = .lookup j (.ok l) logged → cache.find? j = some l)
    (hlogs : ∀ j, a.subject = j → a.logged = ((a.failure? j).map (rejectedEntry (types j))).toList)
    (hfailure : ∀ j, (a.failure? j).isSome → a.subject = j ∧ cache.isCached j = false) :
    Remembers types config (replies ++ [a]) cache where
  config_eq := h.config_eq
  find?_iff j l := by
    rw [h.find?_iff]
    constructor
    · rintro ⟨logged, hmem⟩
      exact ⟨logged, List.mem_append_left _ hmem⟩
    · rintro ⟨logged, hmem⟩
      rcases List.mem_append.1 hmem with hmem | hlast
      · exact ⟨logged, hmem⟩
      · exact (h.find?_iff j l).1 (hfound j l logged (List.mem_singleton.1 hlast).symm)
  mapping?_eq j := by rw [lastRegistered?_concat, hregistered, Option.none_or, h.mapping?_eq]
  nodup := h.nodup
  logs_eq j := by
    rw [logsAbout_concat, failures_concat, h.logs_eq]
    cases hf : a.failure? j with
    | none =>
      have hnone : (if a.subject = j then a.logged else []) = [] := by
        split
        next hj => rw [hlogs j hj, hf]; rfl
        next => rfl
      rw [hnone, List.append_nil, Option.toList_none, List.append_nil]
    | some e =>
      obtain ⟨hj, hcached⟩ := hfailure j (by rw [hf]; rfl)
      rw [if_pos hj, hlogs j hj, hf, hcached]
      simp

/-- Names are remembered as the last of their type. -/
theorem Remembers.register (h : Remembers types config replies cache) (i : ι) (mapping : Renames) :
    Remembers types config (replies ++ [.register i mapping (.ok ())])
      { cache with mappings := (i, mapping) :: cache.mappings } where
  config_eq := h.config_eq
  find?_iff j l := by
    refine (h.find?_iff j l).trans (exists_congr fun logged => ?_)
    simp
  mapping?_eq j := by
    rw [mapping?_cons, lastRegistered?_concat, ← h.mapping?_eq, Reply.registered?]
    split <;> rfl
  nodup := h.nodup
  logs_eq j := by
    have hcached : isCached { cache with mappings := (i, mapping) :: cache.mappings } j =
        cache.isCached j := rfl
    rw [logsAbout_concat, failures_concat, hcached]
    simpa [Reply.logged, Reply.failure?] using h.logs_eq j

theorem isSome_find?_iff (cache : LayoutCache R) (i : ι) :
    (cache.find? i).isSome ↔ i ∈ cache.layouts.map Sigma.fst := by
  unfold find?
  induction cache.layouts with
  | nil => simp [findIn]
  | cons p rest ih =>
    obtain ⟨j, l⟩ := p
    by_cases h : j = i
    · subst h
      simp [findIn]
    · simp [findIn, h, ih, Ne.symm h]

/-- A layout that was built is remembered from then on. -/
theorem Remembers.lookup (h : Remembers types config replies cache) (hfind : cache.find? i = none)
    (l : Layout (R i)) : Remembers types config (replies ++ [.lookup i (.ok l) [builtEntry (types i)]])
      { cache with layouts := ⟨i, l⟩ :: cache.layouts } where
  config_eq := h.config_eq
  find?_iff j l' := by
    by_cases hj : i = j
    · subst hj
      rw [find?_cons_self]
      constructor
      · rintro ⟨⟩
        exact ⟨_, List.mem_append_right _ (List.mem_singleton_self _)⟩
      · rintro ⟨logged, hmem⟩
        rcases List.mem_append.1 hmem with hmem | hlast
        · rw [(h.find?_iff i l').2 ⟨logged, hmem⟩] at hfind
          cases hfind
        · cases List.mem_singleton.1 hlast
          rfl
    · rw [find?_cons_of_ne hj]
      refine (h.find?_iff j l').trans (exists_congr fun logged => ?_)
      simp [Ne.symm hj]
  mapping?_eq j := by
    rw [lastRegistered?_concat, ← h.mapping?_eq]
    rfl
  nodup := by
    refine List.nodup_cons.2 ⟨fun hmem => ?_, h.nodup⟩
    rw [← isSome_find?_iff, hfind] at hmem
    cases hmem
  logs_eq j := by
    rw [logsAbout_concat, failures_concat, h.logs_eq]
    by_cases hj : i = j
    · subst hj
      simp [isCached, hfind, find?_cons_self, Reply.failure?, Reply.subject, Reply.request,
        Request.subject, Reply.logged]
    · have hcached : isCached { cache with layouts := ⟨i, l⟩ :: cache.layouts } j = cache.isCached j :=
        congrArg Option.isSome (find?_cons_of_ne hj cache.config l cache.layouts cache.mappings)
      rw [hcached]
      simp [hj, Reply.failure?, Reply.subject, Reply.request, Request.subject]

/-- What is remembered, after one more request. -/
theorem Remembers.served (h : Remembers types config replies cache)
    (hserved : Served types cache q a cache') : Remembers types config (replies ++ [a]) cache' := by
  cases hserved with
  | late mapping hfind =>
    exact h.same (by simp [Reply.registered?]) (by simp) (by simp [Reply.logged, Reply.failure?])
      (by simp [Reply.failure?])
  | taken mapping hfind => exact h.register _ mapping
  | found hfind =>
    refine h.same (by simp [Reply.registered?]) ?_ (by simp [Reply.logged, Reply.failure?])
      (by simp [Reply.failure?])
    rintro j l logged ⟨⟩
    exact hfind
  | built hfind hbuild => exact h.lookup hfind _
  | @rejected i e hfind hbuild =>
    refine h.same (by simp [Reply.registered?]) (fun j l logged hsame => by cases hsame) ?_
      fun j hj => ?_
    · rintro j rfl
      simp [Reply.failure?, Reply.logged, Reply.subject, Reply.request, Request.subject]
    · by_cases hsame : i = j
      · subst hsame
        exact ⟨rfl, by simp [isCached, hfind]⟩
      · simp [Reply.failure?, hsame] at hj

/-! ### Runs -/

theorem run_cons (cache : LayoutCache R) (q : Request ι) (requests : List (Request ι)) :
    cache.run types (q :: requests) = ((cache.serve types q).1 ::
      ((cache.serve types q).2.run types requests).1, ((cache.serve types q).2.run types requests).2) :=
  rfl

theorem run_append (cache : LayoutCache R) (first second : List (Request ι)) :
    cache.run types (first ++ second) = ((cache.run types first).1 ++
      ((cache.run types first).2.run types second).1, ((cache.run types first).2.run types second).2) := by
  induction first generalizing cache with
  | nil => rfl
  | cons q first ih => rw [List.cons_append, run_cons, ih, run_cons, List.cons_append]

theorem run_concat (cache : LayoutCache R) (requests : List (Request ι)) (q : Request ι) :
    cache.run types (requests ++ [q]) = ((cache.run types requests).1 ++
      [((cache.run types requests).2.serve types q).1], ((cache.run types requests).2.serve types q).2) := by
  rw [run_append]
  rfl

theorem map_request_run (cache : LayoutCache R) (requests : List (Request ι)) :
    (cache.run types requests).1.map Reply.request = requests := by
  induction requests generalizing cache with
  | nil => rfl
  | cons q requests ih => rw [run_cons, List.map_cons, ih, (served_serve cache q).request_eq]

/-- A run can be stopped before any of its replies. -/
theorem exists_run_before {before after : List (Reply R)} {requests : List (Request ι)}
    (h : (cache.run types requests).1 = before ++ a :: after) :
    ∃ earlier q cache', (cache.run types earlier).1 = before ∧
      Served types (cache.run types earlier).2 q a cache' := by
  induction requests generalizing cache before with
  | nil => simp [run] at h
  | cons q requests ih =>
    rw [run_cons] at h
    cases before with
    | nil =>
      obtain ⟨rfl, -⟩ := List.cons.inj h
      exact ⟨[], q, _, rfl, served_serve cache q⟩
    | cons b before =>
      obtain ⟨hfirst, hrest⟩ := List.cons.inj h
      obtain ⟨earlier, q', cache', hearlier, hserved⟩ := ih hrest
      exact ⟨q :: earlier, q', cache', by rw [run_cons, hearlier, hfirst], hserved⟩

theorem remembers_run (config : LayoutConfig) (requests : List (Request ι)) :
    Remembers types config ((start config : LayoutCache R).run types requests).1
      ((start config : LayoutCache R).run types requests).2 := by
  induction requests using List.reverseRecOn with
  | nil => exact remembers_start config
  | append_singleton requests q ih =>
    rw [run_concat]
    exact ih.served (served_serve _ q)

/-! ### Replies from a memory -/

/-- Once a layout was returned, lookups return it, and names come too late. -/
theorem Remembers.served_of_found (h : Remembers types config replies cache) {logged : List LogEntry}
    (hfound : .lookup i (.ok l) logged ∈ replies) (hserved : Served types cache q a cache')
    (ha : a.subject = i) : a = .lookup i (.ok l) [] ∨
      ∃ mapping, a = .register i mapping (.error (lateError (types i))) := by
  have hfind : cache.find? i = some l := (h.find?_iff i l).2 ⟨logged, hfound⟩
  cases hserved with
  | @late j _ mapping _ =>
    obtain rfl : j = i := ha
    exact .inr ⟨mapping, rfl⟩
  | @found j _ hfind' =>
    obtain rfl : j = i := ha
    obtain rfl := Option.some.inj (hfind.symm.trans hfind')
    exact .inl rfl
  | @taken j _ hnone | @built j _ hnone _ | @rejected j _ hnone _ =>
    obtain rfl : j = i := ha
    cases hfind.symm.trans hnone

/-- Until then names are taken, and lookups build with the last of them. -/
theorem Remembers.served_of_not_found (h : Remembers types config replies cache)
    (hnone : ∀ l logged, .lookup i (.ok l) logged ∉ replies) (hserved : Served types cache q a cache')
    (ha : a.subject = i) : (∃ mapping, a = .register i mapping (.ok ())) ∨
      (∃ l, Layout.build config (lastRegistered? i replies) (types i) = .ok l ∧
        a = .lookup i (.ok l) [builtEntry (types i)]) ∨
      ∃ e, Layout.build config (lastRegistered? i replies) (types i) = .error e ∧
        a = .lookup i (.error e) [rejectedEntry (types i) e] := by
  have hfind (l : Layout (R i)) : cache.find? i ≠ some l := fun hl => by
    obtain ⟨logged, hmem⟩ := (h.find?_iff i l).1 hl
    exact hnone l logged hmem
  rw [← h.config_eq, ← h.mapping?_eq]
  cases hserved with
  | @late j _ _ hl | @found j _ hl =>
    obtain rfl : j = i := ha
    exact absurd hl (hfind _)
  | @taken j mapping _ =>
    obtain rfl : j = i := ha
    exact .inl ⟨mapping, rfl⟩
  | @built j l _ hbuild =>
    obtain rfl : j = i := ha
    exact .inr (.inl ⟨l, hbuild, rfl⟩)
  | @rejected j e _ hbuild =>
    obtain rfl : j = i := ha
    exact .inr (.inr ⟨e, hbuild, rfl⟩)

theorem Remembers.isCached_iff (h : Remembers types config replies cache) (i : ι) :
    cache.isCached i ↔ i ∈ replies.filterMap Reply.found? := by
  rw [isCached, Option.isSome_iff_exists, mem_filterMap_found?_iff]
  exact exists_congr fun l => h.find?_iff i l

/-- There are as many layouts as types that one was returned for. -/
theorem Remembers.size_eq (h : Remembers types config replies cache) :
    cache.size = (replies.filterMap Reply.found?).dedup.length := by
  have hperm : (cache.layouts.map Sigma.fst).Perm (replies.filterMap Reply.found?).dedup :=
    (List.perm_ext_iff_of_nodup h.nodup (List.nodup_dedup _)).2 fun i => by
      rw [List.mem_dedup, ← h.isCached_iff, isCached, isSome_find?_iff]
  rw [size, ← List.length_map Sigma.fst, hperm.length_eq]

/-! ### Types side by side -/

/-- Two caches have the same of one type. -/
structure Agrees (i : ι) (c d : LayoutCache R) : Prop where
  config_eq : c.config = d.config
  find?_eq : c.find? i = d.find? i
  mapping?_eq : c.mapping? i = d.mapping? i

/-- A request about another type is not noticed. -/
theorem Served.agrees (h : Served types cache q a cache') (hne : q.subject ≠ i) :
    Agrees i cache' cache := by
  cases h with
  | late | found | rejected => exact ⟨rfl, rfl, rfl⟩
  | @taken j mapping _ =>
    have hne : j ≠ i := hne
    exact ⟨rfl, rfl, by rw [mapping?_cons, if_neg hne]⟩
  | built => exact ⟨rfl, find?_cons_of_ne hne _ _ _ _, rfl⟩

/-- Requests about a type are answered from what the cache has of the type. -/
theorem Agrees.served {c c' d : LayoutCache R} (h : Agrees i c d) (hserved : Served types c q a c')
    (hq : q.subject = i) : ∃ d', Served types d q a d' ∧ Agrees i c' d' := by
  cases hserved with
  | @late j _ mapping hfind =>
    obtain rfl : j = i := hq
    exact ⟨d, .late mapping (h.find?_eq.symm.trans hfind), h⟩
  | @taken j mapping hfind =>
    obtain rfl : j = i := hq
    exact ⟨_, .taken mapping (h.find?_eq.symm.trans hfind), h.config_eq, h.find?_eq,
      by rw [mapping?_cons, mapping?_cons, if_pos rfl, if_pos rfl]⟩
  | @found j _ hfind =>
    obtain rfl : j = i := hq
    exact ⟨d, .found (h.find?_eq.symm.trans hfind), h⟩
  | @built j _ hfind hbuild =>
    obtain rfl : j = i := hq
    rw [h.config_eq, h.mapping?_eq] at hbuild
    exact ⟨_, .built (h.find?_eq.symm.trans hfind) hbuild, h.config_eq,
      by rw [find?_cons_self, find?_cons_self], h.mapping?_eq⟩
  | @rejected j _ hfind hbuild =>
    obtain rfl : j = i := hq
    rw [h.config_eq, h.mapping?_eq] at hbuild
    exact ⟨d, .rejected (h.find?_eq.symm.trans hfind) hbuild, h⟩

theorem Agrees.trans {b c d : LayoutCache R} (h : Agrees i b c) (h' : Agrees i c d) : Agrees i b d :=
  ⟨h.config_eq.trans h'.config_eq, h.find?_eq.trans h'.find?_eq, h.mapping?_eq.trans h'.mapping?_eq⟩

/-- Of a run, the replies about a type are those of the requests about it alone. -/
theorem Agrees.run {c d : LayoutCache R} (h : Agrees i c d) (requests : List (Request ι)) :
    (c.run types requests).1.filter (·.subject = i) =
      (d.run types (requests.filter (·.subject = i))).1 := by
  induction requests generalizing c d with
  | nil => rfl
  | cons q requests ih =>
    rw [run_cons]
    have hserved : Served types c q _ _ := served_serve c q
    have hsubject : (c.serve types q).1.subject = q.subject :=
      congrArg Request.subject hserved.request_eq
    by_cases hq : q.subject = i
    · obtain ⟨d', hd, hagrees⟩ := h.served hserved hq
      rw [List.filter_cons_of_pos (by simpa [hsubject] using hq),
        List.filter_cons_of_pos (by simpa using hq), run_cons, hd.serve_eq, ih hagrees]
    · rw [List.filter_cons_of_neg (by simpa [hsubject] using hq),
        List.filter_cons_of_neg (by simpa using hq), ih ((hserved.agrees hq).trans h)]

/-! ### All runs -/

/-- A run of requests, from an empty cache on. Each request has its reply. Once the layout of a type was
returned, lookups return it and log nothing, and registrations fail; until then registrations succeed, and
lookups build the layout with the names registered last, which is logged. What fails changes nothing. The
replies about a type are those of a run of the requests about it alone, and over all of them each failure
is logged once and the first success once. There are as many layouts as types that one was returned for. -/
theorem run_writeOnce (types : (i : ι) → RecordType (R i)) (config : LayoutConfig)
    (requests : List (Request ι)) :
    let replies := ((start config : LayoutCache R).run types requests).1
    let cache := ((start config : LayoutCache R).run types requests).2
    replies.map Reply.request = requests ∧
    (∀ before a after, replies = before ++ a :: after → ∀ i, a.subject = i →
      (∀ l logged, .lookup i (.ok l) logged ∈ before →
        a = .lookup i (.ok l) [] ∨
          ∃ mapping, a = .register i mapping (.error (lateError (types i)))) ∧
      ((∀ l logged, .lookup i (.ok l) logged ∉ before) →
        (∃ mapping, a = .register i mapping (.ok ())) ∨
        (∃ l, Layout.build config (lastRegistered? i before) (types i) = .ok l ∧
          a = .lookup i (.ok l) [builtEntry (types i)]) ∨
        ∃ e, Layout.build config (lastRegistered? i before) (types i) = .error e ∧
          a = .lookup i (.error e) [rejectedEntry (types i) e])) ∧
    (∀ q, (cache.serve types q).1.failed → (cache.serve types q).2 = cache) ∧
    (∀ i, replies.filter (·.subject = i) =
      ((start config : LayoutCache R).run types (requests.filter (·.subject = i))).1) ∧
    (∀ i, logsAbout i replies = (replies.filterMap (Reply.failure? i)).map (rejectedEntry (types i)) ++
      if i ∈ replies.filterMap Reply.found? then [builtEntry (types i)] else []) ∧
    (∀ i, cache.isCached i ↔ i ∈ replies.filterMap Reply.found?) ∧
    cache.size = (replies.filterMap Reply.found?).dedup.length := by
  intro replies cache
  have hremembers : Remembers types config replies cache := remembers_run config requests
  refine ⟨map_request_run _ _, ?_, fun q => (served_serve cache q).eq_of_failed, fun i => ?_,
    fun i => ?_, hremembers.isCached_iff, hremembers.size_eq⟩
  · intro before a after hsplit i hsubject
    obtain ⟨earlier, q, cache', rfl, hserved⟩ := exists_run_before hsplit
    have hbefore : Remembers types config _ _ := remembers_run config earlier
    constructor
    · intro l logged hfound
      exact hbefore.served_of_found hfound hserved hsubject
    · intro hnone
      exact hbefore.served_of_not_found hnone hserved hsubject
  · exact Agrees.run ⟨rfl, rfl, rfl⟩ requests
  · rw [hremembers.logs_eq]
    simp only [hremembers.isCached_iff]

/-- A type with no key, unless a name is registered. -/
def badge : Schema := ⟨"Badge", [⟨"Label", .value (.scalar .string), [], .value (.string "")⟩]⟩

/-- Asked for too early, then with a name, then once more. -/
theorem run_writeOnce_badge :
    let requests := [.lookup (), .register () ⟨[("Label", "RowKey")]⟩, .lookup (), .lookup ()]
    let served := (start .standard : LayoutCache fun _ : Unit => Schema.Record).run
      (fun _ => badge.recordType) requests
    served.2.size = 1 ∧ (logsAbout () served.1).map LogEntry.event =
      ["DESCRIPTOR_REJECTED", "DESCRIPTOR_BUILT"] := by
  intro requests served
  obtain ⟨-, -, -, -, hlogs, -, hsize⟩ := run_writeOnce (fun _ : Unit => badge.recordType) .standard requests
  refine ⟨hsize.trans rfl, ?_⟩
  rw [show logsAbout () served.1 = _ from hlogs ()]
  rfl

end Runs

end TableClient.LayoutCache
