import Coord.Auth.Scope
import Coord.Kvt.Watch

/-!
# The access that is checked for a watch, and the keys it delivers

A watch is opened on the server or through an agent, in either version of the protocol. The scope check sees an access;
the events that come are those of the keys the server matches.
-/

namespace Coord.Auth

open Coord.Lib Coord.Kvt.Watch

/-! ### Checks and deliveries -/

def keyMatches (key pre rangeEnd : Bytes) : Bool :=
  let interval := watchMatchInterval pre rangeEnd
  intervalContains interval.1 interval.2 key

/-- The access of a v1 create request; no upper bound is written as the unbounded range end. -/
def watchCreateAccess (key rangeEnd : Bytes) : ScopeAccess :=
  let interval := watchMatchInterval key rangeEnd
  .range interval.1 (interval.2.getD unboundedRangeEnd)

/-- The access of a v2 create request, as the server checks it. -/
def watchScopeAccess (key rangeEnd : Bytes) : ScopeAccess :=
  if key = [] ∧ rangeEnd = [] then .range [] unboundedRangeEnd else .fromRange key rangeEnd

/-- Where a watch is opened, and in which version. -/
inductive WatchRoute where
  | server
  | agent
  | serverV2
  | agentV2
  deriving DecidableEq

namespace WatchRoute

def filterV2 (key rangeEnd : Bytes) : WatchFilter := { key, rangeEnd, kind := .all, prevKv := false }

/-- The request passes the checks that do not depend on grants; a v2 range has to be ascending. -/
def accepts : WatchRoute → Bytes → Bytes → Bool
  | server, _, _ => true
  | agent, _, _ => true
  | serverV2, key, rangeEnd => (filterV2 key rangeEnd).validate.isOk
  | agentV2, key, rangeEnd => (filterV2 key rangeEnd).validate.isOk

/-- The access that the scope check is asked about; the agent asks the v1 function in both versions. -/
def checked : WatchRoute → Bytes → Bytes → ScopeAccess
  | server, key, rangeEnd => watchCreateAccess key rangeEnd
  | agent, key, rangeEnd => watchCreateAccess key rangeEnd
  | serverV2, key, rangeEnd => watchScopeAccess key rangeEnd
  | agentV2, key, rangeEnd => watchCreateAccess key rangeEnd

/-- An event of the key `k` is delivered; the agent's v1 proxy subscribes to the prefix, without the range end. -/
def delivers : WatchRoute → Bytes → Bytes → Bytes → Bool
  | server, key, rangeEnd, k => keyMatches k key rangeEnd
  | agent, key, _, k => keyMatches k key []
  | serverV2, key, rangeEnd, k => (filterV2 key rangeEnd).keyMatches k
  | agentV2, key, rangeEnd, k => (filterV2 key rangeEnd).keyMatches k

/-- The requests for which what is checked is what is delivered. -/
def Exact : WatchRoute → Bytes → Bytes → Prop
  | server, _, rangeEnd => rangeEnd ≠ unboundedRangeEnd
  | agent, key, rangeEnd =>
    rangeEnd = [] ∨ match prefixSuccessor key with
      | some upper => upper ≤ rangeEnd
      | none => rangeEnd = unboundedRangeEnd
  | serverV2, _, rangeEnd => rangeEnd ≠ unboundedRangeEnd
  | agentV2, key, rangeEnd =>
    (key = [] ∧ rangeEnd = []) ∨ rangeEnd ≠ [] ∧ rangeEnd ≠ unboundedRangeEnd ∧
      match prefixSuccessor key with
      | some upper => rangeEnd ≤ upper
      | none => True

end WatchRoute

/-! ### Successors of prefixes -/

variable {s p : Bytes}

lemma zero_le_of_ne_nil (h : s ≠ []) : unboundedRangeEnd ≤ s := by
  cases s with
  | nil => exact absurd rfl h
  | cons b s =>
    have hs : ([] : Bytes) ≤ s := not_lt.1 (List.not_lt_nil s)
    rw [unboundedRangeEnd, cons_le_cons_iff_lex]
    rcases (Fin.zero_le b).lt_or_eq with hb | hb
    · exact .inl hb
    · exact .inr ⟨hb, hs⟩

lemma successor_ne (h : prefixSuccessor p = some s) : s ≠ [] ∧ s ≠ unboundedRangeEnd := by
  have hp : [] < s := lt_of_le_of_lt (not_lt.1 (List.not_lt_nil p))
    ((isPrefix_iff_of_successor h p).1 (List.prefix_refl p)).2
  refine ⟨hp.ne', ?_⟩
  rintro rfl
  -- nothing but the empty key is below "\0", and the key `p ++ [0]` starts with `p`
  have hlt := ((isPrefix_iff_of_successor h (p ++ [0])).1 (List.prefix_append p [0])).2
  exact absurd (zero_le_of_ne_nil (by simp)) hlt.not_ge

lemma lt_successor (h : prefixSuccessor p = some s) : p < s :=
  ((isPrefix_iff_of_successor h p).1 (List.prefix_refl p)).2

lemma not_isPrefix_successor (h : prefixSuccessor p = some s) : ¬ p <+: s :=
  fun hp => lt_irrefl s ((isPrefix_iff_of_successor h s).1 hp).2

/-! ### Both sides in terms of the request -/

/-- A v1 watch delivers the keys that start with its key and are below its range end, if it has one. -/
theorem keyMatches_iff (k key rangeEnd : Bytes) :
    keyMatches k key rangeEnd = true ↔ key <+: k ∧ (rangeEnd = [] ∨ k < rangeEnd) := by
  unfold keyMatches watchMatchInterval intervalContains
  cases hs : prefixSuccessor key with
  | none =>
    rw [isPrefix_iff_of_no_successor hs]
    by_cases hr : rangeEnd = []
    · simp [hr]
    · simp [hr]
  | some upper =>
    rw [isPrefix_iff_of_successor hs]
    by_cases hr : rangeEnd = []
    · simp [hr]
    · simp [hr, and_assoc]

/-- The access that is checked has these keys too, unless the range end is "\0". -/
theorem watchCreateAccess_contains (k key rangeEnd : Bytes) : (watchCreateAccess key rangeEnd).Contains k ↔
      if rangeEnd = unboundedRangeEnd then key ≤ k else key <+: k ∧ (rangeEnd = [] ∨ k < rangeEnd) := by
  unfold watchCreateAccess watchMatchInterval ScopeAccess.Contains ScopeAccess.range
  have hun : unboundedRangeEnd ≠ [] := by decide
  cases hs : prefixSuccessor key with
  | none =>
    rw [isPrefix_iff_of_no_successor hs]
    by_cases hr : rangeEnd = []
    · simp [hr, hun, hun.symm]
    · by_cases hz : rangeEnd = unboundedRangeEnd
      · simp [hz, hun]
      · simp [hr, hz]
  | some upper =>
    obtain ⟨hne, hnz⟩ := successor_ne hs
    rw [isPrefix_iff_of_successor hs]
    by_cases hr : rangeEnd = []
    · simp [hr, hne, hnz, hun.symm]
    by_cases hz : rangeEnd = unboundedRangeEnd
    · simp [hz, hun, min_eq_right (zero_le_of_ne_nil hne)]
    have hmin : min upper rangeEnd ≠ [] ∧ min upper rangeEnd ≠ unboundedRangeEnd := by
      rcases min_choice upper rangeEnd with h | h
      · rw [h]; exact ⟨hne, hnz⟩
      · rw [h]; exact ⟨hr, hz⟩
    simp [hr, hz, hmin.1, hmin.2, and_assoc]

/-! ### The four ways -/

namespace WatchRoute

variable {key rangeEnd : Bytes}

lemma not_exact_of_unbounded {D : Bytes → Prop} (hD : ∀ k, D k → k < unboundedRangeEnd) :
    ¬ ∀ k, key ≤ k ↔ D k := fun h =>
  absurd (hD _ ((h (max key unboundedRangeEnd)).1 (le_max_left _ _))) (not_lt.2 (le_max_right _ _))

lemma server_exact_iff (key rangeEnd : Bytes) :
    (∀ k, (watchCreateAccess key rangeEnd).Contains k ↔ keyMatches k key rangeEnd = true) ↔
      rangeEnd ≠ unboundedRangeEnd := by
  simp only [watchCreateAccess_contains, keyMatches_iff]
  by_cases hz : rangeEnd = unboundedRangeEnd
  · simp only [hz, if_true, ne_eq, not_true_eq_false, iff_false]
    exact not_exact_of_unbounded fun k hk => hk.2.resolve_left (by decide)
  · simp [hz]

lemma agent_exact_iff (key rangeEnd : Bytes) :
    (∀ k, (watchCreateAccess key rangeEnd).Contains k ↔ keyMatches k key [] = true) ↔ agent.Exact key rangeEnd := by
  simp only [watchCreateAccess_contains, keyMatches_iff, true_or, and_true, Exact]
  have hun : unboundedRangeEnd ≠ [] := by decide
  by_cases hr : rangeEnd = []
  · simp [hr, hun.symm]
  simp only [hr, false_or]
  cases hs : prefixSuccessor key with
  | none =>
    by_cases hz : rangeEnd = unboundedRangeEnd
    · simp [hz, isPrefix_iff_of_no_successor hs]
    simp only [hz, if_false, isPrefix_iff_of_no_successor hs, iff_false]
    intro h
    have := (h (max key rangeEnd)).2 (le_max_left _ _)
    exact absurd this.2 (not_lt.2 (le_max_right _ _))
  | some upper =>
    by_cases hz : rangeEnd = unboundedRangeEnd
    · -- the checked access is everything from the key on, the successor included
      have hlt : ¬ upper ≤ rangeEnd := by
        rw [hz, not_le]
        exact (zero_le_of_ne_nil (successor_ne hs).1).lt_of_ne (successor_ne hs).2.symm
      simp only [hz, if_true] at hlt ⊢
      exact iff_of_false (fun h => not_isPrefix_successor hs ((h upper).1 (lt_successor hs).le)) hlt
    · simp only [hz, if_false, and_iff_left_iff_imp]
      constructor
      · intro h
        by_contra hlt
        rw [not_le] at hlt
        by_cases hk : key ≤ rangeEnd
        · exact lt_irrefl _ (h rangeEnd ((isPrefix_iff_of_successor hs _).2 ⟨hk, hlt⟩))
        · exact hk (h key (List.prefix_refl key)).le
      · intro hle k hk
        exact ((isPrefix_iff_of_successor hs k).1 hk).2.trans_le hle

lemma ascending_of_validate (h : (filterV2 key rangeEnd).validate.isOk = true)
    (hr : rangeEnd ≠ []) : key < rangeEnd := by
  by_contra hle
  simp [WatchFilter.validate, filterV2, hr, not_lt.1 hle, Except.isOk, Except.toBool] at h

lemma filterV2_keyMatches_iff (hr : rangeEnd ≠ []) (k : Bytes) :
    (filterV2 key rangeEnd).keyMatches k = true ↔ key ≤ k ∧ k < rangeEnd := by
  unfold WatchFilter.keyMatches filterV2
  rw [if_neg fun h => hr h.2, if_neg hr]
  exact decide_eq_true_iff

lemma serverV2_exact_iff (h : (filterV2 key rangeEnd).validate.isOk = true) :
    (∀ k, (watchScopeAccess key rangeEnd).Contains k ↔ (filterV2 key rangeEnd).keyMatches k = true) ↔
      rangeEnd ≠ unboundedRangeEnd := by
  have hun : unboundedRangeEnd ≠ [] := by decide
  by_cases hr : rangeEnd = []
  · by_cases hk : key = []
    · have hle : ∀ k : Bytes, [] ≤ k := fun k => not_lt.1 (List.not_lt_nil k)
      simp [hr, hk, watchScopeAccess, ScopeAccess.range, ScopeAccess.Contains, WatchFilter.keyMatches, filterV2, hun,
        hun.symm, hle]
    · simp [hr, hk, watchScopeAccess, ScopeAccess.fromRange, RangeSemantics.of, ScopeAccess.point,
        ScopeAccess.Contains, WatchFilter.keyMatches, filterV2, hun.symm]
  · have hne : rangeEnd ≠ key := (ascending_of_validate h hr).ne'
    simp only [filterV2_keyMatches_iff hr, watchScopeAccess, hr, and_false, if_false, ScopeAccess.fromRange,
      RangeSemantics.of, hne, or_self, ScopeAccess.Contains]
    by_cases hz : rangeEnd = unboundedRangeEnd
    · simp only [hz, true_or, and_true, ne_eq, not_true_eq_false, iff_false]
      exact not_exact_of_unbounded fun k hk => hk.2
    · simp [hz]

lemma agentV2_exact_iff :
    (∀ k, (watchCreateAccess key rangeEnd).Contains k ↔ (filterV2 key rangeEnd).keyMatches k = true) ↔
      agentV2.Exact key rangeEnd := by
  simp only [watchCreateAccess_contains, Exact]
  have hun : unboundedRangeEnd ≠ [] := by decide
  by_cases hr : rangeEnd = []
  · by_cases hk : key = []
    · simp [hr, hk, hun.symm, filterV2, WatchFilter.keyMatches]
    -- one key against all that start with it
    simp only [filterV2, WatchFilter.keyMatches, hr, hk, hun.symm, if_false, true_or, and_true, if_true,
      decide_eq_true_eq, ne_eq, not_true_eq_false, false_and, or_self, iff_false]
    intro h
    simpa using (h (key ++ [0])).1 (List.prefix_append _ _)
  · simp only [filterV2_keyMatches_iff hr, hr, and_false, false_or, ne_eq, not_false_eq_true, true_and]
    by_cases hz : rangeEnd = unboundedRangeEnd
    · simp only [hz, if_true, not_true_eq_false, false_and, iff_false]
      exact not_exact_of_unbounded fun k hk => hk.2
    simp only [hz, if_false, not_false_eq_true, true_and]
    cases hs : prefixSuccessor key with
    | none => simp [isPrefix_iff_of_no_successor hs]
    | some upper =>
      simp only [isPrefix_iff_of_successor hs]
      constructor
      · intro h
        by_contra hlt
        exact lt_irrefl upper ((h upper).2 ⟨(lt_successor hs).le, not_le.1 hlt⟩).1.2
      · intro hle k
        exact ⟨fun hk => ⟨hk.1.1, hk.2⟩, fun hk => ⟨⟨hk.1, hk.2.trans_le hle⟩, hk.2⟩⟩

end WatchRoute

/-- **The scope check.** What is admitted as an interval is admitted key by key; and the access that is checked for a
watch is the set of the keys it delivers exactly for the requests of `WatchRoute.Exact`. -/
theorem scope_check_sound_and_exact_iff (grants : List Bytes) (accesses : List ScopeAccess) (route : WatchRoute)
    (key rangeEnd : Bytes) (h : route.accepts key rangeEnd = true) :
    (scopeAllows grants accesses = true → ∀ a ∈ accesses, a.rangeEnd ≠ [] → ∀ k, a.Contains k → isUtf8 k = true →
      scopeAllows grants [.point k] = true) ∧
    ((∀ k, (route.checked key rangeEnd).Contains k ↔ route.delivers key rangeEnd k = true) ↔
      route.Exact key rangeEnd) := by
  refine ⟨fun hallows a ha hint k hk hutf => scopeAllows_point hallows ha hint hk hutf, ?_⟩
  cases route with
  | server => exact WatchRoute.server_exact_iff key rangeEnd
  | agent => exact WatchRoute.agent_exact_iff key rangeEnd
  | serverV2 => exact WatchRoute.serverV2_exact_iff h
  | agentV2 => exact WatchRoute.agentV2_exact_iff

/-- A prefix watch on the server is exact, and the grant of `/app/*` that covers it admits its keys one by one. -/
theorem scope_check_sound_and_exact_at_prefix : (∀ k, (WatchRoute.server.checked (ascii "/app/") []).Contains k ↔
        WatchRoute.server.delivers (ascii "/app/") [] k = true) ∧
      scopeAllows [ascii "/app/*"] [.point (ascii "/app/b")] = true := by
  obtain ⟨hpoints, hexact⟩ := scope_check_sound_and_exact_iff [ascii "/app/*"] [watchCreateAccess (ascii "/app/") []]
    .server (ascii "/app/") [] rfl
  exact ⟨hexact.2 (show [] ≠ unboundedRangeEnd by decide),
    hpoints (by decide +kernel) _ List.mem_cons_self (by decide) (ascii "/app/b") (by decide +kernel)
      (by decide +kernel)⟩

/-- Through the agent's v2 proxy the grant of `/app/a/` admits a watch that delivers `/app/b`, which it does not admit;
its v1 proxy delivers keys beyond the checked range end; and on the server the range end "\0" is checked as no bound and
delivers nothing. -/
theorem watch_check_not_exact :
    (scopeAllows [ascii "/app/a/"] [WatchRoute.agentV2.checked (ascii "/app/a/") (ascii "/zzz")] = true ∧
      WatchRoute.agentV2.accepts (ascii "/app/a/") (ascii "/zzz") = true ∧
      WatchRoute.agentV2.delivers (ascii "/app/a/") (ascii "/zzz") (ascii "/app/b") = true ∧
      ¬ (WatchRoute.agentV2.checked (ascii "/app/a/") (ascii "/zzz")).Contains (ascii "/app/b") ∧
      scopeAllows [ascii "/app/a/"] [.point (ascii "/app/b")] = false) ∧
    (WatchRoute.agent.delivers (ascii "/app/a/") (ascii "/app/a/m") (ascii "/app/a/z") = true ∧
      ¬ (WatchRoute.agent.checked (ascii "/app/a/") (ascii "/app/a/m")).Contains (ascii "/app/a/z")) ∧
    (WatchRoute.server.checked (ascii "/zz") [0]).Contains (ascii "/zz") ∧
      WatchRoute.server.delivers (ascii "/zz") [0] (ascii "/zz") = false := by
  decide +kernel

end Coord.Auth
