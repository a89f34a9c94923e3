import Coord.Lib.Lists
import Coord.Lib.Trace

/-!
# Ids from segments

An agent takes ids from a segment in memory. When the segment is used up, a call reads the boundary of its generator
from the server, moves it up by a compare-and-set, and puts the segment in between into the memory of its agent.

The agents are those in segment mode with a server. Counters are unbounded; `id_le_boundary` says what has to fit.
-/

namespace Coord.Agent.IdGen

open Coord.Lib Function

/-! ### Segments -/

structure IdSegment where
  name : String
  currentMax : ℕ
  step : ℕ
  updatedAt : ℕ
  deriving DecidableEq

def IdSegment.storageKey (name : String) : String := "/_idgen/" ++ name

/-- A segment in memory: the ids behind `start` up to `stop`, given out up to `current`. -/
structure LocalSegment where
  start : ℕ
  stop : ℕ
  current : ℕ
  deriving DecidableEq

def LocalSegment.new (start stop : ℕ) : LocalSegment := ⟨start, stop, start⟩

/-- What a compare-and-set asks of the row of its key. -/
inductive Compare (V : Type) where
  | absent
  | value (v : V)
  deriving DecidableEq

structure Codec (V : Type) where
  encode : IdSegment → V
  decode : V → Option IdSegment
  decode_encode : ∀ s, decode (encode s) = some s

/-- A compare-and-set of the boundary, with the segment that it is for. -/
structure SegmentCas (V : Type) where
  start : ℕ
  stop : ℕ
  compare : Compare V
  value : V
  deriving DecidableEq

def buildSegmentCas {V : Type} (codec : Codec V) (step : ℕ) (current : Option V) (name : String) (now : ℕ) :
    Option (SegmentCas V) :=
  match current with
  | none => some ⟨0, step, .absent, codec.encode ⟨name, step, step, now⟩⟩
  | some v =>
    match codec.decode v with
    | none => none
    | some old =>
      let newMax := old.currentMax + step
      some ⟨old.currentMax, newMax, .value v, codec.encode { old with currentMax := newMax, updatedAt := now }⟩

/-! ### Agents and calls -/

/-- Where a call of `nextId` stands: it waits for the cache; it reads the cache, before and after it has loaded the
counter of the segment; it reads the boundary; it waits for the answer of its compare-and-set; it has a segment; it is
over. -/
inductive Phase (V : Type) where
  | trying
  | locked
  | loaded (current : ℕ)
  | reading
  | sent (cas : SegmentCas V)
  | granted (start stop : ℕ)
  | returned (id : ℕ)
  | failed
  deriving DecidableEq

structure Call (V : Type) where
  agent : ℕ
  name : String
  phase : Phase V
  deriving DecidableEq

structure Cache where
  segments : String → Option LocalSegment
  defaultStep : ℕ

def Cache.setSegment (c : Cache) (name : String) (seg : LocalSegment) : Cache :=
  { c with segments := update c.segments name (some seg) }

/-- The rows of the server, the memories of the agents, the calls, and the transactions that were sent. -/
structure World (V : Type) where
  rows : String → Option V
  cache : ℕ → Cache
  calls : List (Call V)
  network : List (String × SegmentCas V)

/-- Agents that were just started, on a server with any rows. -/
def World.start {V : Type} (rows : String → Option V) (steps : ℕ → ℕ) : World V :=
  ⟨rows, fun a => ⟨fun _ => none, steps a⟩, [], []⟩

inductive Action where
  | call (agent : ℕ) (name : String)
  /-- The call takes the lock of the cache for reading. -/
  | lock (i : ℕ)
  | load (i : ℕ)
  | exchange (i : ℕ)
  /-- The boundary is read and the compare-and-set is sent. -/
  | read (i : ℕ) (now : ℕ)
  /-- The compare-and-set is executed, and its answer arrives. -/
  | execute (i : ℕ)
  /-- A transaction that was sent is executed, once more or late, and its answer is lost. -/
  | replay (j : ℕ)
  | install (i : ℕ)
  /-- A request fails, or the caller goes away. -/
  | drop (i : ℕ)
  | restart (agent : ℕ) (step : ℕ)
  deriving DecidableEq

section

variable {V : Type} [DecidableEq V]

def Compare.holds (row : Option V) : Compare V → Bool
  | .absent => row.isNone
  | .value v => decide (row = some v)

/-- The transaction on the server, and whether it went through. -/
def World.txn (w : World V) (key : String) (cas : SegmentCas V) : World V × Bool :=
  if cas.compare.holds (w.rows key) then ({ w with rows := update w.rows key (some cas.value) }, true)
  else (w, false)

def World.setPhase (w : World V) (i : ℕ) (phase : Phase V) : World V :=
  { w with calls := w.calls.modify i fun c => { c with phase } }

def World.setSegment (w : World V) (agent : ℕ) (name : String) (seg : LocalSegment) : World V :=
  { w with cache := update w.cache agent ((w.cache agent).setSegment name seg) }

def Phase.readsCache : Phase V → Bool
  | .locked => true
  | .loaded _ => true
  | _ => false

def World.unlocked (w : World V) (agent : ℕ) : Bool :=
  w.calls.all fun c => decide (c.agent ≠ agent) || !c.phase.readsCache

def stepCall (codec : Codec V) (w : World V) (i : ℕ) (c : Call V) : Action → World V
  | .lock _ => if c.phase = .trying then w.setPhase i .locked else w
  | .load _ =>
    if c.phase = .locked then
      match (w.cache c.agent).segments c.name with
      | some seg => if seg.stop ≤ seg.current then w.setPhase i .reading else w.setPhase i (.loaded seg.current)
      | none => w.setPhase i .reading
    else w
  | .exchange _ =>
    match c.phase, (w.cache c.agent).segments c.name with
    | .loaded current, some seg =>
      let next := current + 1
      if seg.current = current then
        (w.setSegment c.agent c.name { seg with current := next }).setPhase i (.returned next)
      else w.setPhase i .locked
    | _, _ => w
  | .read _ now =>
    if c.phase = .reading then
      let key := IdSegment.storageKey c.name
      match buildSegmentCas codec (w.cache c.agent).defaultStep (w.rows key) c.name now with
      | some cas => { w.setPhase i (.sent cas) with network := w.network ++ [(key, cas)] }
      | none => w.setPhase i .failed
    else w
  | .execute _ =>
    match c.phase with
    | .sent cas =>
      match w.txn (IdSegment.storageKey c.name) cas with
      | (w', true) => w'.setPhase i (.granted cas.start cas.stop)
      | (w', false) => w'.setPhase i .reading
    | _ => w
  | .install _ =>
    match c.phase with
    | .granted start stop =>
      if w.unlocked c.agent then
        -- the segment is put into the cache and its first id is taken, under the lock
        if start < stop then
          (w.setSegment c.agent c.name { LocalSegment.new start stop with current := start + 1 }).setPhase i
            (.returned (start + 1))
        else (w.setSegment c.agent c.name (.new start stop)).setPhase i .failed
      else w
    | _ => w
  | .drop _ =>
    match c.phase with
    | .returned _ => w
    | _ => w.setPhase i .failed
  | _ => w

def step (codec : Codec V) (w : World V) (a : Action) : World V × Unit :=
  match a with
  | .call agent name => ({ w with calls := w.calls ++ [⟨agent, name, .trying⟩] }, ())
  | .replay j =>
    match w.network[j]? with
    | some (key, cas) => ((w.txn key cas).1, ())
    | none => (w, ())
  | .restart agent s =>
    ({ w with
      cache := update w.cache agent ⟨fun _ => none, s⟩
      calls := w.calls.map fun c =>
        if c.agent = agent then
          match c.phase with
          | .returned _ => c
          | _ => { c with phase := .failed }
        else c }, ())
  | .lock i | .load i | .exchange i | .read i _ | .execute i | .install i | .drop i =>
    match w.calls[i]? with
    | some c => (stepCall codec w i c a, ())
    | none => (w, ())

end

/-! ### Who holds an id -/

inductive Holder where
  | agent (a : ℕ)
  | call (i : ℕ)
  deriving DecidableEq

/-- The call may still give out the id, or has returned it. -/
def Phase.holds {V : Type} : Phase V → ℕ → Prop
  | .granted start stop, id => start < id ∧ id ≤ stop
  | .returned x, id => id = x
  | _, _ => False

/-- The memory of an agent holds what its segments have left, a call the segment that it was granted or the id it has
returned. -/
def Holds {V : Type} (w : World V) (h : Holder) (name : String) (id : ℕ) : Prop :=
  match h with
  | .agent a => ∃ seg, (w.cache a).segments name = some seg ∧ seg.current < id ∧ id ≤ seg.stop
  | .call i => ∃ c, w.calls[i]? = some c ∧ c.name = name ∧ c.phase.holds id

/-- Up to where the ids of the generator are allocated. -/
def World.boundary {V : Type} (codec : Codec V) (w : World V) (name : String) : ℕ :=
  match w.rows (IdSegment.storageKey name) with
  | none => 0
  | some v => ((codec.decode v).map IdSegment.currentMax).getD 0

variable {seg : LocalSegment}

section

variable {V : Type} {codec : Codec V} {w w' : World V}

/-- A compare-and-set that takes the boundary from `start` to `stop`. -/
structure ValidCas (codec : Codec V) (cas : SegmentCas V) : Prop where
  le : cas.start ≤ cas.stop
  absent : cas.compare = .absent → cas.start = 0
  value : ∀ v, cas.compare = .value v → ∃ old, codec.decode v = some old ∧ old.currentMax = cas.start
  stop : ∃ seg, codec.decode cas.value = some seg ∧ seg.currentMax = cas.stop

variable {name : String} {cas : SegmentCas V} {k : Holder} {id : ℕ}

lemma validCas_build {step : ℕ} {current : Option V} {now : ℕ}
    (h : buildSegmentCas codec step current name now = some cas) : ValidCas codec cas := by
  unfold buildSegmentCas at h
  split at h
  · cases h
    exact ⟨Nat.zero_le _, fun _ => rfl, nofun, _, codec.decode_encode _, rfl⟩
  next v =>
  split at h
  · cases h
  next old hold =>
  cases h
  refine ⟨Nat.le_add_right _ _, nofun, fun v' hv => ?_, _, codec.decode_encode _, rfl⟩
  cases hv
  exact ⟨old, hold, rfl⟩

/-- Ids are held by one holder each, below the boundary. -/
structure OneHolder (codec : Codec V) (w : World V) : Prop where
  unique : ∀ h h' name id, Holds w h name id → Holds w h' name id → h = h'
  below : ∀ h name id, Holds w h name id → id ≤ w.boundary codec name

/-- How ids move in a step: they stay with their holder, or `dst` gets them, from above the boundary or from `src`,
which loses them. -/
structure Moves (codec : Codec V) (w w' : World V) (src dst : Holder) : Prop where
  mono : ∀ name, w.boundary codec name ≤ w'.boundary codec name
  holds : ∀ h name id, Holds w' h name id → Holds w h name id ∨
    h = dst ∧ (w.boundary codec name < id ∧ id ≤ w'.boundary codec name ∨ Holds w src name id ∧ ¬ Holds w' src name id)

/-- **The core of the argument**: a step of this kind leaves every id with one holder. -/
lemma OneHolder.moves (h : OneHolder codec w) (src dst : Holder) (hm : Moves codec w w' src dst) :
    OneHolder codec w' := by
  refine ⟨fun k k' name id hk hk' => ?_, fun k name id hk => ?_⟩
  · -- an id that `k` had before is not a new one of `dst`
    have hold : ∀ k k', Holds w k name id → Holds w' k name id → k' = dst →
        (w.boundary codec name < id ∧ id ≤ w'.boundary codec name ∨ Holds w src name id ∧ ¬ Holds w' src name id) →
          False := by
      rintro k k' hk hk' - (⟨hlt, -⟩ | ⟨hsrc, hnot⟩)
      · exact absurd (h.below k name id hk) (not_le.2 hlt)
      · exact hnot (h.unique k src name id hk hsrc ▸ hk')
    rcases hm.holds k name id hk with h1 | ⟨h1, h2⟩ <;> rcases hm.holds k' name id hk' with h3 | ⟨h3, h4⟩
    · exact h.unique k k' name id h1 h3
    · exact (hold k k' h1 hk h3 h4).elim
    · exact (hold k' k h3 hk' h1 h2).elim
    · rw [h1, h3]
  · rcases hm.holds k name id hk with h1 | ⟨-, h1 | h1⟩
    · exact (h.below k name id h1).trans (hm.mono name)
    · exact h1.2
    · exact (h.below src name id h1.1).trans (hm.mono name)

lemma OneHolder.shrink (h : OneHolder codec w) (hmono : ∀ name, w.boundary codec name ≤ w'.boundary codec name)
    (hholds : ∀ k name id, Holds w' k name id → Holds w k name id) : OneHolder codec w' :=
  h.moves (.agent 0) (.agent 0) ⟨hmono, fun k name id hk => .inl (hholds k name id hk)⟩

variable {c : Call V} {n : String}

lemma holds_setPhase {i : ℕ} (hc : w.calls[i]? = some c) (phase : Phase V)
    (h : Holds (w.setPhase i phase) k name id) :
    k ≠ .call i ∧ Holds w k name id ∨ k = .call i ∧ c.name = name ∧ phase.holds id := by
  cases k with
  | agent a => exact .inl ⟨nofun, h⟩
  | call j =>
    obtain ⟨d, hd, hname, hid⟩ := h
    rcases getElem?_modify_cases hd with ⟨rfl, c', hc', rfl⟩ | ⟨hj, hd⟩
    · cases hc.symm.trans hc'
      exact .inr ⟨rfl, hname, hid⟩
    · exact .inl ⟨fun heq => hj (Holder.call.inj heq), d, hd, hname, hid⟩

lemma holds_setSegment {a : ℕ} (h : Holds (w.setSegment a n seg) k name id) :
    Holds w k name id ∧ ¬ (k = .agent a ∧ name = n) ∨ k = .agent a ∧ name = n ∧ seg.current < id ∧ id ≤ seg.stop := by
  cases k with
  | call j => exact .inl ⟨h, nofun⟩
  | agent b =>
    obtain ⟨sg, hsg, hid⟩ := h
    by_cases hb : b = a
    · subst hb
      simp only [World.setSegment, update_self, Cache.setSegment] at hsg
      by_cases hn : name = n
      · subst hn
        rw [update_self] at hsg
        cases hsg
        exact .inr ⟨rfl, rfl, hid⟩
      · rw [update_of_ne hn] at hsg
        exact .inl ⟨⟨sg, hsg, hid⟩, fun h => hn h.2⟩
    · simp only [World.setSegment, update_of_ne hb] at hsg
      exact .inl ⟨⟨sg, hsg, hid⟩, fun h => hb (Holder.agent.inj h.1)⟩

lemma holds_setBoth {i a : ℕ} {phase : Phase V} (hc : w.calls[i]? = some c)
    (h : Holds ((w.setSegment a n seg).setPhase i phase) k name id) :
    (k ≠ .call i ∧ Holds w k name id ∧ ¬ (k = .agent a ∧ name = n)) ∨
      (k = .agent a ∧ name = n ∧ seg.current < id ∧ id ≤ seg.stop) ∨ k = .call i ∧ c.name = name ∧ phase.holds id := by
  rcases @holds_setPhase _ (w.setSegment a n seg) _ _ _ _ _ hc _ h with ⟨hne, h⟩ | h
  · exact (holds_setSegment h).imp (⟨hne, ·⟩) .inl
  · exact .inr (.inr h)

lemma holds_congr (hcache : w'.cache = w.cache) (hcalls : w'.calls = w.calls)
    (h : Holds w' k name id) : Holds w k name id := by
  unfold Holds at h ⊢
  rw [hcache, hcalls] at h
  exact h

variable [DecidableEq V]

/-- **A compare-and-set that goes through** takes the boundary of its generator from its start to its stop. -/
lemma boundary_txn (hv : ValidCas codec cas) (h : (w.txn (IdSegment.storageKey n) cas).2 = true) :
    w.boundary codec n = cas.start ∧ (w.txn (IdSegment.storageKey n) cas).1.boundary codec n = cas.stop := by
  unfold World.txn at h ⊢
  split at h
  · next hcmp =>
    rw [if_pos hcmp]
    obtain ⟨seg, hseg, hstop⟩ := hv.stop
    refine ⟨?_, by simp [World.boundary, hseg, hstop]⟩
    unfold World.boundary
    cases hc : cas.compare with
    | absent =>
      rw [hc] at hcmp
      rw [Option.isNone_iff_eq_none.1 hcmp, hv.absent hc]
    | value v =>
      obtain ⟨old, hold, hmax⟩ := hv.value v hc
      rw [hc] at hcmp
      rw [show w.rows (IdSegment.storageKey n) = some v by simpa [Compare.holds] using hcmp]
      simp [hold, hmax]
  · cases h

lemma boundary_le_txn (hv : ValidCas codec cas) (key : String) (name : String) :
    w.boundary codec name ≤ (w.txn key cas).1.boundary codec name := by
  by_cases hkey : key = IdSegment.storageKey name
  · subst hkey
    cases hok : (w.txn (IdSegment.storageKey name) cas).2 with
    | true =>
      obtain ⟨h1, h2⟩ := boundary_txn hv hok
      rw [h1, h2]
      exact hv.le
    | false =>
      unfold World.txn at hok ⊢
      split at hok
      · cases hok
      · next hcmp => rw [if_neg hcmp]
  · unfold World.txn
    split
    · unfold World.boundary
      dsimp only
      rw [update_of_ne (Ne.symm hkey)]
    · exact le_rfl

lemma txn_cache (w : World V) (key : String) (cas : SegmentCas V) :
    (w.txn key cas).1.cache = w.cache ∧ (w.txn key cas).1.calls = w.calls ∧ (w.txn key cas).1.network = w.network := by
  unfold World.txn
  split <;> exact ⟨rfl, rfl, rfl⟩

/-! ### Runs -/

/-- What the phase of a call says about the rest. -/
def PhaseOk (codec : Codec V) (w : World V) (c : Call V) : Prop :=
  match c.phase with
  | .sent cas => ValidCas codec cas
  | .loaded current => ∃ seg, (w.cache c.agent).segments c.name = some seg ∧ current < seg.stop
  | _ => True

structure HoldInv (codec : Codec V) (w : World V) : Prop where
  one : OneHolder codec w
  phases : ∀ c ∈ w.calls, PhaseOk codec w c
  network : ∀ x ∈ w.network, ValidCas codec x.2

omit [DecidableEq V] in
lemma PhaseOk.congr (h : PhaseOk codec w c)
    (hseg : c.phase.readsCache = true → ∀ seg, (w.cache c.agent).segments c.name = some seg →
      ∃ seg', (w'.cache c.agent).segments c.name = some seg' ∧ seg'.stop = seg.stop) : PhaseOk codec w' c := by
  unfold PhaseOk at h ⊢
  split at h
  · exact h
  · next current hphase =>
    obtain ⟨seg, hs, hlt⟩ := h
    obtain ⟨seg', hs', hstop⟩ := hseg (by rw [hphase]; rfl) seg hs
    exact ⟨seg', hs', hstop ▸ hlt⟩
  · trivial

section

omit [DecidableEq V]

variable {i : ℕ} {c : Call V}

lemma HoldInv.setPhase (h : HoldInv codec w) (hc : w.calls[i]? = some c) {phase : Phase V}
    (hholds : ∀ id, phase.holds id → c.phase.holds id) (hok : PhaseOk codec w { c with phase }) :
    HoldInv codec (w.setPhase i phase) := by
  refine ⟨h.one.shrink (fun _ => le_rfl) fun k name id hk => ?_, fun d hd => ?_, h.network⟩
  · rcases holds_setPhase hc phase hk with ⟨-, hk⟩ | ⟨rfl, hname, hid⟩
    · exact hk
    · exact ⟨c, hc, hname, hholds id hid⟩
  · rcases mem_modify hd with hd | ⟨c', hc', rfl⟩
    · exact (h.phases d hd).congr fun _ seg hs => ⟨seg, hs, rfl⟩
    · cases hc.symm.trans hc'
      exact hok

lemma phases_setSegment (h : HoldInv codec w) {a : ℕ} {n : String} {phase : Phase V}
    (hphase : ∀ w' : World V, PhaseOk codec w' { c with phase }) (hc : w.calls[i]? = some c)
    (hseg : ∀ d ∈ w.calls, d.agent = a → d.phase.readsCache = true →
      ∀ seg', (w.cache a).segments n = some seg' → seg.stop = seg'.stop) :
    ∀ d ∈ ((w.setSegment a n seg).setPhase i phase).calls,
      PhaseOk codec ((w.setSegment a n seg).setPhase i phase) d := by
  intro d hd
  rcases mem_modify hd with hd | ⟨c', hc', rfl⟩
  · refine (h.phases d hd).congr fun hreads seg' hs => ?_
    by_cases ha : d.agent = a
    · by_cases hn : d.name = n
      · refine ⟨seg, ?_, hseg d hd ha hreads seg' (ha ▸ hn ▸ hs)⟩
        simp [World.setPhase, World.setSegment, Cache.setSegment, ha, hn]
      · refine ⟨seg', ?_, rfl⟩
        simpa [World.setPhase, World.setSegment, Cache.setSegment, ha, hn] using ha ▸ hs
    · refine ⟨seg', ?_, rfl⟩
      simpa [World.setPhase, World.setSegment, update_of_ne ha] using hs
  · cases hc.symm.trans hc'
    exact hphase _

/-- **The exchange** takes the next id from the segment of the agent to the call. -/
lemma HoldInv.exchange (h : HoldInv codec w) (hc : w.calls[i]? = some c)
    (hphase : c.phase = .loaded seg.current) (hseg : (w.cache c.agent).segments c.name = some seg) :
    HoldInv codec ((w.setSegment c.agent c.name { seg with current := seg.current + 1 }).setPhase i
      (.returned (seg.current + 1))) := by
  have hlt : seg.current < seg.stop := by
    have hok := h.phases c (List.mem_of_getElem? hc)
    rw [PhaseOk, hphase] at hok
    obtain ⟨seg', hs', hlt⟩ := hok
    cases hseg.symm.trans hs'
    exact hlt
  refine ⟨h.one.moves (.agent c.agent) (.call i) ⟨fun _ => le_rfl, fun k name id hk => ?_⟩,
    phases_setSegment h (fun _ => trivial) hc fun d _ _ _ seg' hs' => ?_, h.network⟩
  · rcases holds_setBoth hc hk with ⟨-, hk, -⟩ | ⟨rfl, rfl, hlo, hhi⟩ | ⟨rfl, rfl, hid⟩
    · exact .inl hk
    · exact .inl ⟨seg, hseg, Nat.lt_of_succ_lt hlo, hhi⟩
    · obtain rfl : id = seg.current + 1 := hid
      refine .inr ⟨rfl, .inr ⟨⟨seg, hseg, Nat.lt_succ_self _, hlt⟩, fun hk' => ?_⟩⟩
      rcases holds_setBoth hc hk' with ⟨-, -, hne⟩ | ⟨-, -, hlo, -⟩ | ⟨heq, -⟩
      · exact hne ⟨rfl, rfl⟩
      · exact lt_irrefl _ hlo
      · cases heq
  · cases hseg.symm.trans hs'
    rfl

/-- **The segment that a call was granted** goes to the agent, without its first id. -/
lemma HoldInv.install (h : HoldInv codec w) (hc : w.calls[i]? = some c) {start stop : ℕ}
    (hphase : c.phase = .granted start stop) (hlt : start < stop) (hfree : w.unlocked c.agent = true) :
    HoldInv codec ((w.setSegment c.agent c.name { LocalSegment.new start stop with current := start + 1 }).setPhase i
      (.returned (start + 1))) := by
  refine ⟨h.one.moves (.call i) (.agent c.agent) ⟨fun _ => le_rfl, fun k name id hk => ?_⟩,
    phases_setSegment h (fun _ => trivial) hc fun d hd ha hreads => ?_, h.network⟩
  · have hheld : ∀ id, start < id → id ≤ stop → Holds w (.call i) c.name id := fun id h1 h2 =>
      ⟨c, hc, rfl, by rw [hphase]; exact ⟨h1, h2⟩⟩
    rcases holds_setBoth hc hk with ⟨-, hk, -⟩ | ⟨rfl, rfl, hlo, hhi⟩ | ⟨rfl, rfl, hid⟩
    · exact .inl hk
    · refine .inr ⟨rfl, .inr ⟨hheld id (Nat.lt_of_succ_lt hlo) hhi, fun hk' => ?_⟩⟩
      rcases holds_setBoth hc hk' with ⟨hne, -⟩ | ⟨heq, -⟩ | ⟨-, -, hid⟩
      · exact hne rfl
      · cases heq
      · obtain rfl : id = start + 1 := hid
        exact lt_irrefl _ hlo
    · obtain rfl : id = start + 1 := hid
      exact .inl (hheld _ (Nat.lt_succ_self _) hlt)
  · have := List.all_eq_true.1 hfree d hd
    simp [ha, hreads] at this

lemma HoldInv.installEmpty (h : HoldInv codec w) (hc : w.calls[i]? = some c) {start stop : ℕ} (hle : stop ≤ start)
    (hfree : w.unlocked c.agent = true) :
    HoldInv codec ((w.setSegment c.agent c.name (.new start stop)).setPhase i .failed) := by
  refine ⟨h.one.shrink (fun _ => le_rfl) fun k name id hk => ?_,
    phases_setSegment h (fun _ => trivial) hc fun d hd ha hreads => ?_, h.network⟩
  · rcases holds_setBoth hc hk with ⟨-, hk, -⟩ | ⟨-, -, hlo, hhi⟩ | ⟨-, -, hid⟩
    · exact hk
    · exact absurd (lt_of_lt_of_le hlo hhi) (not_lt.2 hle)
    · exact hid.elim
  · have := List.all_eq_true.1 hfree d hd
    simp [ha, hreads] at this

end

section

variable (h : HoldInv codec w)
include h

lemma HoldInv.txn (hv : ValidCas codec cas) (key : String) : HoldInv codec (w.txn key cas).1 := by
  obtain ⟨hcache, hcalls, hnetwork⟩ := txn_cache w key cas
  refine ⟨h.one.shrink (boundary_le_txn hv key) fun k name id hk => holds_congr hcache hcalls hk, fun d hd => ?_,
    fun x hx => h.network x (hnetwork ▸ hx)⟩
  rw [hcalls] at hd
  exact (h.phases d hd).congr fun _ seg hs => ⟨seg, by rw [hcache]; exact hs, rfl⟩

/-- **A compare-and-set that goes through** gives its call the ids above the boundary. -/
lemma HoldInv.grant {i : ℕ} {c : Call V} (hc : w.calls[i]? = some c)
    (hv : ValidCas codec cas) (hok : (w.txn (IdSegment.storageKey c.name) cas).2 = true) :
    HoldInv codec ((w.txn (IdSegment.storageKey c.name) cas).1.setPhase i (.granted cas.start cas.stop)) := by
  obtain ⟨hcache, hcalls, hnetwork⟩ := txn_cache w (IdSegment.storageKey c.name) cas
  obtain ⟨hstart, hstop⟩ := boundary_txn hv hok
  have hmoved := h.txn hv (IdSegment.storageKey c.name)
  set w₁ := (w.txn (IdSegment.storageKey c.name) cas).1
  have hc₁ : w₁.calls[i]? = some c := by rw [hcalls, hc]
  refine ⟨h.one.moves (.agent 0) (.call i) ⟨boundary_le_txn hv _, fun k name id hk => ?_⟩,
    fun d hd => ?_, hmoved.network⟩
  · rcases holds_setPhase hc₁ _ hk with ⟨-, hk⟩ | ⟨rfl, rfl, hlo, hhi⟩
    · exact .inl (holds_congr hcache hcalls hk)
    · exact .inr ⟨rfl, .inl ⟨hstart ▸ hlo, hhi.trans hstop.ge⟩⟩
  · rcases mem_modify hd with hd | ⟨c', -, rfl⟩
    · exact (hmoved.phases d hd).congr fun _ seg hs => ⟨seg, hs, rfl⟩
    · trivial

lemma HoldInv.stepCall {i : ℕ} {c : Call V} (hc : w.calls[i]? = some c) (a : Action) :
    HoldInv codec (stepCall codec w i c a) := by
  cases a with
  | lock _ =>
    simp only [IdGen.stepCall]
    split
    · exact h.setPhase hc nofun trivial
    · exact h
  | load _ =>
    simp only [IdGen.stepCall]
    split
    · split
      · next seg hseg =>
        split
        · exact h.setPhase hc nofun trivial
        · next hlt => exact h.setPhase hc nofun ⟨seg, hseg, not_le.1 hlt⟩
      · exact h.setPhase hc nofun trivial
    · exact h
  | exchange _ =>
    simp only [IdGen.stepCall]
    split
    · next current seg hphase hseg =>
      split
      · next heq =>
        subst heq
        exact h.exchange hc hphase hseg
      · exact h.setPhase hc nofun trivial
    · exact h
  | read _ now =>
    simp only [IdGen.stepCall]
    split
    · split
      · next cas hcas =>
        have hv := validCas_build hcas
        have hset := @HoldInv.setPhase _ _ _ _ _ h hc (.sent cas) nofun hv
        exact ⟨⟨hset.one.unique, hset.one.below⟩, hset.phases, forall_mem_append_one h.network hv⟩
      · exact h.setPhase hc nofun trivial
    · exact h
  | execute _ =>
    simp only [IdGen.stepCall]
    split
    · next cas hphase =>
      have hv : ValidCas codec cas := by
        have := h.phases c (List.mem_of_getElem? hc)
        rwa [PhaseOk, hphase] at this
      split
      · next w' htxn =>
        have hgrant := h.grant hc hv (by rw [htxn])
        rwa [htxn] at hgrant
      · next w' htxn =>
        have hmoved := h.txn hv (IdSegment.storageKey c.name)
        have hcalls := (txn_cache w (IdSegment.storageKey c.name) cas).2.1
        rw [htxn] at hmoved hcalls
        exact hmoved.setPhase (show w'.calls[i]? = some c by rw [← hc]; exact congrArg (·[i]?) hcalls) nofun trivial
    · exact h
  | install _ =>
    simp only [IdGen.stepCall]
    split
    · next start stop hphase =>
      split
      · next hfree =>
        split
        · next hlt => exact h.install hc hphase hlt hfree
        · next hge => exact h.installEmpty hc (not_lt.1 hge) hfree
      · exact h
    · exact h
  | drop _ =>
    simp only [IdGen.stepCall]
    split
    · exact h
    · exact h.setPhase hc nofun trivial
  | _ => exact h

omit [DecidableEq V] in
lemma HoldInv.call (agent : ℕ) (name : String) :
    HoldInv codec { w with calls := w.calls ++ [⟨agent, name, .trying⟩] } := by
  refine ⟨h.one.shrink (fun _ => le_rfl) fun k n id hk => ?_, fun d hd => ?_, h.network⟩
  · cases k with
    | agent a => exact hk
    | call j =>
      obtain ⟨c, hc, hname, hid⟩ := hk
      rcases getElem?_append_one hc with hc | ⟨-, rfl⟩
      · exact ⟨c, hc, hname, hid⟩
      · exact hid.elim
  · rcases mem_append_one.1 hd with hd | rfl
    · exact (h.phases d hd).congr fun _ seg hs => ⟨seg, hs, rfl⟩
    · trivial

omit [DecidableEq V] in
lemma HoldInv.restart (agent s : ℕ) : HoldInv codec { w with
      cache := update w.cache agent ⟨fun _ => none, s⟩
      calls := w.calls.map fun c =>
        if c.agent = agent then
          match c.phase with
          | .returned _ => c
          | _ => { c with phase := .failed }
        else c } := by
  refine ⟨h.one.shrink (fun _ => le_rfl) fun k n id hk => ?_, fun d hd => ?_, h.network⟩
  · cases k with
    | agent a =>
      obtain ⟨seg, hseg, hid⟩ := hk
      by_cases ha : a = agent
      · subst ha
        simp at hseg
      · exact ⟨seg, by simpa [update_of_ne ha] using hseg, hid⟩
    | call j =>
      obtain ⟨c', hc', hname, hid⟩ := hk
      rw [List.getElem?_map] at hc'
      obtain ⟨c, hc, rfl⟩ := Option.map_eq_some_iff.1 hc'
      by_cases ha : c.agent = agent
      · rw [if_pos ha] at hname hid
        cases hphase : c.phase with
        | returned x =>
          simp only [hphase] at hname hid
          exact ⟨c, hc, hname, by rw [hphase]; exact hid⟩
        | _ =>
          simp only [hphase] at hid
          exact hid.elim
      · rw [if_neg ha] at hname hid
        exact ⟨c, hc, hname, hid⟩
  · obtain ⟨c, hc, rfl⟩ := List.mem_map.1 hd
    by_cases ha : c.agent = agent
    · rw [if_pos ha]
      split
      · next hphase => rw [PhaseOk, hphase]; trivial
      · trivial
    · rw [if_neg ha]
      exact (h.phases c hc).congr fun _ seg hs => ⟨seg, by simpa [update_of_ne ha] using hs, rfl⟩

theorem HoldInv.step (a : Action) : HoldInv codec (step codec w a).1 := by
  have hcall : ∀ i, HoldInv codec (match w.calls[i]? with
      | some c => (IdGen.stepCall codec w i c a, ())
      | none => (w, ())).1 := by
    intro i
    split
    · next c hc => exact h.stepCall hc a
    · exact h
  cases a with
  | call agent name => exact h.call agent name
  | replay j =>
    simp only [IdGen.step]
    split
    · next key cas hj => exact h.txn (h.network _ (List.mem_of_getElem? hj)) key
    · exact h
  | restart agent s => exact h.restart agent s
  | lock i => exact hcall i
  | load i => exact hcall i
  | exchange i => exact hcall i
  | read i now => exact hcall i
  | execute i => exact hcall i
  | install i => exact hcall i
  | drop i => exact hcall i

end

end

section

variable {V : Type} [DecidableEq V] {codec : Codec V}

lemma calls_stepCall (w : World V) {i j : ℕ} (hne : i ≠ j) (c : Call V) (a : Action) :
    (stepCall codec w j c a).calls[i]? = w.calls[i]? := by
  have hset : ∀ (w' : World V) (phase : Phase V), w'.calls = w.calls →
    (w'.setPhase j phase).calls[i]? = w.calls[i]? := by
    intro w' phase hw'
    rw [← hw']
    exact getElem?_modify_of_ne hne
  have htxn : ∀ key cas, (w.txn key cas).1.calls = w.calls := fun key cas => (txn_cache w key cas).2.1
  cases a with
  | execute _ =>
    simp only [stepCall]
    split
    · next cas _ =>
      have h := htxn (IdSegment.storageKey c.name) cas
      split <;> next w' heq => exact hset w' _ (by rw [heq] at h; exact h)
    · rfl
  | _ =>
    simp only [stepCall]
    repeat' split
    all_goals first | rfl | exact hset _ _ rfl

lemma returned_stays {w : World V} {i id : ℕ} {c : Call V} (hc : w.calls[i]? = some c) (hret : c.phase = .returned id)
    (as : List Action) : (exec (step codec) w as).calls[i]? = some c := by
  refine exec_inv (fun w : World V => w.calls[i]? = some c) hc fun w a _ hc => ?_
  have hcall : ∀ j, (match w.calls[j]? with
      | some c => (stepCall codec w j c a, ())
      | none => (w, ())).1.calls[i]? = some c := by
    intro j
    split
    · next d hd =>
      by_cases hij : i = j
      · subst hij
        cases hc.symm.trans hd
        cases a <;> simp only [stepCall, hret, reduceCtorEq, if_false] <;> exact hc
      · rw [calls_stepCall w hij]
        exact hc
    · exact hc
  cases a with
  | call agent name =>
    change (w.calls ++ [_])[i]? = some c
    rw [List.getElem?_append_left (List.getElem?_eq_some_iff.1 hc).1, hc]
  | replay j =>
    simp only [step]
    split
    · rw [(txn_cache w _ _).2.1, hc]
    · exact hc
  | restart agent s =>
    simp only [step, List.getElem?_map, hc, Option.map_some, hret, ite_self]
  | lock j => exact hcall j
  | load j => exact hcall j
  | exchange j => exact hcall j
  | read j now => exact hcall j
  | execute j => exact hcall j
  | install j => exact hcall j
  | drop j => exact hcall j

lemma holdInv_exec (codec : Codec V) (rows : String → Option V) (steps : ℕ → ℕ) (as : List Action) :
    HoldInv codec (exec (step codec) (World.start rows steps) as) := by
  refine exec_inv (HoldInv codec) ⟨⟨fun k k' name id hk => ?_, fun k name id hk => ?_⟩, nofun, nofun⟩
    fun w a _ hw => hw.step a
  all_goals
    cases k with
    | agent a => obtain ⟨seg, hseg, -⟩ := hk; cases hseg
    | call i => obtain ⟨c, hc, -⟩ := hk; cases hc

/-- **No counter is ahead of the boundary**: what was returned or can be given out fits into `u64` if the boundaries do. -/
theorem id_le_boundary (codec : Codec V) (rows : String → Option V) (steps : ℕ → ℕ) (as : List Action) {k : Holder}
    {name : String} {id : ℕ} (h : Holds (exec (step codec) (World.start rows steps) as) k name id) :
    id ≤ (exec (step codec) (World.start rows steps) as).boundary codec name :=
  (holdInv_exec codec rows steps as).one.below k name id h

/-- **No id is returned twice.** In every run and every continuation of it, a call that has returned an id in the one
and a call that has returned the same id of the same generator in the other are one call. -/
theorem ids_distinct (codec : Codec V) (rows : String → Option V) (steps : ℕ → ℕ) (as bs : List Action) {i j id : ℕ}
    {c d : Call V} (hi : (exec (step codec) (World.start rows steps) as).calls[i]? = some c)
    (hj : (exec (step codec) (World.start rows steps) (as ++ bs)).calls[j]? = some d) (hname : c.name = d.name)
    (hc : c.phase = .returned id) (hd : d.phase = .returned id) : i = j := by
  have hinv := holdInv_exec codec rows steps (as ++ bs)
  have hi' : (exec (step codec) (World.start rows steps) (as ++ bs)).calls[i]? = some c := by
    rw [exec_append]
    exact returned_stays hi hc bs
  refine Holder.call.inj (hinv.one.unique (.call i) (.call j) c.name id ⟨c, hi', rfl, ?_⟩ ⟨d, hj, hname.symm, ?_⟩)
  · rw [hc]; rfl
  · rw [hd]; rfl

end

def plainCodec : Codec IdSegment := ⟨id, some, fun _ => rfl⟩

/-- Two agents race for the first segment; the transaction of the second is refused and tried again. -/
def raceRun : List Action :=
  [.call 0 "orders", .call 1 "orders", .lock 0, .load 0, .lock 1, .load 1, .read 0 7, .read 1 7, .execute 0, .execute 1,
    .install 0, .read 1 8, .execute 1, .replay 0, .install 1, .call 0 "orders", .lock 2, .load 2, .exchange 2]

theorem ids_distinct_raceRun :
    (exec (step plainCodec) (World.start (fun _ => none) fun _ => 2) raceRun).calls.map Call.phase =
        [.returned 1, .returned 3, .returned 2] ∧
      ∀ (i j : ℕ) (c d : Call IdSegment),
        (exec (step plainCodec) (World.start (fun _ => none) fun _ => 2) raceRun).calls[i]? = some c →
        (exec (step plainCodec) (World.start (fun _ => none) fun _ => 2) raceRun).calls[j]? = some d →
        c.name = d.name → c.phase = .returned 2 → d.phase = .returned 2 → i = j := by
  refine ⟨by decide +kernel, fun i j c d hc hd hname h h' => ?_⟩
  refine ids_distinct plainCodec (fun _ => none) (fun _ => 2) raceRun [] hc ?_ hname h h'
  rw [List.append_nil]
  exact hd

end Coord.Agent.IdGen
