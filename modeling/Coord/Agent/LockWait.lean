import Coord.Lib.Lists
import Coord.Lib.Trace

/-!
# Waiting for a lock

The blocking requests for one lock on one agent. A request that is refused enters the wait queue and waits, unless the
local cache has no record of the lock: then it tries again.

* `notifyNext`, `step` — the queue and the loop of `acquire_blocking`;
* `wait_queue_exact` — the queue has blocked calls only, each once, if the record is there whenever a call is refused.
-/

namespace Coord.Agent.LockWait

open Coord.Lib Function List

/-- Where a call stands: its attempts since it last waited, or the channel it waits on. -/
inductive Phase where
  | trying (spins : ℕ)
  | refused (spins : ℕ)
  | waiting (rx : ℕ) (woken : Bool)
  | returned
  deriving DecidableEq

def Phase.spins : Phase → ℕ
  | .trying spins => spins
  | .refused spins => spins
  | _ => 0

structure Waiter where
  id : ℕ
  tx : ℕ

/-- The lock's key on the server, its record in the local cache, the queue, the calls and the next channel. -/
structure Lock where
  taken : Bool
  record : Bool
  queue : List Waiter
  calls : ℕ → Option Phase
  nextTx : ℕ

def Lock.start : Lock := ⟨false, false, [], fun _ => none, 0⟩

def Lock.goto (s : Lock) (i : ℕ) (phase : Phase) : Lock := { s with calls := update s.calls i (some phase) }

/-- The first waiter that still listens, and the queue behind it. -/
def notifyNext (calls : ℕ → Option Phase) : List Waiter → Option Waiter × List Waiter
  | [] => (none, [])
  | w :: queue => if ∃ woken, calls w.id = some (.waiting w.tx woken) then (some w, queue) else notifyNext calls queue

/-- The next step of a call, where `ok` is false if its request fails or its time is up; a notification; what releases,
expiries and other agents do to the key and the record. -/
inductive Action where
  | go (i : ℕ) (ok : Bool)
  | notify
  | outside (taken record : Bool)

/-- The next step of `acquire_blocking`. -/
def Lock.go (s : Lock) (i : ℕ) (ok : Bool) : Option Phase → Lock
  | none => s.goto i (.trying 0)
  | some (.trying spins) =>
    if ok = false then s.goto i .returned
    else if s.taken then s.goto i (.refused spins)
    else { s.goto i .returned with taken := true, record := true }
  | some (.refused spins) =>
    { s.goto i (if s.record then .waiting s.nextTx false else .trying (spins + 1)) with
      queue := s.queue ++ [⟨i, s.nextTx⟩]
      nextTx := s.nextTx + 1 }
  | some (.waiting _ woken) =>
    if ok = false then { s.goto i .returned with queue := s.queue.filter fun w => w.id ≠ i }
    else if woken then s.goto i (.trying 0)
    else s
  | some .returned => s

def step (s : Lock) : Action → Lock × Unit
  | .go i ok => (s.go i ok (s.calls i), ())
  | .notify =>
    match notifyNext s.calls s.queue with
    | (some w, queue) => ({ s.goto w.id (.waiting w.tx true) with queue }, ())
    | (none, queue) => ({ s with queue }, ())
  | .outside taken record => ({ s with taken, record }, ())

/-- The record is there when a refused call enters the queue. -/
def Recorded (s : Lock) : Action → Prop
  | .go i _ => (∃ spins, s.calls i = some (.refused spins)) → s.record = true
  | _ => True

structure Exact (s : Lock) : Prop where
  nodup : (s.queue.map Waiter.id).Nodup
  blocked : ∀ w ∈ s.queue, s.calls w.id = some (.waiting w.tx false)
  spins : ∀ i p, s.calls i = some p → p.spins = 0

lemma exact_start : Exact .start := ⟨nodup_nil, nofun, nofun⟩

section

variable {s : Lock} {i : ℕ} {phase : Phase}

lemma Exact.ne (h : Exact s) (hi : ∀ rx, s.calls i ≠ some (.waiting rx false)) {w : Waiter} (hw : w ∈ s.queue) :
    w.id ≠ i :=
  fun hid => hi w.tx (hid ▸ h.blocked w hw)

lemma Exact.goto (h : Exact s) {queue : List Waiter} (hnodup : (queue.map Waiter.id).Nodup)
    (hqueue : ∀ w ∈ queue, w ∈ s.queue ∧ w.id ≠ i) (hp : phase.spins = 0) (taken record : Bool) (nextTx : ℕ) :
    Exact ⟨taken, record, queue, (s.goto i phase).calls, nextTx⟩ := by
  refine ⟨hnodup, fun w hw => ?_, fun j p hj => ?_⟩
  · exact (update_of_ne (hqueue w hw).2 ..).trans (h.blocked w (hqueue w hw).1)
  · dsimp only [Lock.goto] at hj
    rw [update_apply] at hj
    split at hj
    · exact Option.some.inj hj ▸ hp
    · exact h.spins j p hj

lemma exact_go (h : Exact s) (ok : Bool) (hrec : (∃ spins, s.calls i = some (.refused spins)) → s.record = true) :
    Exact (s.go i ok (s.calls i)) := by
  have hmove := fun (hi : ∀ rx, s.calls i ≠ some (.waiting rx false)) phase (hp : phase.spins = 0) =>
    @Exact.goto s i phase h s.queue h.nodup (fun w hw => ⟨hw, h.ne hi hw⟩) hp
  cases hcall : s.calls i with
  | none => exact hmove (by simp [hcall]) _ rfl ..
  | some phase =>
    cases phase with
    | trying spins =>
      dsimp only [Lock.go]
      split_ifs
      · exact hmove (by simp [hcall]) _ rfl ..
      · exact hmove (by simp [hcall]) (.refused spins) (h.spins i (.trying spins) hcall) ..
      · exact hmove (by simp [hcall]) _ rfl ..
    | refused spins =>
      dsimp only [Lock.go]
      rw [if_pos (hrec ⟨spins, hcall⟩)]
      have hmoved := hmove (by simp [hcall]) (.waiting s.nextTx false) rfl s.taken s.record s.nextTx
      refine ⟨?_, fun w hw => ?_, hmoved.spins⟩
      · rw [map_append]
        refine pairwise_append_one h.nodup fun id hid => ?_
        obtain ⟨w, hw, rfl⟩ := mem_map.1 hid
        exact h.ne (by simp [hcall]) hw
      · rcases mem_append_one.1 hw with hw | rfl
        · exact hmoved.blocked w hw
        · exact update_self ..
    | waiting rx woken =>
      dsimp only [Lock.go]
      split_ifs with hok hwoken
      · refine h.goto (h.nodup.sublist (filter_sublist.map _)) (fun w hw => ?_) rfl ..
        exact ⟨mem_of_mem_filter hw, of_decide_eq_true (mem_filter.1 hw).2⟩
      · exact hmove (by simp [hcall, hwoken]) _ rfl ..
      · exact h
    | returned => exact h

lemma exact_step {a : Action} (h : Exact s) (ha : Recorded s a) : Exact (step s a).1 := by
  cases a with
  | go i ok => exact exact_go h ok ha
  | notify =>
    -- the first waiter still listens
    unfold step
    cases hq : s.queue with
    | nil => exact ⟨.nil, nofun, h.spins⟩
    | cons w queue =>
      have hnodup := h.nodup
      rw [hq, map_cons, nodup_cons] at hnodup
      rw [notifyNext, if_pos ⟨false, h.blocked w (hq ▸ mem_cons_self)⟩]
      refine h.goto hnodup.2 (fun x hx => ⟨hq ▸ mem_cons_of_mem _ hx, ?_⟩) rfl ..
      exact fun hid => hnodup.1 (hid ▸ mem_map_of_mem hx)
  | outside => exact ⟨h.nodup, h.blocked, h.spins⟩

end

/-- **The wait queue has blocked calls only, each once, and no call tries again before it has waited**, for every
interleaving in which the record is there whenever a call is refused. -/
theorem wait_queue_exact (as : List Action) (h : Along step Recorded .start as) :
    let s := exec step .start as
    (s.queue.map Waiter.id).Nodup ∧ (∀ w ∈ s.queue, s.calls w.id = some (.waiting w.tx false)) ∧
      ∀ i p, s.calls i = some p → p.spins = 0 :=
  have hexact := (along_inv Exact Recorded exact_start h fun _ _ ha h => exact_step h ha).1
  ⟨hexact.nodup, hexact.blocked, hexact.spins⟩

/-- Two calls are refused and wait; the lock is released, the first one gets it, and the second one's time is up. -/
def blocking : List Action :=
  .outside true true :: replicate 3 (.go 0 true) ++ replicate 3 (.go 1 true) ++
    [.outside false true, .notify, .go 0 true, .go 0 true, .go 1 false]

theorem wait_queue_exact_blocking : Along step Recorded .start blocking ∧
    (exec step .start (blocking.take 7)).queue.map Waiter.id = [0, 1] ∧
    (exec step .start blocking).queue.map Waiter.id = [] ∧ ∀ w ∈ (exec step .start (blocking.take 7)).queue,
      (exec step .start (blocking.take 7)).calls w.id = some (.waiting w.tx false) :=
  have h : Along step Recorded .start blocking := by
    simp [blocking, Along, Recorded, step, Lock.go, Lock.goto, Lock.start, notifyNext]
  have h7 : Along step Recorded .start (blocking.take 7) := by
    simp [blocking, Along, Recorded, step, Lock.go, Lock.goto, Lock.start]
  ⟨h, rfl, rfl, (wait_queue_exact _ h7).2.1⟩

/-- Another agent has the lock, and a call of this one spins. -/
def spinning (n : ℕ) : List Action := .outside true false :: List.replicate (2 * n + 1) (.go 0 true)

lemma exec_spinning (n : ℕ) : let s := exec step .start (spinning n)
    s.taken = true ∧ s.record = false ∧ s.calls 0 = some (.trying n) := by
  induction n with
  | zero => exact ⟨rfl, rfl, rfl⟩
  | succ n ih =>
    obtain ⟨htaken, hrecord, hcall⟩ := ih
    have happ : spinning (n + 1) = spinning n ++ [.go 0 true, .go 0 true] := by
      simp [spinning, Nat.mul_add, replicate_add, Nat.add_right_comm]
    simp [happ, exec_append, step, Lock.go, Lock.goto, htaken, hrecord, hcall]

/-- It spins as long as the lock is taken, and when it gets the lock its entries stay. -/
theorem wait_queue_grows : (∀ n, (exec step .start (spinning n)).calls 0 = some (.trying n)) ∧
    let s := exec step .start (spinning 2 ++ [.outside false false, .go 0 true])
    s.calls 0 = some .returned ∧ s.queue.map Waiter.id = [0, 0] :=
  ⟨fun n => (exec_spinning n).2.2, by decide⟩

end Coord.Agent.LockWait
