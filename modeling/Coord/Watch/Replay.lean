import Coord.Watch.DispatcherRuns

/-!
# The replay of a watch

* `Replays` — where the replay stands; it gets past its channel only if everything fits;
* `replay_delivers`, `replay_blocks` — a replay that fits is delivered first, one that does not delivers nothing.
-/

namespace Coord.Watch

open Coord.Storage List

/-- What happens to a watch: its task takes a step, or an event is dispatched. -/
inductive Input where
  | go (s : Store) (subscribers : ℕ)
  | event (e : ChangeEvent)

def Watcher.input (cfg : WatchConfig) (c : Watcher) : Input → Watcher
  | .go s subscribers => c.advance cfg s subscribers
  | .event e => c.dispatch cfg.watchBuffer e

/-- The replay of `all` to a watch that had got `d`, with at most `n` steps left if `all` fits into the channel. -/
def Replays (all : List WatchEvent) (d : List WatchResponse) (n : ℕ) (c : Watcher) : Prop :=
  (∃ todo sent, c.phase = .replaying todo sent ∧ InOrder todo ∧ sent.length ≤ historyCapacity ∧
    sent ++ c.due todo = all ∧ c.delivered = d ∧ (all.length ≤ historyCapacity → todo.length + all.length + 2 ≤ n)) ∨
  all.length ≤ historyCapacity ∧ ((∃ done sent, c.phase = .draining sent ∧ done ++ sent = all ∧
    c.delivered = d ++ done.map convertWatchEventToResponse ∧ sent.length + 1 ≤ n) ∨
    d ++ all.map convertWatchEventToResponse <+: c.delivered)

section

variable {cfg : WatchConfig} {all : List WatchEvent} {d : List WatchResponse} {n : ℕ} {c : Watcher}

lemma Replays.advance (h : Replays all d n c) (s : Store) (k : ℕ) : Replays all d (n - 1) (c.advance cfg s k) := by
  rcases h with ⟨todo, sent, hphase, ho, hsent, hall, hd, hn⟩ | ⟨hfit, ⟨done, sent, hphase, hall, hd, hn⟩ | hd⟩
  · rcases advance_replaying cfg s k hphase ho with ⟨hdone, heq⟩ | ⟨e, rest, rfl, hdue, hroom, heq⟩ | ⟨hfull, heq⟩
    · rw [hdone, append_nil] at hall
      subst hall
      have := hn hsent
      exact heq ▸ .inr ⟨hsent, .inl ⟨[], sent, rfl, rfl, by simpa using hd, by omega⟩⟩
    · rw [hdue, ← append_assoc] at hall
      rw [length_cons] at hn
      exact heq ▸ .inl ⟨rest, _, rfl, (pairwise_cons.1 ho).2, hroom hsent, hall, hd, fun hfit => by
        have := hn hfit
        omega⟩
    · exact heq.symm ▸ .inl ⟨todo, sent, hphase, ho, hsent, hall, hd, fun hfit => absurd hfit (by rw [← hall]; omega)⟩
  · refine .inr ⟨hfit, ?_⟩
    unfold Watcher.advance
    rw [hphase]
    cases sent with
    | nil =>
      rw [← hall, append_nil, ← hd]
      exact .inr prefix_rfl
    | cons x sent =>
      rw [length_cons] at hn
      exact .inl ⟨done ++ [x], sent, rfl, by simpa using hall, by simp [Watcher.deliver, hd], by omega⟩
  · obtain ⟨more, hmore⟩ := delivered_advance cfg s k c
    exact .inr ⟨hfit, .inr (hmore ▸ hd.trans (prefix_append _ _))⟩

lemma Replays.dispatch (h : Replays all d n c) (b : ℕ) (e : ChangeEvent) : Replays all d n (c.dispatch b e) := by
  unfold Watcher.dispatch
  split
  · split
    · exact h
    · split <;> exact h
  · exact h

lemma Replays.run (cfg : WatchConfig) (h : Replays all d n c) (inputs : List Input) :
    Replays all d (n - inputs.countP (· matches .go _ _)) (inputs.foldl (Watcher.input cfg) c) := by
  induction inputs generalizing c n with
  | nil => exact h
  | cons i inputs ih =>
    cases i with
    | go s k => rw [countP_cons_of_pos rfl, Nat.add_comm, ← Nat.sub_sub]; exact ih (h.advance s k)
    | event e => rw [countP_cons_of_neg (by simp)]; exact ih (h.dispatch cfg.watchBuffer e)

variable {events : List ChangeEvent}

lemma Replays.start (hphase : c.phase = .replaying events []) (ho : InOrder events) :
    Replays (c.due events) c.delivered (events.length + (c.due events).length + 2) c :=
  .inl ⟨events, [], hphase, ho, Nat.zero_le _, rfl, rfl, fun _ => le_rfl⟩

theorem replay_blocks (hphase : c.phase = .replaying events []) (ho : InOrder events)
    (hlong : historyCapacity < (c.due events).length) (inputs : List Input) :
    (inputs.foldl (Watcher.input cfg) c).delivered = c.delivered := by
  rcases (Replays.start hphase ho).run cfg inputs with ⟨_, _, -, -, -, -, hd, -⟩ | ⟨hfit, -⟩
  · exact hd
  · omega

/-- **A replay** delivers its events in the order of their revisions and before anything else, and it delivers all of
them just when they fit into its channel. -/
theorem replay_delivers (cfg : WatchConfig) (c : Watcher) (events : List ChangeEvent)
    (hphase : c.phase = .replaying events []) (ho : InOrder events) :
    let all := c.delivered ++ (c.due events).map convertWatchEventToResponse
    let run (inputs : List Input) := (inputs.foldl (Watcher.input cfg) c).delivered
    ((c.due events).Pairwise fun a b => a.revision < b.revision) ∧
      (∀ inputs, run inputs <+: all ∨ all <+: run inputs) ∧
      ((c.due events).length ≤ historyCapacity ↔ ∀ inputs : List Input,
        events.length + (c.due events).length + 2 ≤ inputs.countP (· matches .go _ _) → all <+: run inputs) := by
  refine ⟨events_sorted (ho.filter _), fun inputs => ?_, fun hfit inputs => ?_, fun hall => ?_⟩
  · rcases (Replays.start hphase ho).run cfg inputs with
      ⟨todo, sent, -, -, -, -, hd, -⟩ | ⟨-, ⟨done, sent, -, hall, hd, -⟩ | hd⟩
    · exact .inl (hd ▸ prefix_append _ _)
    · refine .inl ?_
      dsimp only
      rw [hd, ← hall, map_append, ← append_assoc]
      exact prefix_append _ _
    · exact .inr hd
  · rcases (Replays.start hphase ho).run cfg inputs with
      ⟨todo, sent, -, -, -, -, -, hn⟩ | ⟨-, ⟨done, sent, -, -, -, hn⟩ | hd⟩
    · have := hn hfit
      omega
    · omega
    · exact fun _ => hd
  · -- a blocked replay delivers nothing, however often the task is run
    by_contra hlong
    have h := (hall (replicate _ (.go .empty 0)) (by rw [countP_replicate, if_pos rfl])).length_le
    dsimp only at h
    rw [replay_blocks hphase ho (not_le.1 hlong), length_append, length_map] at h
    omega

end

/-- Puts of one key, and a watch of it that replays them. -/
def puts (n : ℕ) : List ChangeEvent := (List.range n).map fun i => ⟨i + 1, [⟨[1], some []⟩], .put⟩

def replayOf (n : ℕ) : Watcher := ⟨[1], [], 1, n, .replaying (puts n) [], [], false, []⟩

lemma inOrder_puts (n : ℕ) : InOrder (puts n) := by
  simpa [puts, pairwise_map] using pairwise_lt_range

/-- Two events are replayed, while a third one is dispatched. -/
theorem replay_delivers_two :
    let live : Input := .event ⟨3, [⟨[1], some [5]⟩], .put⟩
    ((replayOf 2).due (puts 2)).length = 2 ∧ ((replayOf 2).due (puts 2)).map convertWatchEventToResponse <+:
      ((.go .empty 1 :: live :: replicate 5 (.go .empty 1)).foldl (Watcher.input v1Config) (replayOf 2)).delivered :=
  ⟨rfl, (replay_delivers v1Config (replayOf 2) (puts 2) rfl (inOrder_puts 2)).2.2.1 (by decide) _ (by decide)⟩

/-- One event more than the channel holds, and none is ever delivered. -/
theorem replay_of_257_blocks : ((replayOf 257).due (puts 257)).length = 257 ∧ ∀ inputs : List Input,
    (inputs.foldl (Watcher.input v1Config) (replayOf 257)).delivered = [] := by
  have hlen : ((replayOf 257).due (puts 257)).length = 257 := by decide +kernel
  exact ⟨hlen, replay_blocks rfl (inOrder_puts 257) (by rw [hlen]; decide)⟩

end Coord.Watch
