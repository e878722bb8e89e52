/-
# CloudEtcd.Watch.Cancel — what follows the cancellation of a watch (`watchStream.handleCancelRequest`).

`handleCancelRequest` closes the watcher, forgets the watch and sends a response with `Canceled`.  Closing
sets a flag that `Run` looks at only when it has nothing to send, so a watcher that is behind goes on to
pass its events to the stream.  A `CancelLog` keeps, beside the server, where on its stream each cancelled
watcher was told to be gone.

Nothing of a cancelled watcher follows its cancellation as long as a cancel request finds `Run` waiting with
nothing to send, and no commit tells a cancelled watcher of a new head before `Run` has looked at the flag
(`nothing_follows`).
-/
import CloudEtcd.Watch.Progress

namespace CloudEtcd

open WatchServer
open Option (bind_eq_some_iff map_eq_some_iff bind_some elim_some mem_toList)

namespace WatchState

variable {st st' : WatchState}

/-- A watcher at rest stays so, unless a commit is about to tell it of a new head. -/
def KeepsRest (st st' : WatchState) : Prop :=
  ∀ (j : Nat) (w : MemoryWatcher), st.watchers[j]? = some w → w.Rests →
    (st.notify = .looping j → w.run = .ended) → ∃ w', st'.watchers[j]? = some w' ∧ w'.Rests

theorem Onward.keepsRest (h : st.Onward st') : st.KeepsRest st' := by
  intro j w hw hrests hended
  obtain ⟨w', hw', honward, hkeeps⟩ := h j w hw
  refine ⟨w', hw', ?_⟩
  rcases hkeeps with hn | hkeeps
  · rw [MemoryWatcher.Rests, honward.ended (hended hn)]
    trivial
  · exact hkeeps hrests

end WatchState

namespace WatchServer

variable {sv sv' : WatchServer}
variable {k k₀ : Nat} {ws ws₀ ws₀' : WatchStream} {a : Action}

/-! ## What a step sends -/

/-- What was sent stays sent, and what a step adds to a stream comes from watchers that were not at rest. -/
structure Follows (sv sv' : WatchServer) : Prop where
  rests : sv.state.KeepsRest sv'.state
  streams : ∀ (k : Nat) (ws : WatchStream), sv.streams[k]? = some ws → ∃ ws' new,
    sv'.streams[k]? = some ws' ∧ ws'.sent = ws.sent ++ new ∧
      ∀ j, some j ∈ new.map Prod.fst → ∃ w, sv.state.watchers[j]? = some w ∧ ¬ w.Rests

variable {new₀ : List (Option Nat × WatchResponse)}

/-- One stream is replaced by one that has sent more. -/
theorem getElem?_setSent {streams : List WatchStream} (hws₀ : streams[k₀]? = some ws₀)
    (hsent : ws₀'.sent = ws₀.sent ++ new₀) (hws : streams[k]? = some ws) :
    ∃ ws', (streams.set k₀ ws₀')[k]? = some ws' ∧
      ws'.sent = ws.sent ++ if k₀ = k then new₀ else [] := by
  by_cases hk : k₀ = k
  · subst hk
    obtain rfl := Option.some.inj (hws₀.symm.trans hws)
    refine ⟨ws₀', List.getElem?_set_self (List.getElem?_eq_some_iff.mp hws).1, ?_⟩
    rw [if_pos rfl]
    exact hsent
  · refine ⟨ws, (List.getElem?_set_ne hk).trans hws, ?_⟩
    rw [if_neg hk, List.append_nil]

/-- A step of the request goroutine of a stream sends no events. -/
theorem Follows.of_setStream {st : WatchState} (honward : sv.state.Onward st)
    (hws₀ : sv.streams[k₀]? = some ws₀) (hsent : ws₀'.sent = ws₀.sent ++ new₀)
    (hnone : ∀ r ∈ new₀, r.1 = none) : sv.Follows ({ sv with state := st }.setStream k₀ ws₀') := by
  refine ⟨honward.keepsRest, fun k ws hws => ?_⟩
  obtain ⟨ws', hws', hadd⟩ := getElem?_setSent hws₀ hsent hws
  refine ⟨ws', _, hws', hadd, fun j hj => ?_⟩
  obtain ⟨r, hr, hsrc⟩ := List.mem_map.mp hj
  split at hr
  · exact absurd (hsrc.symm.trans (hnone r hr)) nofun
  · cases hr

theorem Follows.of_unsent {st : WatchState} (honward : sv.state.Onward st)
    (hws₀ : sv.streams[k₀]? = some ws₀) (hsent : ws₀'.sent = ws₀.sent) :
    sv.Follows ({ sv with state := st }.setStream k₀ ws₀') :=
  of_setStream honward hws₀ (hsent.trans (List.append_nil _).symm) nofun

/-- A step that leaves the streams alone, or adds one. -/
theorem Follows.of_streams {more : List WatchStream} (honward : sv.state.Onward sv'.state)
    (hstreams : sv'.streams = sv.streams ++ more) : sv.Follows sv' := by
  refine ⟨honward.keepsRest, fun k ws hws => ⟨ws, [], ?_, (List.append_nil _).symm, nofun⟩⟩
  rw [hstreams, List.getElem?_append_left (List.getElem?_eq_some_iff.mp hws).1]
  exact hws

/-- The callback of a watcher sends what it takes on the stream of the watcher, which is not at rest. -/
theorem Follows.respond {j : Nat} {taken : Bool} (hstep : sv.respond j taken = some sv') :
    sv.Follows sv' := by
  obtain ⟨w, hw, hstep⟩ := bind_eq_some_iff.mp hstep
  obtain ⟨⟨w', out⟩, hr, hstep⟩ := map_eq_some_iff.mp hstep
  have hbusy : ¬ w.Rests := by
    unfold MemoryWatcher.respond at hr
    split at hr
    · next hrun => exact (MemoryWatcher.not_rests hrun).2
    · cases hr
  have hrests : sv.state.KeepsRest (sv.state.setWatcher j w') := by
    intro i v hv hrests _
    have hne : j ≠ i := by
      rintro rfl
      obtain rfl := Option.some.inj (hw.symm.trans hv)
      exact hbusy hrests
    exact ⟨v, (List.getElem?_set_ne hne).trans hv, hrests⟩
  have hunsent : sv.Follows { sv with state := sv.state.setWatcher j w' } :=
    ⟨hrests, fun k ws hws => ⟨ws, [], hws, (List.append_nil _).symm, nofun⟩⟩
  dsimp only at hstep
  split at hstep
  · next resp ws₀ hws₀ =>
    obtain rfl := hstep
    refine ⟨hrests, fun k ws hws => ?_⟩
    have hsent : (ws₀.send (some j) resp).sent = ws₀.sent ++ [(some j, resp)] := rfl
    obtain ⟨ws', hws', hadd⟩ := getElem?_setSent hws₀ hsent hws
    refine ⟨ws', _, hws', hadd, fun i hi => ?_⟩
    have hij : i = j := by
      split at hi
      · simpa using hi
      · cases hi
    exact hij ▸ ⟨w, hw, hbusy⟩
  · obtain rfl := hstep
    exact hunsent

theorem Follows.step (hstep : sv.step a = some sv') : sv.Follows sv' := by
  have hsame : sv.state.Onward sv.state := WatchState.Onward.of_eq fun _ _ hw => hw
  rw [WatchServer.step] at hstep
  split at hstep
  · cases hstep
  cases a with
  | storage b =>
    simp only [move, storage] at hstep
    split at hstep
    case h_4 hwatch _ hrespond =>
      obtain ⟨state, hstate, rfl⟩ := map_eq_some_iff.mp hstep
      exact of_streams (WatchState.silent_step hwatch hrespond hstate).watchers (List.append_nil _).symm
    all_goals cases hstep
  | respond j taken => exact Follows.respond hstep
  | connect =>
    obtain rfl := Option.some.inj hstep
    exact of_streams hsame rfl
  | create k₀ req =>
    obtain ⟨ws₀, hws₀, hstep⟩ := bind_eq_some_iff.mp hstep
    simp only [create] at hstep
    split at hstep
    · generalize (if req.watchId = 0 then
        WatchStream.freeWatchID ws₀.watches ws₀.watches.keys.length ws₀.nextWatchID
        else (req.watchId, ws₀.nextWatchID)) = ids at hstep
      split at hstep
      · obtain rfl := Option.some.inj hstep
        exact of_unsent (WatchState.foldl_closeWatcher_silent _ _).watchers hws₀ rfl
      · obtain rfl := Option.some.inj hstep
        exact of_unsent (WatchState.Onward.of_eq fun _ _ hw => hw) hws₀ rfl
    · cases hstep
  | created k₀ =>
    obtain ⟨ws₀, hws₀, hstep⟩ := bind_eq_some_iff.mp hstep
    simp only [created] at hstep
    split at hstep
    · split at hstep
      · obtain ⟨w, hw, hstep⟩ := bind_eq_some_iff.mp hstep
        obtain ⟨w', hw', rfl⟩ := map_eq_some_iff.mp hstep
        have hsilent := WatchState.Silent.of_frame hw (MemoryWatcher.start_frame hw')
        exact of_setStream hsilent.watchers hws₀ rfl (by simp)
      · obtain ⟨current, -, rfl⟩ := map_eq_some_iff.mp hstep
        exact of_setStream hsame hws₀ (List.append_assoc _ _ _) (by simp)
      · obtain rfl := Option.some.inj hstep
        exact of_setStream (WatchState.foldl_closeWatcher_silent _ _).watchers hws₀ rfl (by simp)
      · cases hstep
    · cases hstep
  | cancel k₀ watchID =>
    obtain ⟨ws₀, hws₀, hstep⟩ := bind_eq_some_iff.mp hstep
    simp only [cancel] at hstep
    split at hstep
    · split at hstep
      · obtain rfl := Option.some.inj hstep
        exact of_streams hsame (List.append_nil _).symm
      · obtain rfl := Option.some.inj hstep
        exact of_setStream (WatchState.closeWatcher_silent _ _).1.watchers hws₀ rfl (by simp)
    · cases hstep
  | readProgress k₀ =>
    obtain ⟨ws₀, hws₀, hstep⟩ := bind_eq_some_iff.mp hstep
    simp only [readProgress] at hstep
    split at hstep
    · obtain ⟨logPosition, -, rfl⟩ := map_eq_some_iff.mp hstep
      exact of_unsent hsame hws₀ rfl
    · cases hstep
  | sendProgress k₀ =>
    obtain ⟨ws₀, hws₀, hstep⟩ := bind_eq_some_iff.mp hstep
    simp only [sendProgress] at hstep
    split at hstep
    · obtain rfl := Option.some.inj hstep
      exact of_setStream hsame hws₀ rfl (by simp)
    · cases hstep
  | hangup k₀ =>
    obtain ⟨ws₀, hws₀, hstep⟩ := bind_eq_some_iff.mp hstep
    simp only [hangup] at hstep
    split at hstep
    case h_3 => cases hstep
    all_goals
      obtain rfl := Option.some.inj hstep
      exact of_unsent (WatchState.foldl_closeWatcher_silent _ _).watchers hws₀ rfl

end WatchServer

/-! ## Cancelled watches -/

/-- A watcher that was cancelled: its stream, and how much was sent there with the `Canceled` response. -/
structure Cancellation where
  stream : Nat
  watcher : Nat
  position : Nat
  deriving DecidableEq, Repr

/-- The server, and the watches that were cancelled. -/
structure CancelLog where
  server : WatchServer
  cancelled : List Cancellation

namespace CancelLog

variable {s s' : CancelLog}
variable {a : WatchServer.Action}

/-- The watch that a step cancels. -/
def cancellation (sv : WatchServer) : WatchServer.Action → Option Cancellation
  | .cancel k watchID => sv.streams[k]?.bind fun ws =>
    (ws.watches.lookup watchID).map fun j => ⟨k, j, ws.sent.length + 1⟩
  | _ => none

/-- One step of the server, with the watch that it cancels. -/
def step (s : CancelLog) (a : WatchServer.Action) : Option CancelLog :=
  (s.server.step a).map fun server => ⟨server, s.cancelled ++ (cancellation s.server a).toList⟩

/-- What was sent on a stream after a cancellation. -/
def after (s : CancelLog) (c : Cancellation) : List (Option Nat × WatchResponse) :=
  s.server.streams[c.stream]?.elim [] fun ws => ws.sent.drop c.position

/-- No events of a cancelled watcher were sent on its stream after the response that cancelled it, so what a
later watch with the same ID gets there is not from this watcher. -/
def NothingFollows (s : CancelLog) : Prop :=
  ∀ c ∈ s.cancelled, some c.watcher ∉ (s.after c).map Prod.fst

/-- If the step cancels a watch, `Run` of its watcher waits and has nothing to send; and a commit that is
about to tell a cancelled watcher of a new head finds that its `Run` has returned. -/
def CancelsAtRest (s : CancelLog) (a : WatchServer.Action) : Prop :=
  (∀ c ∈ cancellation s.server a, ∃ w, s.server.state.watchers[c.watcher]? = some w ∧ w.Rests) ∧
  ∀ c ∈ s.cancelled, s.server.state.notify = .looping c.watcher →
    ∀ w ∈ s.server.state.watchers[c.watcher]?, w.run = .ended

instance decidableNothingFollows (s : CancelLog) : Decidable s.NothingFollows :=
  inferInstanceAs (Decidable (∀ c ∈ s.cancelled, _))

instance decidableCancelsAtRest (s : CancelLog) (a : WatchServer.Action) : Decidable (s.CancelsAtRest a) :=
  inferInstanceAs (Decidable ((∀ c ∈ cancellation s.server a, _) ∧ ∀ c ∈ s.cancelled, _))

/-- A cancelled watcher is at rest, and nothing of it follows its `Canceled` response. -/
def Settled (s : CancelLog) (c : Cancellation) : Prop :=
  (∃ w, s.server.state.watchers[c.watcher]? = some w ∧ w.Rests) ∧
  ∃ ws, s.server.streams[c.stream]? = some ws ∧ c.position ≤ ws.sent.length ∧
    some c.watcher ∉ (ws.sent.drop c.position).map Prod.fst

/-- The response that cancels a watch is the last one sent; no commit is in the middle of telling. -/
theorem cancellation_spec {sv sv' : WatchServer} {c : Cancellation}
    (hc : cancellation sv a = some c) (hstep : sv.step a = some sv') : sv.state.notify = .idle ∧
    ∃ ws, sv'.streams[c.stream]? = some ws ∧ ws.sent.length = c.position := by
  rw [WatchServer.step] at hstep
  split at hstep
  · cases hstep
  cases a with
  | cancel k watchID =>
    obtain ⟨ws, hws, hc⟩ := bind_eq_some_iff.mp hc
    obtain ⟨j, hj, rfl⟩ := map_eq_some_iff.mp hc
    simp only [move, hws, bind_some, cancel] at hstep
    split at hstep
    · next logPosition _ hhead =>
      rw [hj] at hstep
      obtain rfl := Option.some.inj hstep
      refine ⟨?_, _, List.getElem?_set_self (List.getElem?_eq_some_iff.mp hws).1, List.length_append⟩
      unfold currentRevision at hhead
      split at hhead
      · assumption
      · cases hhead
    · cases hstep
  | _ => cases hc

/-- Every cancelled watcher stays settled, and a new one is. -/
theorem settled_step (hs : ∀ c ∈ s.cancelled, s.Settled c) (hok : s.CancelsAtRest a)
    (hstep : s.step a = some s') : ∀ c ∈ s'.cancelled, s'.Settled c := by
  obtain ⟨server, hserver, rfl⟩ := map_eq_some_iff.mp hstep
  have hfollows := Follows.step hserver
  intro c hc
  rcases List.mem_append.mp hc with hc | hc
  · obtain ⟨⟨w, hw, hrests⟩, ws, hws, hle, hnot⟩ := hs c hc
    refine ⟨hfollows.rests c.watcher w hw hrests fun hn => hok.2 c hc hn w hw, ?_⟩
    obtain ⟨ws', new, hws', hsent, hsource⟩ := hfollows.streams c.stream ws hws
    refine ⟨ws', hws', ?_, fun hmem => ?_⟩
    · rw [hsent, List.length_append]
      omega
    · rw [hsent, List.drop_append_of_le_length hle, List.map_append, List.mem_append] at hmem
      refine hmem.elim hnot fun hnew => ?_
      obtain ⟨v, hv, hbusy⟩ := hsource c.watcher hnew
      obtain rfl := Option.some.inj (hw.symm.trans hv)
      exact hbusy hrests
  · have hnew := mem_toList.mp hc
    obtain ⟨w, hw, hrests⟩ := hok.1 c hnew
    obtain ⟨hidle, ws, hws, hlen⟩ := cancellation_spec hnew hserver
    refine ⟨hfollows.rests c.watcher w hw hrests fun hn => ?_, ws, hws, hlen.ge, ?_⟩
    · exact absurd (hidle.symm.trans hn) nofun
    · rw [← hlen, List.drop_length]
      exact List.not_mem_nil

theorem nothingFollows_of_settled (hs : ∀ c ∈ s.cancelled, s.Settled c) : s.NothingFollows := by
  intro c hc
  obtain ⟨-, ws, hws, -, hnot⟩ := hs c hc
  rwa [after, hws, elim_some]

/-- In every run of a server from its start in which watches are cancelled while their `Run` has nothing to
send, and no commit tells a cancelled watcher of a new head before its `Run` has returned, no events of a
cancelled watcher ever follow its `Canceled` response. -/
theorem nothing_follows {store : Store} {actions : List WatchServer.Action}
    (heach : Transition.Each step CancelsAtRest ⟨WatchServer.start store, []⟩ actions) :
    Transition.Always step NothingFollows ⟨WatchServer.start store, []⟩ actions := by
  intro before t hpre ht
  refine nothingFollows_of_settled ?_
  exact Transition.run_invariant_each (K := fun s => ∀ c ∈ s.cancelled, s.Settled c)
    (fun _ _ _ hs hok hstep => settled_step hs hok hstep) ht (heach.mono hpre) nofun

/-- Watch 1 has passed the put on when it is cancelled, and watch 1 is created anew. -/
def cancelCaughtUp : List WatchServer.Action :=
  watchOne ++ WatchServer.putOne ++ passOne ++ [.cancel 0 1, .create 0 { key := [1], watchId := 1 }]

theorem nothing_follows_caughtUp : ∃ store s, Store.boot noLeases ⟨0, 0⟩ [] = some store ∧
    Transition.run step ⟨WatchServer.start store, []⟩ cancelCaughtUp = some s ∧
    s.cancelled = [⟨0, 0, 3⟩] ∧
    Transition.Always step NothingFollows ⟨WatchServer.start store, []⟩ cancelCaughtUp := by
  obtain ⟨store, s, hboot, hs, hcancelled, heach⟩ : ∃ store s,
      Store.boot noLeases ⟨0, 0⟩ [] = some store ∧
      Transition.run step ⟨start store, []⟩ cancelCaughtUp = some s ∧ s.cancelled = [⟨0, 0, 3⟩] ∧
      Transition.Each step CancelsAtRest ⟨start store, []⟩ cancelCaughtUp :=
    by decide +kernel
  exact ⟨store, s, hboot, hs, hcancelled, nothing_follows heach⟩

/-- Watcher 0 has collected the put when watch 1 is cancelled; a new watch 1 is created, and then watcher 0
sends the put with the ID 1. -/
theorem events_follow_cancel : ∃ store s, Store.boot noLeases ⟨0, 0⟩ [] = some store ∧
    Transition.run step ⟨WatchServer.start store, []⟩ (WatchServer.watchOne ++ WatchServer.putOne ++
      [.storage (.wake 0), .storage (.collectNext 0 false), .cancel 0 1,
        .create 0 { key := [1], watchId := 1 }, .storage (.check 1), .storage (.lock 1),
        .storage (.readHead 1), .storage (.register 1), .created 0, .respond 0 true]) = some s ∧
    s.cancelled = [⟨0, 0, 2⟩] ∧ s.server.streams.map WatchStream.active = [[1]] ∧
    (s.after ⟨0, 0, 2⟩).map (fun r => (r.1, r.2.watchId, r.2.events.length)) =
      [(none, 1, 0), (some 0, 1, 1)] ∧
    ¬ s.NothingFollows :=
  by decide +kernel

end CancelLog

end CloudEtcd
