/-
# CloudEtcd.Watch.Progress — watch streams, and what a progress response means (`pkg/api/server.go`).

A `WatchServer` is the storage with the watch streams of the server.  The goroutine of a stream takes one
request after another: a create request goes through `MemoryStorage.Watch` and starts `Run`, a cancel
request closes a watch, and a progress request reads the head of the log and sends it.  The responses of a
watcher go to its stream as the callback takes them.

A progress response with revision `R` tells the client that it has everything up to `R`.  What is sent is the
head of the log, not what the watches of the stream have delivered, so this is so as long as no progress
request is handled while a watch of the stream is behind the head (`progress_sound`).
-/
import CloudEtcd.Watch.Steps

namespace CloudEtcd

open Cursor MemoryWatcher WatchState
open Option (elim_some bind_eq_some_iff map_eq_some_iff)
open List (getElem?_set_ne length_set append_nil mem_of_getElem? mem_singleton length_append)

/-! ## Streams -/

/-- What the request goroutine of a stream is doing. -/
inductive StreamPhase where
  /-- In `Recv`. -/
  | idle
  /-- In `handleCreateRequest`, with the watch ID and the `Watch` call. -/
  | creating (watchID : Int) (call : Nat)
  /-- In `handleProgressRequest`, with the position read. -/
  | progress (logPosition : Nat)
  | ended
  deriving DecidableEq, Repr

/-- `watchStream`; `watches` has the watcher behind each active watch, and `sent` what was sent on the
stream, with the watcher that sent it. -/
structure WatchStream where
  watches : GoMap Int Nat
  nextWatchID : Int
  phase : StreamPhase
  sent : List (Option Nat × WatchResponse)

namespace WatchStream

/-- A stream at the start of `Server.Watch`. -/
def new : WatchStream := ⟨∅, 1, .idle, []⟩

/-- The loop that looks for a free watch ID: the ID, and the next `nextWatchID`.  Each round but the last
finds an ID in use, so there are no more rounds than watches. -/
def freeWatchID (watches : GoMap Int Nat) : Nat → Int → Int × Int
  | 0, id => (id, id + 1)
  | n + 1, id =>
    if (watches.lookup id).isSome then freeWatchID watches n (id + 1) else (id, id + 1)

/-- The watchers behind the active watches. -/
def active (ws : WatchStream) : List Nat := ws.watches.entries.map Sigma.snd

/-- `stream.Send`. -/
def send (ws : WatchStream) (watcher : Option Nat) (resp : WatchResponse) : WatchStream :=
  { ws with sent := ws.sent ++ [(watcher, resp)] }

/-- The events that a watcher has sent on the stream. -/
def eventsOf (ws : WatchStream) (j : Nat) : List Event :=
  ws.sent.flatMap fun r => if r.1 = some j then r.2.events else []

end WatchStream

/-- `activeWatch.close`. -/
def WatchState.closeWatcher (st : WatchState) (j : Nat) : WatchState :=
  match st.watchers[j]? with
  | some w => st.setWatcher j w.close
  | none => st

/-- The storage and the watch streams. -/
structure WatchServer where
  state : WatchState
  streams : List WatchStream

namespace WatchServer

/-- A server without streams. -/
def start (s : Store) : WatchServer := ⟨WatchState.start s, []⟩

/-- A stream changes. -/
def setStream (sv : WatchServer) (k : Nat) (ws : WatchStream) : WatchServer :=
  { sv with streams := sv.streams.set k ws }

/-- The head of the log, while no commit holds its lock. -/
def currentRevision (sv : WatchServer) : Option Nat :=
  match sv.state.notify with
  | .idle => some sv.state.store.log.lastRevision
  | _ => none

/-- `cleanup`: the watches of the stream are closed. -/
def cleanup (sv : WatchServer) (k : Nat) (ws : WatchStream) : WatchServer :=
  { sv with state := ws.active.foldl closeWatcher sv.state }.setStream k
    { ws with watches := ∅, phase := .ended }

/-- `handleCreateRequest` up to the call of `Watch`.  A watch ID that is in use ends the stream. -/
def create (sv : WatchServer) (k : Nat) (ws : WatchStream) (req : WatchCreateRequest) :
    Option WatchServer :=
  match ws.phase with
  | .idle =>
    let (watchID, nextWatchID) :=
      if req.watchId = 0 then
        WatchStream.freeWatchID ws.watches ws.watches.keys.length ws.nextWatchID
      else (req.watchId, ws.nextWatchID)
    if (ws.watches.lookup watchID).isSome then some (sv.cleanup k ws)
    else
      let calls := sv.state.calls ++ [.begin { req with watchId := watchID } k]
      some ({ sv with state := { sv.state with calls := calls } }.setStream k
        { ws with nextWatchID := nextWatchID, phase := .creating watchID sv.state.calls.length })
  | _ => none

/-- The rest of `handleCreateRequest`, when `Watch` has returned. -/
def created (sv : WatchServer) (k : Nat) (ws : WatchStream) : Option WatchServer :=
  match ws.phase with
  | .creating watchID i =>
    match sv.state.calls[i]? with
    | some (.registered j logPosition) =>
      sv.state.watchers[j]?.bind fun w => w.start.map fun w =>
        let resp := { header := createHeader logPosition, watchId := watchID, created := true }
        { sv with state := sv.state.setWatcher j w }.setStream k
          { ws.send none resp with watches := ws.watches.insert watchID j, phase := .idle }
    | some (.errCompacted compacted) =>
      sv.currentRevision.map fun current =>
        let created := { header := createHeader current, watchId := watchID, created := true }
        let canceled := { header := createHeader current, watchId := watchID, canceled := true,
                          compactRevision := compacted }
        sv.setStream k { (ws.send none created).send none canceled with phase := .idle }
    | some .errWatchId =>
      some (sv.cleanup k (ws.send none
        { header := createHeader 0, watchId := 0, canceled := true }))
    | _ => none
  | _ => none

/-- `handleCancelRequest`. -/
def cancel (sv : WatchServer) (k : Nat) (ws : WatchStream) (watchID : Int) : Option WatchServer :=
  match ws.phase, sv.currentRevision with
  | .idle, some logPosition =>
    match ws.watches.lookup watchID with
    | none => some sv
    | some j =>
      let resp := { header := createHeader logPosition, watchId := watchID, canceled := true }
      some ({ sv with state := sv.state.closeWatcher j }.setStream k
        { ws.send none resp with watches := ws.watches.erase watchID })
  | _, _ => none

/-- `handleProgressRequest` reads the head. -/
def readProgress (sv : WatchServer) (k : Nat) (ws : WatchStream) : Option WatchServer :=
  match ws.phase with
  | .idle => sv.currentRevision.map fun logPosition =>
    sv.setStream k { ws with phase := .progress logPosition }
  | _ => none

/-- `handleProgressRequest` sends it, to the watch ID -1. -/
def sendProgress (sv : WatchServer) (k : Nat) (ws : WatchStream) : Option WatchServer :=
  match ws.phase with
  | .progress logPosition =>
    some (sv.setStream k
      { ws.send none { header := createHeader logPosition, watchId := -1 } with phase := .idle })
  | _ => none

/-- The context of the stream ends while it handles no create request. -/
def hangup (sv : WatchServer) (k : Nat) (ws : WatchStream) : Option WatchServer :=
  match ws.phase with
  | .idle | .progress _ => some (sv.cleanup k ws)
  | _ => none

/-- A watcher passes a response to its callback, which sends it on the stream. -/
def respond (sv : WatchServer) (j : Nat) (taken : Bool) : Option WatchServer :=
  sv.state.watchers[j]?.bind fun w => (w.respond taken).map fun r =>
    let sv' : WatchServer := { sv with state := sv.state.setWatcher j r.1 }
    match r.2, sv.streams[w.callback]? with
    | some resp, some ws => sv'.setStream w.callback (ws.send (some j) resp)
    | _, _ => sv'

/-- Who moves, and what chance decides. -/
inductive Action where
  | storage (a : WatchState.Action)
  | respond (j : Nat) (taken : Bool)
  | connect
  | create (k : Nat) (req : WatchCreateRequest)
  | created (k : Nat)
  | cancel (k : Nat) (watchID : Int)
  | readProgress (k : Nat)
  | sendProgress (k : Nat)
  | hangup (k : Nat)

/-- The steps of the storage that the streams do not take themselves. -/
def storage (sv : WatchServer) : WatchState.Action → Option WatchServer
  | .watch _ _ | .startRun _ | .respond _ _ => none
  | a => (sv.state.step a).map fun state => { sv with state := state }

/-- One step of a process that has not ended. -/
def move (sv : WatchServer) : Action → Option WatchServer
  | .storage a => sv.storage a
  | .respond j taken => sv.respond j taken
  | .connect => some { sv with streams := sv.streams ++ [WatchStream.new] }
  | .create k req => sv.streams[k]?.bind fun ws => sv.create k ws req
  | .created k => sv.streams[k]?.bind (sv.created k)
  | .cancel k watchID => sv.streams[k]?.bind fun ws => sv.cancel k ws watchID
  | .readProgress k => sv.streams[k]?.bind (sv.readProgress k)
  | .sendProgress k => sv.streams[k]?.bind (sv.sendProgress k)
  | .hangup k => sv.streams[k]?.bind (sv.hangup k)

/-- One step. -/
def step (sv : WatchServer) (a : Action) : Option WatchServer :=
  if sv.state.halted then none else sv.move a

end WatchServer

/-! ## What is on a stream -/

namespace WatchState

variable {st : WatchState}

theorem closeWatcher_silent (st : WatchState) (j : Nat) : st.Silent (st.closeWatcher j) ∧
    (st.closeWatcher j).watchers.length = st.watchers.length ∧
    (st.closeWatcher j).notify = st.notify := by
  unfold closeWatcher
  split
  · next w hw =>
    exact ⟨Silent.setWatcher hw ⟨rfl, nofun, le_rfl, id⟩ (Or.inr id) rfl, length_set, rfl⟩
  · exact ⟨Silent.of_eq rfl rfl, rfl, rfl⟩

theorem foldl_closeWatcher_silent (st : WatchState) (js : List Nat) :
    st.Silent (js.foldl closeWatcher st) := by
  induction js generalizing st with
  | nil => exact Silent.of_eq rfl rfl
  | cons j js ih =>
    obtain ⟨hsilent, hlen, hnotify⟩ := closeWatcher_silent st j
    exact hsilent.trans (ih _) hlen hnotify

theorem Inv.closeWatcher (h : st.Inv) (j : Nat) : (st.closeWatcher j).Inv := by
  unfold WatchState.closeWatcher
  split
  · next w hw => exact h.setWatcher hw (h.watchers w (mem_of_getElem? hw)).close rfl
  · exact h

theorem Inv.foldl_closeWatcher (h : st.Inv) (js : List Nat) : (js.foldl WatchState.closeWatcher st).Inv := by
  induction js generalizing st with
  | nil => exact h
  | cons j js ih => exact ih (h.closeWatcher j)

end WatchState

namespace WatchStream

theorem eventsOf_send_none (ws : WatchStream) (resp : WatchResponse) (j : Nat) :
    (ws.send none resp).eventsOf j = ws.eventsOf j := by
  simp [eventsOf, send]

theorem eventsOf_send_some (ws : WatchStream) (i j : Nat) (resp : WatchResponse) :
    (ws.send (some i) resp).eventsOf j =
      ws.eventsOf j ++ if i = j then resp.events else [] := by
  simp [eventsOf, send]

end WatchStream

namespace WatchServer

/-- If the step handles a progress request, no watch of the stream has delivered less than the head that is
read. -/
def ReadsDelivered (sv : WatchServer) : Action → Prop
  | .readProgress k => ∀ ws ∈ sv.streams[k]?, ∀ j ∈ ws.active, ∀ w ∈ sv.state.watchers[j]?,
      sv.state.store.log.lastRevision ≤ w.watchDoneRevision
  | _ => True

instance decidableReadsDelivered (sv : WatchServer) (a : Action) : Decidable (sv.ReadsDelivered a) := by
  unfold ReadsDelivered
  split <;> infer_instance

/-- What one stream says agrees with what the watchers did; a revision that is about to be sent as progress
has been delivered. -/
structure StreamInv (st : WatchState) (k : Nat) (ws : WatchStream) : Prop where
  watches : ∀ id j, ws.watches.lookup id = some j →
    ∃ w, st.watchers[j]? = some w ∧ w.callback = k
  creating : ∀ id i, ws.phase = .creating id i →
    ∃ c, st.calls[i]? = some c ∧ st.CallFor k c
  progress : ∀ R, ws.phase = .progress R → ∀ id j, ws.watches.lookup id = some j →
    ∃ w, st.watchers[j]? = some w ∧ R ≤ w.watchDoneRevision
  sent : ∀ j, ws.eventsOf j = st.sentTo k j

/-- The invariant of the server. -/
structure Inv (sv : WatchServer) : Prop where
  state : sv.state.Inv
  streams : ∀ k ws, sv.streams[k]? = some ws → StreamInv sv.state k ws
  callbacks : ∀ w ∈ sv.state.watchers, w.callback < sv.streams.length
  callers : ∀ c ∈ sv.state.calls, ∃ k < sv.streams.length, sv.state.CallFor k c

variable {sv sv' : WatchServer} {k : Nat} {ws : WatchStream}
variable {st' st : WatchState} {ws' : WatchStream}

/-- A step of the storage, and what it adds to the stream. -/
theorem StreamInv.keeps (h : StreamInv st k ws) (hs : st.Keeps st')
    (hwatches : ws'.watches = ws.watches) (hphase : ws'.phase = ws.phase)
    (hsent : ∀ j, ws'.eventsOf j = st'.sentTo k j) : StreamInv st' k ws' where
  watches id j hj := by
    rw [hwatches] at hj
    obtain ⟨w, hw, hcb⟩ := h.watches id j hj
    obtain ⟨w', hw', honward, -⟩ := hs.watchers j w hw
    exact ⟨w', hw', honward.callback.trans hcb⟩
  progress R hR id j hj := by
    rw [hphase] at hR
    rw [hwatches] at hj
    obtain ⟨w, hw, hdone⟩ := h.progress R hR id j hj
    obtain ⟨w', hw', honward, -⟩ := hs.watchers j w hw
    exact ⟨w', hw', hdone.trans honward.advances⟩
  creating id i hi := by
    rw [hphase] at hi
    obtain ⟨c, hc, hk⟩ := h.creating id i hi
    have hlt : i < st'.calls.length := hs.length.symm ▸ (List.getElem?_eq_some_iff.mp hc).1
    obtain ⟨c', hc'⟩ : ∃ c', st'.calls[i]? = some c' := ⟨_, List.getElem?_eq_getElem hlt⟩
    obtain ⟨d, hd, hmono⟩ := hs.calls i c' hc'
    obtain rfl := Option.some.inj (hc.symm.trans hd)
    exact ⟨c', hc', hmono k hk⟩
  sent := hsent

theorem StreamInv.silent (h : StreamInv st k ws) (hs : st.Silent st') : StreamInv st' k ws :=
  h.keeps hs.toKeeps rfl rfl fun j => (h.sent j).trans (hs.sentTo k j).symm

/-- A step of the storage, with the streams that follow it. -/
theorem Inv.keeps (h : sv.Inv) {streams : List WatchStream} (hinv : st'.Inv)
    (hs : sv.state.Keeps st') (hlen : streams.length = sv.streams.length)
    (hstreams : ∀ (k : Nat) (ws : WatchStream), streams[k]? = some ws → StreamInv st' k ws) :
    Inv ⟨st', streams⟩ where
  state := hinv
  streams := hstreams
  callbacks w' hw' := by
    show w'.callback < streams.length
    rw [hlen]
    obtain ⟨j, hj⟩ := List.getElem?_of_mem hw'
    cases hw : sv.state.watchers[j]? with
    | some w =>
      obtain ⟨w'', hw'', honward, -⟩ := hs.watchers j w hw
      obtain rfl := Option.some.inj (hj.symm.trans hw'')
      rw [honward.callback]
      exact h.callbacks w (mem_of_getElem? hw)
    | none =>
      obtain ⟨c, hc, hk⟩ := hs.fresh j w' hj hw
      obtain ⟨k, hlt, hfor⟩ := h.callers c hc
      rw [hk k hfor]
      exact hlt
  callers c' hc' := by
    show ∃ k < streams.length, _
    rw [hlen]
    obtain ⟨i, hi⟩ := List.getElem?_of_mem hc'
    obtain ⟨c, hc, hmono⟩ := hs.calls i c' hi
    obtain ⟨k, hlt, hk⟩ := h.callers c (mem_of_getElem? hc)
    exact ⟨k, hlt, hmono k hk⟩

theorem Inv.withState (h : sv.Inv) (hinv : st'.Inv) (hs : sv.state.Silent st') :
    Inv { sv with state := st' } :=
  h.keeps hinv hs.toKeeps rfl fun k ws hws => (h.streams k ws hws).silent hs

/-- A step of one stream. -/
theorem Inv.setStream (h : sv.Inv) (hws' : StreamInv sv.state k ws') :
    (sv.setStream k ws').Inv where
  state := h.state
  streams i v hv := by
    by_cases hki : k = i
    · subst hki
      rw [WatchServer.setStream, List.getElem?_set] at hv
      split at hv
      · split at hv
        · obtain rfl := Option.some.inj hv
          exact hws'
        · cases hv
      · contradiction
    · rw [WatchServer.setStream, getElem?_set_ne hki] at hv
      exact h.streams i v hv
  callbacks w hw := by
    rw [WatchServer.setStream, length_set]
    exact h.callbacks w hw
  callers c hc := by
    rw [WatchServer.setStream, length_set]
    exact h.callers c hc

/-- The stream comes to an end or waits for a request, and no event is sent. -/
theorem StreamInv.moved (h : StreamInv st k ws) (hwatches : ∀ id j, ws'.watches.lookup id = some j →
      ∃ w, st.watchers[j]? = some w ∧ w.callback = k) (hphase : ws'.phase = .idle ∨ ws'.phase = .ended)
    (hsent : ∀ j, ws'.eventsOf j = ws.eventsOf j) : StreamInv st k ws' where
  watches := hwatches
  creating id i heq := by rcases hphase with hphase | hphase <;> exact nomatch hphase.symm.trans heq
  progress R heq := by rcases hphase with hphase | hphase <;> exact nomatch hphase.symm.trans heq
  sent j := (hsent j).trans (h.sent j)

section

variable (h : sv.Inv)
include h

theorem Inv.cleanup (hws' : StreamInv sv.state k ws') : (sv.cleanup k ws').Inv := by
  have hsilent := foldl_closeWatcher_silent sv.state ws'.active
  refine (h.withState (h.state.foldl_closeWatcher ws'.active) hsilent).setStream ?_
  exact (hws'.silent hsilent).moved (by simp) (Or.inr rfl) fun _ => rfl

section

variable (hws : sv.streams[k]? = some ws)
include hws

theorem Inv.create {req : WatchCreateRequest} (hstep : sv.create k ws req = some sv') : sv'.Inv := by
  have hold := h.streams k ws hws
  have hk : k < sv.streams.length := (List.getElem?_eq_some_iff.mp hws).1
  unfold WatchServer.create at hstep
  split at hstep
  · dsimp only at hstep
    generalize (if req.watchId = 0 then
      WatchStream.freeWatchID ws.watches ws.watches.keys.length ws.nextWatchID
      else (req.watchId, ws.nextWatchID)) = ids at hstep
    split at hstep
    · cases hstep
      exact h.cleanup hold
    · cases hstep
      set call : WatchCall := .begin { req with watchId := ids.1 } k with hcall
      have hcalls : ∀ (i : Nat) (c : WatchCall), sv.state.calls[i]? = some c →
          (sv.state.calls ++ [call])[i]? = some c := fun i c hc =>
        (List.getElem?_append_left (List.getElem?_eq_some_iff.mp hc).1).trans hc
      have hfor : ∀ i c, sv.state.CallFor i c →
          WatchState.CallFor { sv.state with calls := sv.state.calls ++ [call] } i c :=
        fun i c hc => hc.mono (Onward.of_eq fun _ _ hw => hw)
      have hstate : Inv { sv with
          state := { sv.state with calls := sv.state.calls ++ [call] } } := by
        refine ⟨h.state.watch _ k, fun i v hv => ?_, h.callbacks, fun c hc => ?_⟩
        · have hv' := h.streams i v hv
          refine ⟨hv'.watches, fun id n hphase => ?_, hv'.progress, hv'.sent⟩
          obtain ⟨c, hc, hci⟩ := hv'.creating id n hphase
          exact ⟨c, hcalls n c hc, hfor i c hci⟩
        · rcases List.mem_append.mp hc with hc | hc
          · obtain ⟨i, hi, hci⟩ := h.callers c hc
            exact ⟨i, hi, hfor i c hci⟩
          · obtain rfl := mem_singleton.mp hc
            exact ⟨k, hk, rfl⟩
      refine hstate.setStream ⟨hold.watches, fun id i heq => ?_, nofun, hold.sent⟩
      cases heq
      exact ⟨call, by simp, rfl⟩
  · cases hstep

theorem Inv.created (hstep : sv.created k ws = some sv') : sv'.Inv := by
  have hold := h.streams k ws hws
  unfold WatchServer.created at hstep
  split at hstep
  · next watchID i hphase =>
    obtain ⟨c, hc, hfor⟩ := hold.creating watchID i hphase
    split at hstep
    · next j logPosition hcall =>
      obtain ⟨w, hw, hs⟩ := bind_eq_some_iff.mp hstep
      obtain ⟨w', hw', rfl⟩ := map_eq_some_iff.mp hs
      have hframe := start_frame hw'
      have hinv := (h.state.watchers w (mem_of_getElem? hw)).start hw'
      have hstate := h.withState (h.state.setWatcher hw hinv hframe.logPosition)
        (WatchState.Silent.of_frame hw hframe)
      refine hstate.setStream ?_
      have hold' := hstate.streams k ws hws
      refine hold'.moved (fun id n hn => ?_) (Or.inl rfl) fun n => ws.eventsOf_send_none _ n
      by_cases hid : id = watchID
      · -- The new watch: its call was made for this stream.
        subst hid
        rw [AList.lookup_insert, Option.some.injEq] at hn
        subst hn
        obtain rfl := Option.some.inj (hcall.symm.trans hc)
        obtain ⟨v, hv, hcb⟩ := hfor
        obtain rfl := Option.some.inj (hw.symm.trans hv)
        exact ⟨w', List.getElem?_set_self (List.getElem?_eq_some_iff.mp hw).1,
          hframe.callback.trans hcb⟩
      · rw [AList.lookup_insert_ne hid] at hn
        exact hold'.watches id n hn
    · obtain ⟨current, -, rfl⟩ := map_eq_some_iff.mp hstep
      refine h.setStream ?_
      refine hold.moved hold.watches (Or.inl rfl) fun j => ?_
      exact ((ws.send none _).eventsOf_send_none _ j).trans (ws.eventsOf_send_none _ j)
    · cases hstep
      refine h.cleanup ?_
      refine ⟨hold.watches, fun id n heq => hold.creating id n heq, fun R heq => hold.progress R heq,
        fun j => ?_⟩
      rw [WatchStream.eventsOf_send_none]
      exact hold.sent j
    · cases hstep
  · cases hstep

theorem Inv.cancel {watchID : Int} (hstep : sv.cancel k ws watchID = some sv') : sv'.Inv := by
  unfold WatchServer.cancel at hstep
  split at hstep
  · rename_i hidle _
    split at hstep
    · cases hstep
      exact h
    · next j hj =>
      cases hstep
      have hstate := h.withState (h.state.closeWatcher j) (closeWatcher_silent sv.state j).1
      refine hstate.setStream ?_
      have hold' := hstate.streams k ws hws
      refine hold'.moved (fun id n hn => ?_) (Or.inl hidle) fun n => ws.eventsOf_send_none _ n
      by_cases hid : id = watchID
      · rw [hid, AList.lookup_erase] at hn
        cases hn
      · rw [AList.lookup_erase_ne hid] at hn
        exact hold'.watches id n hn
  · cases hstep

theorem Inv.readProgress (hc : sv.ReadsDelivered (.readProgress k))
    (hstep : sv.readProgress k ws = some sv') : sv'.Inv := by
  have hold := h.streams k ws hws
  unfold WatchServer.readProgress at hstep
  split at hstep
  · obtain ⟨logPosition, hhead, rfl⟩ := map_eq_some_iff.mp hstep
    refine h.setStream ⟨hold.watches, nofun, fun R hR id j hj => ?_, hold.sent⟩
    cases hR
    obtain ⟨w, hw, -⟩ := hold.watches id j hj
    have hactive : j ∈ ws.active :=
      List.mem_map.mpr ⟨⟨id, j⟩, AList.mem_lookup_iff.mp hj, rfl⟩
    refine ⟨w, hw, ?_⟩
    unfold currentRevision at hhead
    split at hhead <;> cases hhead
    exact hc ws hws j hactive w hw
  · cases hstep

theorem Inv.sendProgress (hstep : sv.sendProgress k ws = some sv') : sv'.Inv := by
  have hold := h.streams k ws hws
  unfold WatchServer.sendProgress at hstep
  split at hstep
  · cases hstep
    exact h.setStream (hold.moved hold.watches (Or.inl rfl) fun j => ws.eventsOf_send_none _ j)
  · cases hstep

end

theorem Inv.connect : Inv { sv with streams := sv.streams ++ [WatchStream.new] } where
  state := h.state
  streams k ws hws := by
    rw [List.getElem?_append] at hws
    split at hws
    · exact h.streams k ws hws
    · next hge =>
      obtain rfl := mem_singleton.mp (mem_of_getElem? hws)
      refine ⟨by simp [WatchStream.new], nofun, nofun, fun j => ?_⟩
      -- No watcher has the callback of a stream that was not there.
      show [] = sv.state.sentTo k j
      unfold sentTo
      cases hw : sv.state.watchers[j]? with
      | none => rfl
      | some w =>
        have hlt := h.callbacks w (mem_of_getElem? hw)
        have hne : w.callback ≠ k := by omega
        simp [hne]
  callbacks w hw := by
    rw [length_append]
    exact Nat.lt_add_right _ (h.callbacks w hw)
  callers c hc := by
    obtain ⟨k, hk, hfor⟩ := h.callers c hc
    rw [length_append]
    exact ⟨k, Nat.lt_add_right _ hk, hfor⟩

/-- A watcher's response goes to the stream that it was made for. -/
theorem Inv.respond {j : Nat} {taken : Bool} (hstep : sv.respond j taken = some sv') : sv'.Inv := by
  obtain ⟨w, hw, hs⟩ := bind_eq_some_iff.mp hstep
  obtain ⟨⟨w', resp⟩, hr, rfl⟩ := map_eq_some_iff.mp hs
  have hwi := h.state.watchers w (mem_of_getElem? hw)
  have hframe := hwi.respond_frame hr
  have hinv := h.state.setWatcher hw (hwi.respond hr) hframe.logPosition
  have hkeeps := WatchState.Keeps.setWatcher hw hframe.onward (Or.inr hframe.rests)
  have hk := h.callbacks w (mem_of_getElem? hw)
  have hws : sv.streams[w.callback]? = some sv.streams[w.callback] := List.getElem?_eq_getElem hk
  cases resp with
  | none => exact h.withState hinv (WatchState.Silent.of_frame hw hframe)
  | some resp =>
    rw [hws]
    refine h.keeps hinv hkeeps length_set
      fun k ws hk => ?_
    have hsentTo := sentTo_setWatcher hw hframe.onward hframe.sent k
    by_cases hcb : w.callback = k
    · subst hcb
      rw [List.getElem?_set_self (List.getElem?_eq_some_iff.mp hws).1] at hk
      obtain rfl := Option.some.inj hk
      have hold := h.streams w.callback _ hws
      refine hold.keeps hkeeps rfl rfl fun i => ?_
      rw [WatchStream.eventsOf_send_some, hsentTo i, hold.sent i]
      simp
    · rw [getElem?_set_ne hcb] at hk
      have hold := h.streams k ws hk
      refine hold.keeps hkeeps rfl rfl fun i => ?_
      rw [hsentTo i, hold.sent i]
      simp [hcb]

theorem Inv.storage {a : WatchState.Action} (hstep : sv.storage a = some sv') : sv'.Inv := by
  unfold WatchServer.storage at hstep
  split at hstep
  · cases hstep
  · cases hstep
  · cases hstep
  · next hwatch _ hrespond =>
    obtain ⟨st', hst, rfl⟩ := map_eq_some_iff.mp hstep
    exact h.withState (WatchState.Inv.step _ a st' h.state hst)
      (WatchState.silent_step hwatch hrespond hst)

end

theorem Inv.start {s : Store} (h : s.LogInv) : (start s).Inv where
  state := WatchState.Inv.start h
  streams _ _ hws := by cases hws
  callbacks _ hw := by cases hw
  callers _ hc := by cases hc

theorem Inv.step (sv : WatchServer) (a : Action) (sv' : WatchServer) (h : sv.Inv)
    (hc : sv.ReadsDelivered a) (hstep : sv.step a = some sv') : sv'.Inv := by
  unfold WatchServer.step at hstep
  split at hstep
  · cases hstep
  · cases a with
    | storage a => exact h.storage hstep
    | respond j taken => exact h.respond hstep
    | connect =>
      cases hstep
      exact h.connect
    | create k req =>
      obtain ⟨ws, hws, hs⟩ := bind_eq_some_iff.mp hstep
      exact h.create hws hs
    | created k =>
      obtain ⟨ws, hws, hs⟩ := bind_eq_some_iff.mp hstep
      exact h.created hws hs
    | cancel k watchID =>
      obtain ⟨ws, hws, hs⟩ := bind_eq_some_iff.mp hstep
      exact h.cancel hws hs
    | readProgress k =>
      obtain ⟨ws, hws, hs⟩ := bind_eq_some_iff.mp hstep
      exact h.readProgress hws hc hs
    | sendProgress k =>
      obtain ⟨ws, hws, hs⟩ := bind_eq_some_iff.mp hstep
      exact h.sendProgress hws hs
    | hangup k =>
      obtain ⟨ws, hws, hs⟩ := bind_eq_some_iff.mp hstep
      unfold WatchServer.hangup at hs
      split at hs
      · cases hs
        exact h.cleanup (h.streams k ws hws)
      · cases hs
        exact h.cleanup (h.streams k ws hws)
      · cases hs

end WatchServer

/-! ## Progress -/

/-- The events up to `R` that are for the watch, from its start revision on, are on the stream. -/
def WatchStream.SentUpTo (ws : WatchStream) (hist : LogHistory) (j : Nat) (w : MemoryWatcher)
    (R : Nat) : Prop :=
  between (w.req.eventsAt hist) w.behind R <+: ws.eventsOf j

instance (ws : WatchStream) (hist : LogHistory) (j : Nat) (w : MemoryWatcher) (R : Nat) :
    Decidable (ws.SentUpTo hist j w R) :=
  inferInstanceAs (Decidable (_ <+: _))

/-- What a stream has of a watch. -/
theorem WatchServer.Inv.eventsOf_eq {sv : WatchServer} (h : sv.Inv) {k : Nat} {ws : WatchStream}
    (hws : sv.streams[k]? = some ws) {id : Int} {j : Nat} {w : MemoryWatcher}
    (hid : ws.watches.lookup id = some j) (hw : sv.state.watchers[j]? = some w) :
    ws.eventsOf j =
      between (w.req.eventsAt sv.state.store.history) w.behind w.watchDoneRevision := by
  have hstream := h.streams k ws hws
  obtain ⟨v, hv, hcb⟩ := hstream.watches id j hid
  obtain rfl := Option.some.inj (hw.symm.trans hv)
  have hexact := (h.state.watchers w (mem_of_getElem? hw)).exact
  rw [hstream.sent j, sentTo, hw, elim_some, if_pos hcb, hexact.events]

/-- A watch that has delivered up to `R` has everything up to `R` on the stream. -/
theorem WatchServer.Inv.sentUpTo {sv : WatchServer} (h : sv.Inv) {k : Nat} {ws : WatchStream}
    (hws : sv.streams[k]? = some ws) {id : Int} {j : Nat} {w : MemoryWatcher}
    (hid : ws.watches.lookup id = some j) (hw : sv.state.watchers[j]? = some w) {R : Nat}
    (hR : R ≤ w.watchDoneRevision) : ws.SentUpTo sv.state.store.history j w R := by
  rw [WatchStream.SentUpTo, h.eventsOf_eq hws hid hw]
  rcases Nat.le_total R w.behind with hb | hb
  · rw [between_of_le hb]
    exact List.nil_prefix
  · rw [← between_append hb hR]
    exact List.prefix_append _ _

/-- In every run in which each progress request finds the watches of its stream at the head: when
`handleProgressRequest` sends a response with revision `R`, every active watch of the stream has had
everything up to `R`. -/
theorem progress_sound {env : LeaseEnv} {log : FilesystemLog} {s : Store} (hwf : log.WF)
    (hcache : log.cache.ll = []) (hstart : Store.start env log = .ok s)
    {actions : List WatchServer.Action} {sv sv' : WatchServer}
    (hrun : Transition.run WatchServer.step (WatchServer.start s) actions = some sv)
    (heach : Transition.Each WatchServer.step WatchServer.ReadsDelivered (WatchServer.start s) actions)
    {k : Nat} (hsend : sv.step (.sendProgress k) = some sv') :
    ∃ ws R, sv.streams[k]? = some ws ∧ ws.phase = .progress R ∧
      sv'.streams[k]? = some
        { ws.send none { header := createHeader R, watchId := -1 } with phase := .idle } ∧
      ∀ id j w, ws.watches.lookup id = some j → sv.state.watchers[j]? = some w →
        ws.SentUpTo sv.state.store.history j w R := by
  have hinv := Transition.run_invariant_each WatchServer.Inv.step hrun heach
    (WatchServer.Inv.start (Store.LogInv.start hwf hcache hstart))
  unfold WatchServer.step at hsend
  split at hsend
  · cases hsend
  · obtain ⟨ws, hws, hs⟩ := bind_eq_some_iff.mp hsend
    unfold WatchServer.sendProgress at hs
    split at hs
    · next R hphase =>
      cases hs
      refine ⟨ws, R, hws, hphase, List.getElem?_set_self (List.getElem?_eq_some_iff.mp hws).1, ?_⟩
      intro id j w hid hw
      obtain ⟨v, hv, hdone⟩ := (hinv.streams k ws hws).progress R hphase id j hid
      obtain rfl := Option.some.inj (hw.symm.trans hv)
      exact hinv.sentUpTo hws hid hw hdone
    · cases hs

namespace WatchServer

/-- A stream, and a watch of key 1 on it that nothing interleaves with. -/
def watchOne : List Action :=
  [.connect, .create 0 { key := [1] }, .storage (.check 0), .storage (.lock 0), .storage (.readHead 0),
    .storage (.register 0), .created 0]

/-- A put of key 1 is committed, and the watcher is told. -/
def putOne : List Action :=
  (commitAlone 1 [putRecord 1 2]).map .storage

/-- The watcher passes the put on. -/
def passOne : List Action :=
  [.storage (.wake 0), .storage (.collectNext 0 false), .respond 0 true]

end WatchServer

/-- With the put passed on, the response says what is so. -/
theorem progress_sound_passed : ∃ s sv sv' ws, Store.boot noLeases ⟨0, 0⟩ [] = some s ∧
    Transition.run WatchServer.step (WatchServer.start s) (WatchServer.watchOne ++
      WatchServer.putOne ++ WatchServer.passOne ++ [WatchServer.Action.readProgress 0]) = some sv ∧
    sv.step (.sendProgress 0) = some sv' ∧ sv.streams[0]? = some ws ∧
    ws.watches.lookup 1 = some 0 ∧
    ∃ w, sv.state.watchers[0]? = some w ∧ ws.SentUpTo sv.state.store.history 0 w 2 := by
  obtain ⟨s, hboot, heach, sv, hsv, sv', hsend, ws, hws, hphase, hid, w, hw, -⟩ :
      ∃ s, Store.boot noLeases ⟨0, 0⟩ [] = some s ∧
      Transition.Each WatchServer.step WatchServer.ReadsDelivered (WatchServer.start s)
        (WatchServer.watchOne ++ WatchServer.putOne ++ WatchServer.passOne ++
          [WatchServer.Action.readProgress 0]) ∧
      ∃ sv, Transition.run WatchServer.step (WatchServer.start s) (WatchServer.watchOne ++
        WatchServer.putOne ++ WatchServer.passOne ++ [WatchServer.Action.readProgress 0]) = some sv ∧
      ∃ sv', sv.step (.sendProgress 0) = some sv' ∧
      ∃ ws, sv.streams[0]? = some ws ∧ ws.phase = .progress 2 ∧ ws.watches.lookup 1 = some 0 ∧
      ∃ w, sv.state.watchers[0]? = some w ∧ w.watchDoneRevision = 2 := by
    decide +kernel
  obtain ⟨log, hopen, hstart⟩ := Store.boot_eq_some hboot
  have hopened := (FilesystemLog.opened_of_empty hopen).1
  obtain ⟨ws', R, hws', hR, -, hsound⟩ :=
    progress_sound hopened.files hopened.cache hstart hsv heach hsend
  obtain rfl := Option.some.inj (hws.symm.trans hws')
  obtain rfl : R = 2 := by simpa [hphase] using hR.symm
  exact ⟨s, sv, sv', ws, hboot, hsv, hsend, hws, hid, w, hw, hsound 1 0 w hid hw⟩

/-- The response with revision 2 goes out before the put of revision 2, which the watch is for. -/
theorem progress_before_event : ∃ s, Store.boot noLeases ⟨0, 0⟩ [] = some s ∧
    ∃ sv, Transition.run WatchServer.step (WatchServer.start s) (WatchServer.watchOne ++
      WatchServer.putOne ++ [WatchServer.Action.readProgress 0]) = some sv ∧
    ∃ sv', sv.step (.sendProgress 0) = some sv' ∧
    ∃ ws, sv.streams[0]? = some ws ∧ ws.phase = .progress 2 ∧ ws.watches.lookup 1 = some 0 ∧
      (ws.sent.map fun r => (r.1, r.2.header.revision)) = [(none, 1)] ∧
    ∃ w, sv.state.watchers[0]? = some w ∧ ¬ ws.SentUpTo sv.state.store.history 0 w 2 := by
  decide +kernel

end CloudEtcd
