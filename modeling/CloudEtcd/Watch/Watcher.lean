/-
# CloudEtcd.Watch.Watcher — what one watcher has passed on.

What a watch owes its client is stated on the history: the events of the records from its start revision
on that are on keys of the clients, pass the filters and match the key or range (`eventsAt`).  A watcher
is a follower of the log in the sense of `Cursor`: what its callback took are chunks of what it owes up to
`watchDoneRevision` (`MemoryWatcher.Inv`), and every step of `Run` keeps it so.
-/
import CloudEtcd.Lib.Cursor
import CloudEtcd.Watch.Model

namespace CloudEtcd

open Cursor

/-! ## What a watch owes -/

variable {events : List Event}

namespace WatchCreateRequest

/-- The watched key or range: `[key, rangeEnd)`, or everything from the key on. -/
def Watches (req : WatchCreateRequest) (k : Bytes) : Prop :=
  if req.rangeEnd = [] then k = req.key
  else req.key ≤ k ∧ (req.rangeEnd = [0] ∨ k < req.rangeEnd)

instance (req : WatchCreateRequest) (k : Bytes) : Decidable (req.Watches k) :=
  inferInstanceAs (Decidable (if req.rangeEnd = [] then k = req.key
    else req.key ≤ k ∧ (req.rangeEnd = [0] ∨ k < req.rangeEnd)))

/-- The event is for the watch. -/
def Wants (req : WatchCreateRequest) (e : Event) : Prop :=
  isInternalKey e.kv.key = false ∧ (.noput ∈ req.filters → e.type ≠ .put) ∧
    (.nodelete ∈ req.filters → e.type ≠ .delete) ∧ req.Watches e.kv.key

instance (req : WatchCreateRequest) (e : Event) : Decidable (req.Wants e) :=
  inferInstanceAs (Decidable (_ ∧ _))

/-- The events of a revision that are for the watch, with their previous values if it asked for them. -/
def eventsAt (req : WatchCreateRequest) (hist : LogHistory) (r : Nat) : List Event :=
  (((recordAt hist r).elim [] LogRecord.events).filter req.Wants).map fun e =>
    if req.prevKv then e else { e with prevKv := none }

theorem inRange_iff (req : WatchCreateRequest) (k : Bytes) :
    req.inRange k = true ↔ req.Watches k := by
  unfold inRange rangeType Watches
  by_cases h1 : req.rangeEnd = []
  · simp [h1]
  · by_cases h2 : req.rangeEnd = [0]
    · simp [h2]
    · simp [h1, h2]

theorem foldlM_applyFilter {type : EventType} {filters : List WatchFilter} {send out : Bool}
    (h : filters.foldlM (applyFilter type) send = some out) :
    out = true ↔ send = true ∧ (.noput ∈ filters → type ≠ .put) ∧
      (.nodelete ∈ filters → type ≠ .delete) := by
  induction filters generalizing send with
  | nil =>
    cases h
    simp
  | cons f filters ih =>
    rw [List.foldlM_cons] at h
    obtain ⟨send', hfirst, hrest⟩ := Option.bind_eq_some_iff.mp h
    rw [ih hrest]
    cases f with
    | other => cases hfirst
    | noput | nodelete =>
      cases hfirst
      cases type <;> simp

variable {req : WatchCreateRequest}

theorem shouldSend_eq {e : Event} {send : Bool}
    (h : req.shouldSend e = some send) : send = true ↔ req.Wants e := by
  unfold shouldSend at h
  unfold Wants
  split at h
  · next hint =>
    cases h
    simp [hint]
  · next hint =>
    obtain ⟨pass, hfilters, hrest⟩ := Option.bind_eq_some_iff.mp h
    have hpass := foldlM_applyFilter hfilters
    simp only [true_and] at hpass
    rw [Bool.not_eq_true] at hint
    cases pass with
    | false =>
      cases hrest
      simp only [Bool.false_eq_true, false_iff] at hpass ⊢
      tauto
    | true =>
      cases hrest
      rw [inRange_iff]
      tauto

/-- The loop of `collect` keeps exactly the events for the watch. -/
theorem sendEvents_eq {out : List Event}
    (h : req.sendEvents events = some out) : out = events.filter req.Wants := by
  induction events generalizing out with
  | nil =>
    cases h
    rfl
  | cons e events ih =>
    obtain ⟨send, hsend, h⟩ := Option.bind_eq_some_iff.mp h
    obtain ⟨rest, hrest, h⟩ := Option.bind_eq_some_iff.mp h
    cases h
    have hiff := shouldSend_eq hsend
    rw [ih hrest]
    cases send with
    | true => simp [hiff.mp rfl]
    | false =>
      have hnot : ¬ req.Wants e := fun hw => Bool.false_ne_true (hiff.mpr hw)
      simp [hnot]

/-- What `collect` returns for a record of the history. -/
theorem collect_eq {hist : LogHistory} (hasc : Ascending hist)
    {log : LogReader} (hlog : ∀ r x, log r = .ok x → (r, x) ∈ hist) {pos : Nat}
    (h : req.collect log pos = .ok events) :
    events = req.eventsAt hist pos := by
  unfold collect at h
  split at h
  · cases h
  · next logEntry hread =>
    split at h
    · cases h
    · next out hout =>
      cases h
      rw [sendEvents_eq hout, eventsAt, recordAt_of_mem hasc (hlog _ _ hread)]
      rfl

end WatchCreateRequest

/-! ## One watcher -/

namespace MemoryWatcher

/-- The watch is about the revisions above this one. -/
def behind (w : MemoryWatcher) : Nat := if w.req.start = 0 then w.head else w.req.start - 1

/-- The watcher has passed on what it owes up to `watchDoneRevision`, in chunks. -/
structure Inv (hist : LogHistory) (head : Nat) (w : MemoryWatcher) : Prop where
  delivered : ∃ chunks : List (Nat × List Event),
    w.sent = chunks.map (fun c => w.response c.1 c.2) ∧
    Delivered (w.req.eventsAt hist) w.behind chunks w.watchDoneRevision
  /-- A watch from a later revision on has passed nothing yet. -/
  reached : w.watchDoneRevision = w.behind ∨ w.watchDoneRevision ≤ head
  position : w.logPosition ≤ head
  collected : ∀ logPosition last events, w.run = .collecting logPosition last events →
    logPosition ≤ head ∧ w.watchDoneRevision ≤ last ∧ last ≤ logPosition ∧
    w.watchDoneRevision < logPosition ∧
    events = between (w.req.eventsAt hist) w.watchDoneRevision last
  refused : ∀ resp, w.refused = some resp → w.run = .ended ∧
    ∃ last, w.watchDoneRevision < last ∧ last ≤ head ∧
      resp = w.response last (between (w.req.eventsAt hist) w.watchDoneRevision last)

variable {hist hist' : LogHistory} {head head' : Nat} {w w' : MemoryWatcher}

theorem Inv.new (hist : LogHistory) (req : WatchCreateRequest) (callback : Nat)
    {logPosition : Nat} (hle : logPosition ≤ head) :
    Inv hist head (new req callback logPosition) where
  delivered := ⟨[], rfl, Delivered.start _ _⟩
  reached := Or.inl rfl
  position := hle
  collected := nofun
  refused := nofun

section

variable (h : w.Inv hist head)
include h

/-- The log grows. -/
theorem Inv.mono (hle : head ≤ head') (hhist : ∀ r, r ≤ head → recordAt hist' r = recordAt hist r) :
    w.Inv hist' head' := by
  have hsel : ∀ n, n ≤ head → w.req.eventsAt hist n = w.req.eventsAt hist' n := by
    intro n hn
    rw [WatchCreateRequest.eventsAt, WatchCreateRequest.eventsAt, hhist n hn]
  obtain ⟨chunks, hsent, hdel⟩ := h.delivered
  refine ⟨⟨chunks, hsent, hdel.congr fun n h1 h2 => hsel n ?_⟩, ?_, h.position.trans hle, ?_, ?_⟩
  · rcases h.reached with heq | hr
    · omega
    · exact h2.trans hr
  · exact h.reached.imp_right fun hr => hr.trans hle
  · intro logPosition last events hrun
    obtain ⟨h1, h2, h3, h4, h5⟩ := h.collected logPosition last events hrun
    refine ⟨h1.trans hle, h2, h3, h4, h5.trans ?_⟩
    exact between_congr fun n _ hn => hsel n (hn.trans (h3.trans h1))
  · intro resp hresp
    obtain ⟨hrun, last, h1, h2, h3⟩ := h.refused resp hresp
    refine ⟨hrun, last, h1, h2.trans hle, h3.trans ?_⟩
    rw [between_congr fun n _ hn => hsel n (hn.trans h2)]

/-- A step that touches only the log position, the phase or the flag. -/
theorem Inv.of_frame (hreq : w'.req = w.req) (hhead : w'.head = w.head)
    (hdone : w'.watchDoneRevision = w.watchDoneRevision) (hsent : w'.sent = w.sent)
    (hpos : w'.logPosition ≤ head) (hrefused : w'.refused = w.refused)
    (hended : w.run = .ended → w'.run = .ended)
    (hcollected : ∀ logPosition last events, w'.run = .collecting logPosition last events →
    logPosition ≤ head ∧ w.watchDoneRevision ≤ last ∧ last ≤ logPosition ∧
    w.watchDoneRevision < logPosition ∧
    events = between (w.req.eventsAt hist) w.watchDoneRevision last) :
    w'.Inv hist head := by
  have hbehind : w'.behind = w.behind := by rw [behind, behind, hreq, hhead]
  have hresp : w'.response = w.response := by
    funext last events
    rw [response, response, hreq]
  refine ⟨?_, ?_, hpos, ?_, ?_⟩
  · rw [hsent, hresp, hreq, hbehind, hdone]
    exact h.delivered
  · rw [hdone, hbehind]
    exact h.reached
  · rw [hdone, hreq]
    exact hcollected
  · intro resp hr
    rw [hdone, hresp, hreq]
    obtain ⟨hrun, hlast⟩ := h.refused resp (hrefused ▸ hr)
    exact ⟨hended hrun, hlast⟩

theorem Inv.start (hstep : w.start = some w') : w'.Inv hist head := by
  unfold MemoryWatcher.start at hstep
  split at hstep
  · next hrun =>
    cases hstep
    exact h.of_frame rfl rfl rfl rfl h.position rfl (fun hend => nomatch hrun.symm.trans hend)
      nofun
  · cases hstep

theorem Inv.wake (hstep : w.wake = some w') : w'.Inv hist head := by
  unfold MemoryWatcher.wake at hstep
  split at hstep
  · next hrun =>
    split at hstep
    · next hlt =>
      cases hstep
      refine h.of_frame rfl rfl rfl rfl h.position rfl
        (fun hend => nomatch hrun.symm.trans hend) ?_
      intro logPosition last events heq
      cases heq
      exact ⟨h.position, le_rfl, hlt.le, hlt, (between_self _ _).symm⟩
    · cases hstep
  · cases hstep

theorem Inv.stop (hstep : w.stop = some w') : w'.Inv hist head := by
  unfold MemoryWatcher.stop at hstep
  split at hstep
  · split at hstep
    · cases hstep
      exact h.of_frame rfl rfl rfl rfl h.position rfl (fun _ => rfl) nofun
    · cases hstep
  · cases hstep

theorem Inv.close : w.close.Inv hist head :=
  h.of_frame rfl rfl rfl rfl h.position rfl id h.collected

theorem Inv.notify : Inv hist head { w with logPosition := head } :=
  h.of_frame rfl rfl rfl rfl le_rfl rfl id h.collected

/-- One more revision is collected. -/
theorem Inv.collectNext (hasc : Ascending hist) {log : LogReader}
    (hlog : ∀ r x, log r = .ok x → (r, x) ∈ hist) (hstep : w.collectNext log = some (some w')) :
    w'.Inv hist head := by
  unfold MemoryWatcher.collectNext at hstep
  split at hstep
  · next logPosition last events hrun =>
    obtain ⟨h1, h2, h3, h4, h5⟩ := h.collected _ _ _ hrun
    split at hstep
    · next hmore =>
      have hlt : last < logPosition := by
        simp only [more, Bool.and_eq_true, decide_eq_true_eq] at hmore
        exact hmore.1.1
      split at hstep
      · next evs hevs =>
        cases hstep
        refine h.of_frame rfl rfl rfl rfl h.position rfl
          (fun hend => nomatch hrun.symm.trans hend) ?_
        intro logPosition' last' events' heq
        cases heq
        refine ⟨h1, h2.trans (Nat.le_succ _), hlt, h4, ?_⟩
        rw [← between_append h2 (Nat.le_succ last), between_succ, h5,
          WatchCreateRequest.collect_eq hasc hlog hevs]
      · cases hstep
        exact h.of_frame rfl rfl rfl rfl h.position rfl (fun _ => rfl) nofun
      · cases hstep
    · cases hstep
  · cases hstep

end

/-- Where the middle loop goes on after an advance. -/
theorem next_collecting {logPosition logPosition' last : Nat}
    (h : w.next logPosition = .collecting logPosition' last events) :
    logPosition' = logPosition ∧ last = w.watchDoneRevision ∧ events = [] ∧
      w.watchDoneRevision < logPosition := by
  unfold next at h
  split at h
  · next hlt =>
    cases h
    exact ⟨rfl, rfl, rfl, hlt⟩
  · cases h

variable {resp : Option WatchResponse}

/-- The chunk is passed on, if there is something in it. -/
theorem Inv.respond (h : w.Inv hist head) {taken : Bool}
    (hstep : w.respond taken = some (w', resp)) : w'.Inv hist head := by
  unfold MemoryWatcher.respond at hstep
  split at hstep
  · next logPosition last events hrun =>
    obtain ⟨h1, h2, h3, h4, h5⟩ := h.collected _ _ _ hrun
    obtain ⟨chunks, hsent, hdel⟩ := h.delivered
    have hnone : w.refused = none := by
      cases href : w.refused with
      | none => rfl
      | some resp' => exact nomatch hrun.symm.trans (h.refused resp' href).1
    have hnext : ∀ logPosition' last' events',
        { w with watchDoneRevision := last }.next logPosition =
          .collecting logPosition' last' events' →
        logPosition' ≤ head ∧ last ≤ last' ∧ last' ≤ logPosition' ∧ last < logPosition' ∧
          events' = between (w.req.eventsAt hist) last last' := by
      intro logPosition' last' events' heq
      obtain ⟨rfl, rfl, rfl, hlt⟩ := next_collecting heq
      exact ⟨h1, le_rfl, hlt.le, hlt, (between_self _ _).symm⟩
    split at hstep
    · cases hstep
    · next hmore =>
      dsimp only at hstep
      split at hstep
      · next hempty =>
        cases hstep
        refine ⟨⟨chunks, hsent, hdel.pass h2 (h5.symm.trans hempty)⟩, Or.inr (h3.trans h1),
          h.position, hnext, ?_⟩
        simp [hnone]
      · next hne =>
        have hlt : w.watchDoneRevision < last := by
          rcases h2.lt_or_eq with hlt | heq
          · exact hlt
          · rw [h5, heq, between_self] at hne
            exact absurd rfl hne
        split at hstep
        · cases hstep
          refine ⟨⟨chunks ++ [(last, events)], ?_, ?_⟩, Or.inr (h3.trans h1), h.position,
            hnext, ?_⟩
          · rw [hsent, List.map_append]
            rfl
          · rw [h5]
            exact hdel.snoc hlt (h5 ▸ hne)
          · simp [hnone]
        · cases hstep
          refine ⟨⟨chunks, hsent, hdel⟩, h.reached, h.position, nofun, ?_⟩
          rintro resp' ⟨⟩
          exact ⟨rfl, last, hlt, h3.trans h1, by rw [h5]; rfl⟩
  · cases hstep

theorem Inv.respond_frame (h : w.Inv hist head) {taken : Bool}
    (hstep : w.respond taken = some (w', resp)) : w.Frame w' resp.toList :=
  MemoryWatcher.respond_frame (fun _ _ _ hrun => (h.collected _ _ _ hrun).2.1) hstep

end MemoryWatcher

end CloudEtcd
