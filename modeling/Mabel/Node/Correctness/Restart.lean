import Mabel.Node.Correctness.Crash
import Mabel.Node.Wallet

/-!
# Wallet appends after a crash

A crash between the event file and the head cache leaves an event that no read serves. A
later append builds on the head that is served, and the file it would write is there
already: the append is refused unless it offers the very bytes that were left.
-/

namespace Mabel.Node

open Wire Proto Net Machine Program

variable {C : Crypto}

/-! ## Loading -/

/-- Folding one more event that applies. -/
theorem LoadedLedger.step_ok {ε : Type} {loaded : LoadedLedger C} {bytes : Bytes}
    {next : LedgerState C} (hviolation : loaded.violation = none)
    (happly : loaded.state.apply bytes = .ok next) (seq : Nat) :
    ∃ loaded', (loaded.step seq bytes : Outcome ε (LoadedLedger C)) = .ok loaded' ∧
      loaded'.state = next ∧ loaded'.violation = none ∧ loaded'.events = loaded.events ∧
      loaded'.ledger = loaded.ledger := by
  rw [LoadedLedger.step]
  dsimp only
  rw [hviolation, if_neg (by simp), happly]
  exact ⟨_, rfl, rfl, rfl, rfl, rfl⟩

/-- Folding a valid run keeps its state and finds no violation. -/
theorem LoadedLedger.foldFrom_run {ε : Type} (events : List Bytes) :
    ∀ (loaded : LoadedLedger C) {state : LedgerState C} (seq : Nat), loaded.violation = none →
      RunFrom (Accepts LedgerState.apply) loaded.state events state →
      ∃ loaded', (loaded.foldFrom seq events : Outcome ε (LoadedLedger C)) = .ok loaded' ∧
        loaded'.state = state ∧ loaded'.violation = none ∧ loaded'.events = loaded.events ∧
        loaded'.ledger = loaded.ledger := by
  induction events with
  | nil =>
    intro loaded state seq hviolation hrun
    obtain rfl := hrun.eq_of_nil
    exact ⟨loaded, rfl, rfl, hviolation, rfl, rfl⟩
  | cons bytes events ih =>
    intro loaded state seq hviolation hrun
    obtain ⟨next, haccept, hrest⟩ := hrun.cases_cons
    obtain ⟨loaded₁, hstep, hstate₁, hnone₁, hevents₁, hledger₁⟩ :=
      LoadedLedger.step_ok (ε := ε) hviolation haccept seq
    rw [← hstate₁] at hrest
    obtain ⟨loaded', hfold, hstate, hnone, hevents, hledger⟩ := ih _ (seq + 1) hnone₁ hrest
    refine ⟨loaded', ?_, hstate, hnone, hevents.trans hevents₁, hledger.trans hledger₁⟩
    rw [LoadedLedger.foldFrom, hstep]
    exact hfold

/-- What loading a valid ledger finds. -/
structure Loaded (store : LedgerStore C) (log : List Bytes) (state : LedgerState C)
    (loaded : LoadedLedger C) : Prop where
  state : loaded.state = state
  violation : loaded.violation = none
  events : loaded.events = log
  ledger : loaded.ledger = store.ledger

/-- A directory with events under its head loads them. -/
theorem Directory.load (store : LedgerStore C) {files : LedgerFiles C} {log : List Bytes}
    {served : Nat} (h : Directory files log served) {state : LedgerState C}
    (hvalid : FoldRun (log.take served) state) (hne : log.take served ≠ []) (rebuilt : Nat) :
    ∃ loaded files', run FileOp.exec (Node.load store rebuilt) files = (.ok loaded, files') ∧
      Loaded store (log.take served) state loaded ∧ files'.events = files.events ∧
      Directory files' log served := by
  obtain ⟨files', hread, hevents, hdirectory, -⟩ := h.run_readAll store rebuilt
  have hbytes : (storedEvents (log.take served)).map StoredEvent.bytes = log.take served := by
    rw [storedEvents, List.map_map]
    exact List.zipIdx_map_fst 0 _
  obtain ⟨loaded, hfold, hstate, hnone, hlog, hledger⟩ := LoadedLedger.foldFrom_run
    (ε := WalletError C) (log.take served)
    (LoadedLedger.start store.ledger (log.take served)) 0 rfl hvalid
  refine ⟨loaded, files', ?_, ⟨hstate, hnone, hlog, hledger⟩, hevents, hdirectory⟩
  have hmapped : run FileOp.exec ((store.readAll rebuilt).mapReject (WalletError.storage (C := C))) files =
      (.ok (storedEvents (log.take served)), files') := by
    rw [run_mapReject, hread]
    rfl
  have hfolded : (LoadedLedger.fold store.ledger (log.take served) : Outcome (WalletError C) _) =
      .ok loaded := hfold
  rw [Node.load, run_bind_of_ok hmapped, hbytes, run_lift_ok_bind hfolded,
    run_lift_ok_bind (Outcome.rejectIf_of_not ?_)]
  · rfl
  · rw [hlog]
    exact hne

/-- Every state loading passes is the directory with some head. -/
theorem Directory.throughout_load {store : LedgerStore C} {files : LedgerFiles C}
    {log : List Bytes} {served : Nat} (h : Directory files log served) (rebuilt : Nat) :
    (Node.load store rebuilt).Throughout FileOp.exec files fun g => Directory g log served := by
  obtain ⟨files', hread, -, hdirectory, hthrough⟩ := h.run_readAll store rebuilt
  refine (hthrough.mapReject _).bind fun stored t ht => ?_
  rw [run_mapReject, hread] at ht
  obtain rfl : files' = t := congrArg Prod.snd ht
  exact .lift_bind hdirectory fun _ _ => .lift_bind hdirectory fun _ _ => .done hdirectory

/-! ## Signing -/

/-- What a signed event is good for: it applies to what was loaded, at the next sequence. -/
theorem signNext_eq_ok {checks : Bool} {call : WalletCall C} {loaded : LoadedLedger C}
    {position : Position} {timestampMs : Nat} {built : BuiltEvent}
    (h : signNext checks call loaded = .ok (position, timestampMs, built)) :
    ∃ head next, loaded.state.head = some head ∧ loaded.state.apply built.signedEvent = .ok next ∧
      (position.seq = head.seq + 1 ∨ u64Max < head.seq + 1) := by
  simp only [signNext, Outcome.bind_eq_ok, Outcome.orReject_eq_ok] at h
  obtain ⟨_, -, head, hhead, signer, -, at', hposition, h⟩ := h
  cases hbuild : call.build signer at' (ledgerTimestampMs call.clock.built head.timestampMs) with
  | error e => simp [hbuild] at h
  | ok b =>
    rw [hbuild] at h
    dsimp only at h
    rw [Outcome.bind_eq_ok] at h
    obtain ⟨next, happly, h⟩ := h
    obtain ⟨rfl, -, rfl⟩ := by simpa using Except.ok.inj h
    refine ⟨head, next, hhead, Outcome.mapReject_eq_ok.mp happly, ?_⟩
    unfold positionAfter at hposition
    by_cases hle : head.seq + 1 ≤ u64Max
    · rw [dif_pos hle] at hposition
      exact .inl (congrArg Position.seq (Except.ok.inj hposition)).symm
    · exact .inr (not_le.mp hle)

/-- A signed event takes the sequence behind what was loaded. -/
theorem signNext_seq {checks : Bool} {call : WalletCall C} {loaded : LoadedLedger C}
    {position : Position} {timestampMs : Nat} {built : BuiltEvent} {log : List Bytes}
    (h : signNext checks call loaded = .ok (position, timestampMs, built))
    (hvalid : FoldRun log loaded.state) : position.seq = log.length := by
  obtain ⟨head, next, hhead, happly, hseq⟩ := signNext_eq_ok h
  obtain ⟨st⟩ := apply_iff.mp happly
  have hnext := FoldRun.nextSeq hvalid
  have hle := st.opened.valid.seq
  rw [st.seq] at hle
  rw [LedgerState.nextSeq, hhead] at hnext hle
  dsimp only at hnext hle
  omega

/-! ## Appending to a directory -/

section Append

variable {store : LedgerStore C} {files : LedgerFiles C} {log : List Bytes} {served : Nat}
  {state : LedgerState C} {checks : Bool} {call : WalletCall C} {loaded : LoadedLedger C}
  {position : Position} {timestampMs : Nat} {built : BuiltEvent}

/-- The event a signed append offers. -/
def offeredEvent (position : Position) (built : BuiltEvent) : NewEvent :=
  ⟨position.seq, built.eventId, built.signedEvent⟩

/-- An accepted event is offered under its id. -/
theorem hashes_of_apply {s s' : LedgerState C} {event : NewEvent}
    (happly : s.apply event.bytes = .ok s') (hid : event.eventId = Mabel.eventIdOf C event.bytes) :
    Hashes C event := by
  obtain ⟨st⟩ := apply_iff.mp happly
  refine ⟨st.signed, st.opened.decode, ?_⟩
  rw [hid, Mabel.eventIdOf, bodyOf_opened st.opened]

/-- One event at the head's end fits where it agrees. -/
theorem fits_singleton {event : NewEvent} (hseq : event.seq = served) (hhashes : Hashes C event)
    (hheld : ∀ held, log[served]? = some held → held = event.bytes) :
    Fits C log served [event] := by
  intro i e hi
  cases i with
  | zero =>
    obtain rfl : event = e := by simpa using hi
    exact ⟨hseq, hhashes, hheld⟩
  | succ i => simp at hi

/-- What a wallet append does once the ledger is loaded and the event signed. -/
theorem run_appendEvent {x : Outcome StorageError (Option Head)} {after : LedgerFiles C}
    (hload : run FileOp.exec (load store call.clock.loaded) files = (.ok loaded, after))
    (hsign : signNext checks call loaded = .ok (position, timestampMs, built))
    {after' : LedgerFiles C} (happend : run FileOp.exec (store.append call.clock.rebuilt
      call.clock.written [offeredEvent position built]) after = (x, after')) :
    run FileOp.exec (appendEvent store checks call) files =
      (Outcome.mapReject WalletError.storage x >>= fun _ =>
        .ok ⟨built.eventId, position.seq, timestampMs, built.signedEvent⟩, after') := by
  have hmapped : run FileOp.exec ((store.append call.clock.rebuilt call.clock.written
      [offeredEvent position built]).mapReject (WalletError.storage (C := C))) after =
      (Outcome.mapReject WalletError.storage x, after') := by
    rw [run_mapReject, happend]
  rw [appendEvent, run_bind_of_ok hload, run_lift_ok_bind hsign]
  dsimp only
  cases x with
  | ok head => exact run_bind_of_ok hmapped
  | error e => cases e <;> exact run_bind_of_error hmapped

/-- A conflicting event file refuses an append. -/
theorem Directory.conflict (store : LedgerStore C) (h : Directory files log served) {event : NewEvent}
    (hseq : event.seq = served) (hhashes : Hashes C event) {held : Bytes}
    (hheld : log[served]? = some held) (hne : held ≠ event.bytes) (rebuilt now : Nat) :
    ∃ files', run FileOp.exec (store.append rebuilt now [event]) files =
      (.error (.reject (.conflictingEvent store.ledger served event.eventId)), files') ∧
      files'.events = files.events ∧ Directory files' log served := by
  obtain ⟨cached, files', hhead⟩ := (h.present true).head store rebuilt
  refine ⟨files', ?_, hhead.events, hhead.directory⟩
  obtain ⟨signed, hdecode, hid⟩ := hhashes
  have hget : files'.events.get? served = some held := (hhead.directory.holds served).trans hheld
  have hcheck : run FileOp.exec (store.checkEvent served event) files' =
      (.error (.reject (.conflictingEvent store.ledger served event.eventId)), files') := by
    rw [LedgerStore.checkEvent, run_lift_ok_bind (Outcome.rejectIf_of_not (not_not.mpr hseq)),
      run_lift_ok_bind (eventIdOf_eq_ok.mpr ⟨signed, hdecode, rfl⟩),
      run_lift_ok_bind (Outcome.rejectIf_of_not (not_not.mpr hid)), File.run_readEvent_bind, hseq,
      hget, Outcome.rejectIf, if_pos (by simpa using hne)]
    rfl
  have hwrite : run FileOp.exec (store.writeEvents rebuilt now event []) files =
      (.error (.reject (.conflictingEvent store.ledger served event.eventId)), files') := by
    rw [LedgerStore.writeEvents, File.run_createDir_bind, run_bind_of_ok hhead.run]
    dsimp only
    rw [hhead.count]
    exact run_bind_of_error (run_bind_of_error hcheck)
  exact run_bind_of_error hwrite

/-! ## The directory a crash leaves -/

/-- What a crashed append leaves: a directory that serves a valid run, the old one or one
event longer, and past it no event but those left over before and the crashed one. -/
structure Crashed (checks : Bool) (call : WalletCall C) (log : List Bytes) (served : Nat)
    (g : LedgerFiles C) : Prop where
  left : ∃ (log' : List Bytes) (served' : Nat) (state' : LedgerState C),
    Directory g log' served' ∧ FoldRun (log'.take served') state' ∧
    (log'.take served' = log.take served ∨ ∃ bytes, log'.take served' = log.take served ++ [bytes]) ∧
    (log.length = served → ∀ held, log'[served']? = some held →
      ∃ loaded position timestampMs built,
        signNext checks call loaded = .ok (position, timestampMs, built) ∧
        held = built.signedEvent)

/-- A crash before the first write leaves the directory. -/
theorem Directory.crashed_before (h : Directory files log served)
    (hvalid : FoldRun (log.take served) state) : Crashed checks call log served files := by
  refine ⟨log, served, state, h, hvalid, .inl rfl, fun hclean held hheld => ?_⟩
  rw [List.getElem?_eq_none hclean.le] at hheld
  simp at hheld

/-- Every state a wallet's append passes is a crashed one. -/
theorem Directory.throughout_appendEvent (store : LedgerStore C) (checks : Bool)
    (call : WalletCall C) (h : Directory files log served)
    (hvalid : FoldRun (log.take served) state) (hne : log.take served ≠ []) :
    (appendEvent store checks call).Throughout FileOp.exec files
      (Crashed checks call log served) := by
  obtain ⟨loaded, after, hload, hloaded, -, hdirectory⟩ :=
    h.load store hvalid hne call.clock.loaded
  refine .after hload ((h.throughout_load call.clock.loaded).mono fun g hg =>
    hg.crashed_before hvalid) ?_
  refine .lift_bind (hdirectory.crashed_before hvalid) fun signed hsign => ?_
  obtain ⟨position, timestampMs, built⟩ := signed
  dsimp only
  have happend : (store.append call.clock.rebuilt call.clock.written
      [offeredEvent position built]).Throughout FileOp.exec after
        (Crashed checks call log served) := by
    by_cases hfits : Fits C log served [offeredEvent position built]
    · refine (hdirectory.throughout_append store hfits _ _).mono fun g hg => ?_
      obtain ⟨m, served', hle, hle', hg, hlow, hhigh⟩ := hg.reached
      obtain ⟨head, next, -, happly, -⟩ := signNext_eq_ok hsign
      rw [hloaded.state] at happly
      have htake := take_splicedLog h.served_le hfits.agrees
      have hend := take_end_splicedLog h.served_le hfits.agrees
      have hservedLe := hg.served_le
      rw [List.length_take] at hservedLe
      have hplaced := hfits.placed h.served_le (i := 0) rfl
      -- One event at most is written, so the old run is served or one event more.
      rcases Nat.lt_or_ge served served' with hlt | hge
      · obtain rfl : served' = served + 1 := by
          simp only [List.length_singleton] at hhigh
          omega
        have hrun : ((splicedLog log served (batchBytes [offeredEvent position built])).take m).take
            (served + 1) = log.take served ++ [built.signedEvent] := by
          rw [List.take_take, min_eq_left (by omega)]
          exact hend
        refine ⟨_, served + 1, next, hg, ?_, .inr ⟨_, hrun⟩, fun hclean held hheld => ?_⟩
        · rw [hrun]
          exact hvalid.snoc happly
        · have hlen := length_splicedLog (batchBytes [offeredEvent position built])
            h.served_le
          rw [List.getElem?_take, List.getElem?_eq_none, ite_self] at hheld
          · simp at hheld
          · rw [hlen, length_batchBytes, List.length_singleton]
            omega
      · obtain rfl : served' = served := le_antisymm hge hlow
        have hrun : ((splicedLog log served' (batchBytes [offeredEvent position built])).take m).take
            served' = log.take served' := by
          rw [List.take_take, min_eq_left (by omega)]
          nth_rewrite 2 [← htake]
          rw [List.take_take, min_eq_left h.served_le]
        refine ⟨_, served', state, hg, ?_, .inl hrun, fun _ held hheld => ?_⟩
        · rw [hrun]
          exact hvalid
        · rw [List.getElem?_take] at hheld
          split_ifs at hheld
          exact ⟨loaded, position, timestampMs, built, hsign,
            Option.some.inj (hheld.symm.trans hplaced)⟩
    · exact (hdirectory.refused store hfits _ _).2.mono fun g hg => hg.crashed_before hvalid
  refine (happend.mapReject _).bind fun _ t ht => .done ?_
  have hfinal := (happend.mapReject (WalletError.storage (C := C))).final
  rw [ht] at hfinal
  exact hfinal

end Append

/-! ## The next append -/

/-- The append of an event that is signed on what a directory serves ends one of two ways,
by whether another event lies where it belongs. -/
theorem Directory.next_append {store : LedgerStore C} {files : LedgerFiles C} {log : List Bytes}
    {served : Nat} {state : LedgerState C} (h : Directory files log served)
    (hvalid : FoldRun (log.take served) state) (hne : log.take served ≠ []) {checks : Bool}
    {call : WalletCall C} {loaded : LoadedLedger C} {position : Position} {timestampMs : Nat}
    {built : BuiltEvent}
    (hload : (run FileOp.exec (Node.load store call.clock.loaded) files).1 = .ok loaded)
    (hsign : signNext checks call loaded = .ok (position, timestampMs, built))
    (hid : built.eventId = Mabel.eventIdOf C built.signedEvent) :
    position.seq = served ∧
    ((∀ held, log[served]? = some held → held = built.signedEvent) →
      ∃ files', run FileOp.exec (appendEvent store checks call) files =
        (.ok ⟨built.eventId, position.seq, timestampMs, built.signedEvent⟩, files') ∧
        store.Serves files' (log.take served ++ [built.signedEvent])) ∧
    (∀ held, log[served]? = some held → held ≠ built.signedEvent →
      ∃ files', run FileOp.exec (appendEvent store checks call) files =
        (.error (.reject (.storage (.conflictingEvent store.ledger position.seq built.eventId))),
          files') ∧ files'.events = files.events ∧ Directory files' log served) := by
  obtain ⟨loaded', after, hload', hloaded, hevents, hdirectory⟩ :=
    h.load store hvalid hne call.clock.loaded
  obtain rfl : loaded' = loaded := by
    rw [hload'] at hload
    exact Except.ok.inj hload
  have hseq : position.seq = served := by
    rw [← hloaded.state] at hvalid
    rw [signNext_seq hsign hvalid, List.length_take, min_eq_left h.served_le]
  obtain ⟨head, next, -, happly, -⟩ := signNext_eq_ok hsign
  have hhashes : Hashes C (offeredEvent position built) := hashes_of_apply happly hid
  refine ⟨hseq, fun hfree => ?_, fun held hheld hother => ?_⟩
  · have hfits : Fits C log served [offeredEvent position built] :=
      fits_singleton hseq hhashes hfree
    obtain ⟨head, files', hrun, hafter, -⟩ := hdirectory.append store hfits (by simp)
      call.clock.rebuilt call.clock.written
    refine ⟨files', run_appendEvent hload' hsign hrun, ?_⟩
    have hend := take_end_splicedLog h.served_le hfits.agrees
    have hserves := hafter.serves store
    rw [← length_batchBytes, hend] at hserves
    exact hserves
  · obtain ⟨files', hrun, hsame, hafter⟩ := hdirectory.conflict store hseq hhashes hheld
      hother call.clock.rebuilt call.clock.written
    refine ⟨files', ?_, hsame.trans hevents, hafter⟩
    rw [run_appendEvent hload' hsign hrun, hseq]
    rfl

/-- After a crash anywhere in a wallet append on a valid ledger, the next event that is signed
on what is served lands exactly when no event file holds other bytes at its sequence. If one
does, the append is refused as conflicting and changes no event file, and what the file
holds can be committed by offering it again; and if nothing was left over before the crash,
that file is the crashed append's own event. -/
theorem append_after_crash (store : LedgerStore C) (checks : Bool) (happenings : List Happening)
    {log : List Bytes} {state : LedgerState C}
    (hserves : store.Serves (store.happens happenings) log)
    (hvalid : fold C log = .ok (state, none)) (hne : log ≠ []) (crashed : WalletCall C)
    (operations : Nat) :
    ∃ g served, g = cut FileOp.exec operations (appendEvent store checks crashed)
        (store.happens happenings) ∧ store.Serves g served ∧
      (served = log ∨ ∃ bytes, served = log ++ [bytes]) ∧
      ((store.happens happenings).events.get? log.length = none →
        ∀ held, g.events.get? served.length = some held →
          ∃ loaded position timestampMs built,
            signNext checks crashed loaded = .ok (position, timestampMs, built) ∧
            held = built.signedEvent) ∧
      ∀ call loaded position timestampMs built,
        (run FileOp.exec (load store call.clock.loaded) g).1 = .ok loaded →
        signNext checks call loaded = .ok (position, timestampMs, built) →
        built.eventId = Mabel.eventIdOf C built.signedEvent →
        position.seq = served.length ∧
        ((∃ g', run FileOp.exec (appendEvent store checks call) g =
            (.ok ⟨built.eventId, position.seq, timestampMs, built.signedEvent⟩, g') ∧
            store.Serves g' (served ++ [built.signedEvent])) ↔
          ∀ held, g.events.get? position.seq = some held → held = built.signedEvent) ∧
        ∀ held, g.events.get? position.seq = some held → held ≠ built.signedEvent →
          ∃ g', run FileOp.exec (appendEvent store checks call) g =
            (.error (.reject (.storage
              (.conflictingEvent store.ledger position.seq built.eventId))), g') ∧
            g'.events = g.events ∧ ∀ rebuilt now, ∃ head g'',
              run FileOp.exec (store.append rebuilt now
                [⟨position.seq, Mabel.eventIdOf C held, held⟩]) g' = (.ok (some head), g'') ∧
              store.Serves g'' (served ++ [held]) := by
  obtain ⟨whole, count, h, -, -, -⟩ :=
    (directory_none : Directory (LedgerFiles.none : LedgerFiles C) [] 0).happens store
      happenings
  change Directory (store.happens happenings) whole count at h
  obtain rfl := hserves.unique (h.serves store)
  have hlen : (whole.take count).length = count := by
    rw [List.length_take, min_eq_left h.served_le]
  obtain ⟨log', served', state', hg, hvalid', hrun, hleft⟩ :=
    (h.throughout_appendEvent store checks crashed
      (fold_eq_ok.mp hvalid) hne operations).left
  have hlen' : (log'.take served').length = served' := by
    rw [List.length_take, min_eq_left hg.served_le]
  have hne' : log'.take served' ≠ [] := by
    rcases hrun with hsame | ⟨bytes, hmore⟩
    · rw [hsame]
      exact hne
    · simp [hmore]
  refine ⟨_, log'.take served', rfl, hg.serves store, hrun, ?_, ?_⟩
  · intro hclean held hheld
    rw [hlen'] at hheld
    rw [hlen] at hclean
    refine hleft ?_ held ((hg.holds _).symm.trans hheld)
    exact le_antisymm (List.getElem?_eq_none_iff.mp ((h.holds count).symm.trans hclean)) h.served_le
  · intro call loaded position timestampMs built hload hsign hid
    obtain ⟨hseq, hlands, hrefused⟩ := hg.next_append hvalid' hne' hload hsign hid
    rw [hlen']
    refine ⟨hseq, ⟨?_, ?_⟩, ?_⟩
    · rintro ⟨g', hok, -⟩ held hheld
      by_contra hother
      rw [hseq] at hheld
      obtain ⟨g'', herror, -⟩ := hrefused held ((hg.holds _).symm.trans hheld) hother
      exact absurd (hok.symm.trans herror) (by simp)
    · intro hfree
      refine hlands fun held hheld => hfree held ?_
      rw [hseq]
      exact (hg.holds _).trans hheld
    · intro held hheld hother
      rw [hseq] at hheld
      have hlog := (hg.holds _).symm.trans hheld
      obtain ⟨g', herror, hsame, hafter⟩ := hrefused held hlog hother
      refine ⟨g', herror, hsame, fun rebuilt now => ?_⟩
      obtain ⟨signed, hdecode⟩ := Option.isSome_iff_exists.mp
        (hafter.decodes held (List.mem_of_getElem? hlog))
      have hfits : Fits C log' served' [⟨position.seq, Mabel.eventIdOf C held, held⟩] := by
        refine fits_singleton hseq ⟨signed, hdecode, ?_⟩ fun other hother => ?_
        · simp [Mabel.eventIdOf, bodyOf, hdecode]
        · exact Option.some.inj (hother.symm.trans hlog)
      obtain ⟨head, g'', hrun, hcommitted, -⟩ := hafter.append store hfits (by simp)
        rebuilt now
      refine ⟨head, g'', hrun, ?_⟩
      have hend := take_end_splicedLog hafter.served_le hfits.agrees
      have hserves := hcommitted.serves store
      rw [← length_batchBytes, hend] at hserves
      exact hserves

/-! ## A sample crash -/

/-- The owner of the sample ledger empties its witness set at some time. -/
def sampleWallet (now : Nat) : WalletCall Crypto.sample where
  ledger := sampleLedgerId
  identity := sampleLedgerId
  signer := some (SecretKey.sample 1)
  build := fun signer position timestampMs => buildWitnessSet signer position [] timestampMs
  clock := ⟨1, 2, now, 4, ⟨5, 6⟩⟩

/-- The directory a crash between the event file and the head cache leaves. -/
def sampleCrash : LedgerFiles Crypto.sample :=
  cut FileOp.exec 6 (appendEvent sampleStore false (sampleWallet 5000))
    (sampleStore.happens sampleHappenings)

/-- After that crash an event is signed on what is served and applies to it, and its append
fails. -/
theorem crash_blocks_append :
    ((run FileOp.exec (load sampleStore 1) sampleCrash).1 >>=
      signNext false (sampleWallet 6000)).isOk = true ∧
    (run FileOp.exec (appendEvent sampleStore false (sampleWallet 6000)) sampleCrash).1.isOk =
      false := by
  decide +kernel

/-- In the directory of the sample crash, one event was served before it. -/
theorem append_after_crash_sampleCrash :
    sampleStore.Serves (sampleStore.happens sampleHappenings) (sampleLedger.take 1) ∧
      ∃ served, sampleStore.Serves sampleCrash served ∧
        (served = sampleLedger.take 1 ∨ ∃ bytes, served = sampleLedger.take 1 ++ [bytes]) := by
  have hserves : sampleStore.Serves (sampleStore.happens sampleHappenings) (sampleLedger.take 1) :=
    LedgerStore.serves_of_read (by decide +kernel)
  have hvalid : fold Crypto.sample (sampleLedger.take 1) =
      .ok (after Crypto.sample (sampleLedger.take 1), none) := by decide +kernel
  obtain ⟨g, served, rfl, hserved, hrun, -⟩ := append_after_crash sampleStore false
    sampleHappenings hserves hvalid (by decide +kernel) (sampleWallet 5000) 6
  exact ⟨hserves, served, hserved, hrun⟩

end Mabel.Node
